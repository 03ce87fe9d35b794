import Lookahead.Enumeration.Grammar

/-!
Programs that rebuild a parser: the calls that fill its rows and name its rules, and the mapping
from rules back to variants.
-/

namespace Lookahead

structure AlternativeCalls where
  operations : List Operation
  bytes : List UInt8
deriving DecidableEq

structure RowCalls where
  rule : Nat
  alternatives : List AlternativeCalls
deriving DecidableEq

/-- The code of an enumeration: the calls that build its parser, and the variants of its rules. -/
structure Program where
  name : String
  parameters : List String
  rows : List RowCalls
  ruleNames : List (Nat × String)
deriving DecidableEq

namespace RowCalls

def ofRow (rule : Nat) (row : Row) : RowCalls where
  rule
  alternatives := row.alternatives.toList.zipIdx.map fun (operations, place) =>
    ⟨operations, row.bytesOf place⟩

def addAlternative (row : Row) (calls : AlternativeCalls) : Except Nat Row :=
  let place := row.alternatives.size
  calls.bytes.foldlM (fun row byte => row.assign byte place) (row.push calls.operations)

def build (calls : RowCalls) : Except Nat Row :=
  calls.alternatives.foldlM addAlternative Row.empty

end RowCalls

namespace Program

def rulesOf (names : NameMap) : List (Nat × String) :=
  names.entries.filterMap fun (kind, name) =>
    match kind with
    | .rule id => some (id, name)
    | _ => none

def ofTable (enumeration : Enumeration) (table : Table) (names : NameMap) : Program where
  name := enumeration.name
  parameters := enumeration.parameters
  rows := table.presentRows.map fun (rule, row) => RowCalls.ofRow rule row
  ruleNames := rulesOf names

/-- Makes all calls.  There is no parser if a call meets a cell that is taken; then the place of
its alternative is returned. -/
def parser (program : Program) : Except Nat Parser := do
  let table ← program.rows.foldlM
    (fun (table : Table) calls => return table.insertRow calls.rule (← calls.build)) Table.empty
  let names := program.ruleNames.foldl
    (fun (names : NameMap) (rule, name) => names.insert (.rule rule) name) NameMap.empty
  return Parser.ofTable table names

def variantOf? (program : Program) : NodeKind → Option String
  | .rule id => program.ruleNames.lookup id
  | _ => none

end Program

def Enumeration.program (enumeration : Enumeration) : Except EnumerationError Program := do
  let (_, table, names) ← enumeration.generate
  return Program.ofTable enumeration table names

end Lookahead
