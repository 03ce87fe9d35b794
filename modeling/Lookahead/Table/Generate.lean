import Lookahead.Analysis.Report
import Lookahead.Table.Basic
import Lookahead.Names

/-!
Generation of the parse table of a grammar.  An alternative claims the bytes that it can begin
with and, if it may be empty, the bytes that can follow its rule; a byte may be claimed once in
a row.
-/

namespace Lookahead

def ResolvedSymbol.operation? {n : Nat} : ResolvedSymbol n → Option Operation
  | .terminal bytes => some (.matchLiteral bytes)
  | .rule index => some (.invoke (.rule index.val))
  | .endOfLine => some (.invoke .endOfLine)
  | .empty => none

/-- A row under construction.  All empty expansions share one place among its alternatives. -/
structure RowDraft where
  row : Row
  /-- The alternative of the rule that each byte was claimed for. -/
  owners : Cells
  epsilon : Option Nat

namespace RowDraft

def empty : RowDraft :=
  ⟨Row.empty, Cells.empty, none⟩

def push (draft : RowDraft) (operations : List Operation) : RowDraft :=
  { draft with row := draft.row.push operations }

/-- Points the cell of a byte at a place in the row, for an alternative of the rule.  Neither may
the byte have another owner nor its cell point elsewhere. -/
def claim (head : String) (place owner : Nat) (draft : RowDraft) (byte : UInt8) :
    Except GrammarError RowDraft := do
  let owners ← (draft.owners.assign byte owner).mapError fun _ => .ambiguousCell head byte
  let row ← (draft.row.assign byte place).mapError fun _ => .ambiguousCell head byte
  return { draft with row, owners }

def addExpansion (head : String) (owner : Nat) (operations : List Operation)
    (lookahead : List UInt8) (draft : RowDraft) : Except GrammarError RowDraft :=
  if lookahead.isEmpty then .ok draft
  else
    lookahead.foldlM (claim head draft.row.alternatives.size owner) (draft.push operations)

/-- The place of the empty expansions, which is appended when it is needed first. -/
def reserveEpsilon (draft : RowDraft) : Nat × RowDraft :=
  match draft.epsilon with
  | some place => (place, draft)
  | none =>
    (draft.row.alternatives.size,
      { draft.push [] with epsilon := some draft.row.alternatives.size })

def addEmptyExpansion (head : String) (owner : Nat) (follow : List UInt8) (draft : RowDraft) :
    Except GrammarError RowDraft :=
  let reserved := draft.reserveEpsilon
  follow.foldlM (claim head reserved.1 owner) reserved.2

def addAlternative {n : Nat} (analysis : Analysis n) (rule : Fin n) (draft : RowDraft)
    (alternative : List (ResolvedSymbol n) × Nat) : Except GrammarError RowDraft := do
  let (symbols, owner) := alternative
  let head := analysis.grammar.heads.get rule
  let first := Resolved.firstOf analysis.first symbols
  let operations := symbols.filterMap ResolvedSymbol.operation?
  let draft ← addExpansion head owner operations (first.erase endOfInputByte).toList draft
  if first.contains endOfInputByte then
    addEmptyExpansion head owner (analysis.follow.get rule).toList draft
  else
    return draft

end RowDraft

namespace Analysis

variable {n : Nat}

def row (analysis : Analysis n) (rule : Fin n) : Except GrammarError Row := do
  let draft ← (analysis.grammar.rules.get rule).zipIdx.foldlM
    (RowDraft.addAlternative analysis rule) RowDraft.empty
  return draft.row

def table (analysis : Analysis n) : Except GrammarError Table :=
  (List.finRange n).foldlM
    (fun (table : Table) rule => return table.insertRow rule.val (← analysis.row rule)) Table.empty

def names (analysis : Analysis n) : NameMap :=
  (List.finRange n).foldl
    (fun names (rule : Fin n) => names.insert (.rule rule.val) (analysis.grammar.heads.get rule))
    NameMap.empty

end Analysis

def Grammar.generate (grammar : Grammar) : Except GrammarError (Table × NameMap) := do
  let analysis ← grammar.analyze
  let table ← analysis.table
  return (table, analysis.names)

end Lookahead
