import Lookahead.Engine.Run
import Lookahead.Engine.Stream
import Lookahead.Table.Generate

/-!
Parsing with a table.  A result is missing only where the machine would never stop, which takes
a table that no grammar generates.
-/

namespace Lookahead

/-- Runs the machine after looking for defects that need no step: a table without a start row, and
an input that holds the reserved byte. -/
def Machine.parse (machine : Machine) : Option (Except Error ParseTree) :=
  if machine.table.isEmpty then some (.error (.table .emptyTable))
  else if (machine.table.row? 0).isNone then some (.error (.table .noStartRule))
  else
    match machine.input.findIdx? (· == endOfInputByte) with
    | some offset => some (.error (.parse (.reservedByte offset)))
    | none => machine.run Machine.initial

def Table.parse (table : Table) (names : NameMap) (input : Array UInt8) :
    Option (Except Error (ParseTree × NameMap)) :=
  (Machine.parse ⟨table, names, input⟩).map fun result =>
    result.map fun tree => (tree, names.withBuiltins)

structure Parser where
  table : Table
  names : NameMap
deriving DecidableEq

namespace Parser

def ofTable (table : Table) (names : NameMap) : Parser :=
  ⟨table, names.withBuiltins⟩

def ofGrammar (grammar : Grammar) : Except GrammarError Parser := do
  let (table, names) ← grammar.generate
  return ofTable table names

def parse (parser : Parser) (input : Array UInt8) : Option (Except Error ParseTree) :=
  Machine.parse ⟨parser.table, parser.names, input⟩

def parseStream (parser : Parser) (stream : ByteStream) : Option (Except Error ParseTree) :=
  match stream.readAll with
  | .error reason => some (.error (.input reason))
  | .ok bytes => parser.parse bytes.toArray

end Parser

end Lookahead
