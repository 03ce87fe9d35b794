import Lookahead.Byte.Text
import Lookahead.Grammar.Text
import Lookahead.Table.Basic
import Lookahead.Names

/-!
Tables as text: a line for each alternative, with the bytes that select it and its operations.
-/

namespace Lookahead

def Operation.display (names : NameMap) : Operation → String
  | .invoke (.rule id) => bracketed (names.nameOf (.rule id))
  | .invoke .endOfLine => bracketed endOfLineName
  | .matchLiteral bytes => (Symbol.ofBytes bytes).render
  | .endOfInput => "$"

def padLeft (width : Nat) (text : String) : String :=
  String.ofList (List.replicate (width - text.length) ' ') ++ text

namespace Row

def displayOperations (names : NameMap) (operations : List Operation) : String :=
  if operations.isEmpty then "\"\""
  else " ".intercalate (operations.map (Operation.display names))

/-- The lines of a row.  Only the first of them is headed by the name of the rule. -/
def displayLines (row : Row) (names : NameMap) (header : String) (width : Nat) : List String :=
  row.alternatives.toList.zipIdx.map fun (operations, place) =>
    padLeft width (if place = 0 then header else "") ++ " | " ++
      (ByteSet.ofList (row.bytesOf place)).display ++ " => " ++ displayOperations names operations

end Row

/-- The table as text.  The column of names is as wide as the longest of them has bytes. -/
def Table.display (table : Table) (names : NameMap) : String :=
  let headed := table.presentRows.map fun (id, row) => (bracketed (names.nameOf (.rule id)), row)
  let width := headed.foldl (fun widest (header, _) => max widest header.utf8ByteSize) 0
  "\n".intercalate (headed.flatMap fun (header, row) => row.displayLines names header width)

end Lookahead
