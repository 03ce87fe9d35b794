import Lookahead.Text.Lossy
import Lookahead.Text.Quoted
import Lookahead.Tree.Walk

/-!
Trees as text: a line for each node, indented by its depth, with the name of its kind, the
text of a literal and the span.
-/

namespace Lookahead

def Span.display (span : Span) : String :=
  "[" ++ toString span.start ++ ", " ++ toString span.stop ++ ")"

/-- The line of a node, unless it is a literal beyond the end of the input. -/
def Tree.displayLine? (names : NameMap) (input : Array UInt8) (depth : Nat) (tree : Tree) :
    Option String := do
  let indent := String.ofList (List.replicate (2 * depth) ' ')
  let name := names.nameOf tree.kind
  if tree.kind = .literal then
    let bytes ← tree.text? input
    return indent ++ name ++ " " ++ quoteText (Utf8.decode bytes) ++ " " ++ tree.span.display
  else
    return indent ++ name ++ " " ++ tree.span.display

def ParseTree.display? (tree : ParseTree) (names : NameMap) (input : Array UInt8) :
    Option String := do
  let lines ← tree.root.nodesWithDepth.mapM fun (depth, node) => node.displayLine? names input depth
  return "\n".intercalate lines

end Lookahead
