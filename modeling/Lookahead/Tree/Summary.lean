import Lookahead.Tree.Walk

/-!
Figures about a tree.
-/

namespace Lookahead

structure TreeSummary where
  nodeCount : Nat
  isEmpty : Bool
  rootSerial : Nat
  span : Span
  kindCounts : List (NodeKind × Nat)
  leafCount : Nat
  depth : Nat
deriving DecidableEq

def countKinds (kinds : List NodeKind) : List (NodeKind × Nat) :=
  let sorted := kinds.mergeSort fun left right => left.rank ≤ right.rank
  (sorted.splitBy fun left right => left == right).filterMap fun group =>
    group.head?.map fun kind => (kind, group.length)

def ParseTree.summary (tree : ParseTree) : TreeSummary where
  nodeCount := tree.nodeCount
  isEmpty := tree.isEmpty
  rootSerial := tree.root.serial
  span := tree.root.span
  kindCounts := countKinds (tree.root.nodes.map Tree.kind)
  leafCount := tree.root.leaves.length
  depth := tree.root.nodesWithDepth.foldl (fun deepest (depth, _) => max deepest depth) 0

end Lookahead
