import Lookahead.Tree.Basic

/-!
Walks over a tree: depth first, in the order of the children, a node before what is below it.
A visitor decides at each node whether the walk goes below it.
-/

namespace Lookahead.Tree

/-- Walks the trees of a stack in order.  A visitor gets the state that the visits before it have
left, and answers with the next state and whether to go below the node. -/
def walkStack {σ : Type} (visit : σ → Tree → σ × Bool) : List Tree → σ → σ
  | [], state => state
  | tree :: rest, state =>
    let visited := visit state tree
    walkStack visit ((if visited.2 then tree.children else []) ++ rest) visited.1
termination_by stack _ => sizes stack
decreasing_by
  simp only [sizes_append, sizes, tree.size_eq]
  split
  · omega
  · simp only [sizes]; omega

def walk {σ : Type} (visit : σ → Tree → σ × Bool) (tree : Tree) (state : σ) : σ :=
  walkStack visit [tree] state

/-- The nodes of a tree that a walk visits when it goes below those that `descends` accepts. -/
def visited (descends : Tree → Bool) (tree : Tree) : List Tree :=
  (tree.walk (fun found node => (node :: found, descends node)) []).reverse

def leaves (tree : Tree) : List Tree :=
  (tree.walk (fun found node => (if node.isLeaf then node :: found else found, true)) []).reverse

/-- The nodes that satisfy a condition on kinds and lie below no other such node. -/
def outermost (accepts : NodeKind → Bool) (tree : Tree) : List Tree :=
  (tree.walk (fun found node =>
    if accepts node.kind then (node :: found, false) else (found, true)) []).reverse

def firstOfKind? (kind : NodeKind) (tree : Tree) : Option Tree :=
  tree.walk (fun found node =>
    if found.isSome then (found, false)
    else if node.kind = kind then (some node, false)
    else (found, true)) none

def depthsOnto : List (Nat × Tree) → List (Nat × Tree) → List (Nat × Tree)
  | [], collected => collected
  | (depth, tree) :: rest, collected =>
    depthsOnto (tree.children.map (fun child => (depth + 1, child)) ++ rest)
      ((depth, tree) :: collected)
termination_by stack _ => sizes (stack.map (·.2))
decreasing_by
  simp only [List.map_append, List.map_map, Function.comp_def, List.map_id_fun', id_eq,
    List.map_cons, sizes_append, sizes, tree.size_eq]
  omega

def nodesWithDepth (tree : Tree) : List (Nat × Tree) :=
  (depthsOnto [(0, tree)] []).reverse

end Lookahead.Tree
