import Lookahead.Proofs.Walks
import Mathlib.Data.List.Flatten
import Mathlib.Data.List.Infix
import Mathlib.Data.List.Perm.Basic

/-!
Nodes in post-order, each after what is below it.  Where the nodes of a tree are numbered in this
order the root comes last, every other node is a child once, and children come before their
parents.
-/

namespace Lookahead

namespace Tree

mutual

def postorder : Tree → List Tree
  | node serial kind span children => postorders children ++ [node serial kind span children]

def postorders : List Tree → List Tree
  | [] => []
  | tree :: rest => tree.postorder ++ postorders rest

end

theorem postorders_eq (trees : List Tree) : postorders trees = trees.flatMap postorder := by
  induction trees with
  | nil => rfl
  | cons tree rest ih => rw [postorders, ih, List.flatMap_cons]

theorem postorder_eq (tree : Tree) :
    tree.postorder = tree.children.flatMap postorder ++ [tree] := by
  cases tree
  rw [postorder, postorders_eq]
  rfl

theorem size_lt_of_mem_children {tree child : Tree} (member : child ∈ tree.children) :
    child.size < tree.size := by
  obtain ⟨before, after, same⟩ := List.append_of_mem member
  rw [tree.size_eq, same, sizes_append, sizes]
  omega

theorem induction_children {holds : Tree → Prop}
    (inherits : ∀ tree, (∀ child ∈ tree.children, holds child) → holds tree) (tree : Tree) :
    holds tree := by
  -- Children are among a node's own list, so the structure is followed by the number of nodes.
  generalize sizeIs : tree.size = size
  induction size using Nat.strongRecOn generalizing tree with
  | ind size ih =>
      apply inherits
      intro child member
      exact ih child.size (sizeIs ▸ size_lt_of_mem_children member) child rfl

theorem nodes_perm_postorder (tree : Tree) : tree.nodes.Perm tree.postorder := by
  induction tree using induction_children with
  | inherits tree ih =>
      rw [nodes_eq, postorder_eq]
      have below := List.Perm.flatMap_left tree.children ih
      exact (below.cons tree).trans (List.perm_append_singleton _ _).symm

theorem children_perm (tree : Tree) :
    (tree.nodes.flatMap children).Perm (tree.children.flatMap nodes) := by
  induction tree using induction_children with
  | inherits tree ih =>
      have below : (tree.children.flatMap fun child => child.nodes.flatMap children).Perm
          (tree.children.flatMap fun child => child.children.flatMap nodes) :=
        List.Perm.flatMap_left tree.children ih
      have each : tree.children.flatMap nodes =
          tree.children.flatMap fun child => [child] ++ child.children.flatMap nodes := by
        apply List.flatMap_congr
        intro child _
        exact nodes_eq child
      rw [nodes_eq, List.flatMap_cons, List.flatMap_assoc, each]
      refine (below.append_left tree.children).trans ?_
      simpa using List.flatMap_append_perm tree.children (fun child => [child])
        (fun child => child.children.flatMap nodes)

theorem postorder_infix {tree node : Tree} (inside : node ∈ tree.nodes) :
    node.postorder <:+: tree.postorder := by
  induction tree using induction_children with
  | inherits tree ih =>
      rw [nodes_eq, List.mem_cons] at inside
      rcases inside with rfl | below
      · exact List.infix_rfl
      · obtain ⟨child, among, inside⟩ := List.mem_flatMap.mp below
        obtain ⟨before, after, same⟩ := List.append_of_mem among
        rw [tree.postorder_eq, same, List.flatMap_append, List.flatMap_cons]
        refine (ih child among inside).trans ⟨before.flatMap postorder,
          after.flatMap postorder ++ [tree], ?_⟩
        simp

end Tree

namespace ParseTree

/-- The numbers of the nodes are their places in post-order. -/
structure Numbered (tree : ParseTree) : Prop where
  postorder : tree.root.postorder.map Tree.serial = List.range tree.nodeCount
  root_last : tree.root.serial + 1 = tree.nodeCount
  child_once : (tree.root.nodes.flatMap fun node => node.children.map Tree.serial).Perm
    (List.range tree.root.serial)
  child_lt : ∀ node ∈ tree.root.nodes, ∀ child ∈ node.children, child.serial < node.serial

theorem numbered_of_postorder {tree : ParseTree}
    (numbers : tree.root.postorder.map Tree.serial = List.range tree.nodeCount) :
    tree.Numbered := by
  obtain ⟨root, count⟩ := tree
  have split := numbers
  simp only [root.postorder_eq, List.map_append, List.map_singleton] at split
  obtain ⟨last, rfl⟩ : ∃ last, count = last + 1 := by
    cases count with
    | zero => simp at split
    | succ last => exact ⟨last, rfl⟩
  rw [List.range_succ] at split
  obtain ⟨below, rootIs⟩ := List.append_inj' split rfl
  have serial : root.serial = last := by simpa using rootIs
  refine ⟨numbers, congrArg (· + 1) serial, ?_, ?_⟩
  · simp only
    rw [← List.map_flatMap, serial, ← below]
    have nodes : (root.children.flatMap Tree.nodes).Perm
        (root.children.flatMap Tree.postorder) :=
      List.Perm.flatMap_left root.children fun child _ => child.nodes_perm_postorder
    exact (root.children_perm.trans nodes).map Tree.serial
  · intro node inside child among
    have ascending : (root.postorder.map Tree.serial).Pairwise (· < ·) := by
      rw [numbers]
      exact List.pairwise_lt_range
    have here := ascending.sublist ((Tree.postorder_infix inside).sublist.map Tree.serial)
    rw [node.postorder_eq, List.map_append, List.pairwise_append] at here
    have earlier : child ∈ node.children.flatMap Tree.postorder := by
      refine List.mem_flatMap.mpr ⟨child, among, ?_⟩
      rw [child.postorder_eq]
      exact List.mem_append_right _ List.mem_cons_self
    exact here.2.2 _ (List.mem_map_of_mem earlier) _ List.mem_cons_self

end ParseTree

end Lookahead
