import Lookahead.Proofs.TreeStructure
import Mathlib.Data.List.Nodup

/-!
Walks as recursions.  A walk visits a node, then what is below its children in turn, and nothing
below a node that the visitor declines; what the visitor answers may depend on all the visits
before.  Where the numbers of the nodes are told apart, a walk over numbers does the same and ends
after one turn for each visit.
-/

namespace Lookahead

namespace Tree

variable {σ : Type}

mutual

/-- The nodes that a recursion over a tree visits, with the state that the visitor is left in. -/
def preorder (visit : σ → Tree → σ × Bool) : Tree → σ → List Tree × σ
  | node serial kind span children, state =>
    let visited := visit state (node serial kind span children)
    if visited.2 then
      let below := preorders visit children visited.1
      (node serial kind span children :: below.1, below.2)
    else ([node serial kind span children], visited.1)

def preorders (visit : σ → Tree → σ × Bool) : List Tree → σ → List Tree × σ
  | [], state => ([], state)
  | tree :: rest, state =>
    let here := preorder visit tree state
    let later := preorders visit rest here.2
    (here.1 ++ later.1, later.2)

end

section Visits

variable (visit : σ → Tree → σ × Bool)

theorem preorders_singleton (tree : Tree) (state : σ) :
    preorders visit [tree] state = preorder visit tree state := by
  simp [preorders]

theorem preorders_append (left right : List Tree) (state : σ) :
    preorders visit (left ++ right) state =
      ((preorders visit left state).1 ++ (preorders visit right (preorders visit left state).2).1,
        (preorders visit right (preorders visit left state).2).2) := by
  induction left generalizing state with
  | nil => simp [preorders]
  | cons tree rest ih => simp [preorders, ih]

theorem preorders_cons (tree : Tree) (rest : List Tree) (state : σ) :
    preorders visit (tree :: rest) state =
      (tree :: (preorders visit ((if (visit state tree).2 then tree.children else []) ++ rest)
          (visit state tree).1).1,
        (preorders visit ((if (visit state tree).2 then tree.children else []) ++ rest)
          (visit state tree).1).2) := by
  obtain ⟨serial, kind, span, children⟩ := tree
  rw [preorders, preorder, Tree.children]
  by_cases descends : (visit state (node serial kind span children)).2 = true
  · simp [descends, preorders_append]
  · simp [descends]

/-- Induction along a walk: from the stack that a visit leaves to the one before the visit. -/
theorem stack_induction {holds : List Tree → σ → Prop} (done : ∀ state, holds [] state)
    (next : ∀ tree rest state,
      holds ((if (visit state tree).2 then tree.children else []) ++ rest) (visit state tree).1 →
        holds (tree :: rest) state)
    (stack : List Tree) (state : σ) : holds stack state := by
  fun_induction walkStack visit stack state with
  | case1 state => exact done state
  | case2 tree rest state visited ih => exact next tree rest state ih

theorem walkStack_eq (stack : List Tree) (state : σ) :
    walkStack visit stack state = (preorders visit stack state).2 := by
  induction stack, state using stack_induction visit with
  | done state => simp [walkStack, preorders]
  | next tree rest state ih => rw [walkStack, preorders_cons, ih]

def recording (entry : σ × List Tree) (node : Tree) : (σ × List Tree) × Bool :=
  (((visit entry.1 node).1, node :: entry.2), (visit entry.1 node).2)

/-- Recording changes no visit: the record is the visits, and the rest of the state is as before. -/
theorem preorders_recording (stack : List Tree) (state : σ) (found : List Tree) :
    preorders (recording visit) stack (state, found) =
      ((preorders visit stack state).1, (preorders visit stack state).2,
        (preorders visit stack state).1.reverse ++ found) := by
  induction stack, state using stack_induction visit generalizing found with
  | done state => simp [preorders]
  | next tree rest state ih =>
      have later : preorders (recording visit)
          ((if (recording visit (state, found) tree).2 then tree.children else []) ++ rest)
          (recording visit (state, found) tree).1 = _ := ih (tree :: found)
      rw [preorders_cons, preorders_cons, later]
      simp

theorem preorders_sublist (stack : List Tree) (state : σ) :
    (preorders visit stack state).1.Sublist (stack.flatMap nodes) := by
  induction stack, state using stack_induction visit with
  | done state => simp [preorders]
  | next tree rest state ih =>
      rw [preorders_cons, List.flatMap_cons, nodes_eq, List.cons_append]
      refine List.Sublist.cons_cons tree (ih.trans ?_)
      rw [List.flatMap_append]
      refine List.Sublist.append ?_ (List.Sublist.refl _)
      split
      · exact List.Sublist.refl _
      · exact List.nil_sublist _

end Visits

theorem mem_nodes_of_mem_children {tree child : Tree} (among : child ∈ tree.children) :
    child ∈ tree.nodes := by
  rw [tree.nodes_eq]
  exact List.mem_cons_of_mem tree (List.mem_flatMap.mpr ⟨child, among, child.mem_nodes_self⟩)

theorem nodes_sublist {tree node : Tree} (inside : node ∈ tree.nodes) :
    node.nodes.Sublist tree.nodes := by
  induction tree using induction_children with
  | inherits tree ih =>
      rw [nodes_eq, List.mem_cons] at inside
      rcases inside with rfl | below
      · exact List.Sublist.refl _
      · obtain ⟨child, among, inside⟩ := List.mem_flatMap.mp below
        obtain ⟨before, after, same⟩ := List.append_of_mem among
        rw [tree.nodes_eq, same, List.flatMap_append, List.flatMap_cons]
        refine ((ih child among inside).trans ?_).cons tree
        exact (List.sublist_append_left _ _).trans (List.sublist_append_right _ _)

/-! ### Leaves -/

theorem leaves_eq_filter (tree : Tree) : tree.leaves = tree.nodes.filter isLeaf := by
  induction tree using induction_children with
  | inherits tree ih =>
      rw [leaves_eq, nodes_eq]
      by_cases leaf : tree.isLeaf = true
      · have vacant : tree.children = [] := List.isEmpty_iff.mp leaf
        simp [leaf, vacant]
      · rw [if_neg leaf, List.filter_cons_of_neg leaf, List.filter_flatMap]
        exact List.flatMap_congr ih

def Ordered (leaves : List Tree) : Prop :=
  leaves.Pairwise fun left right => left.span.stop ≤ right.span.start

theorem ordered_of_tiles {start stop : Nat} {trees : List Tree} (tiles : Tiles start stop trees)
    (tiled : ∀ tree ∈ trees, tree.Tiled) (each : ∀ tree ∈ trees, Ordered tree.leaves) :
    Ordered (trees.flatMap leaves) := by
  induction trees generalizing start with
  | nil => exact List.Pairwise.nil
  | cons tree rest ih =>
      obtain ⟨rfl, later⟩ := tiles
      obtain ⟨here, others⟩ := List.forall_mem_cons.mp tiled
      obtain ⟨ordered, othersOrdered⟩ := List.forall_mem_cons.mp each
      rw [List.flatMap_cons, Ordered, List.pairwise_append]
      refine ⟨ordered, ih later others othersOrdered, ?_⟩
      intro left leftLeaf right rightLeaf
      obtain ⟨other, among, rightLeaf⟩ := List.mem_flatMap.mp rightLeaf
      rw [leaves_eq_filter, List.mem_filter] at leftLeaf rightLeaf
      -- What is between them is where the tree of the left one stops.
      have ends := (here.within tree List.mem_cons_self left leftLeaf.1).2.2
      have within := (tiles_within later fun tree member => (others tree member).within).2
      exact ends.trans (within other among right rightLeaf.1).1

theorem Tiled.ordered_leaves {tree : Tree} (tiled : tree.Tiled) : Ordered tree.leaves := by
  induction tiled with
  | leaf =>
      simp [leaves_eq, isLeaf, Tree.children, Ordered]
  | inner nonempty tiles each ih =>
      rw [leaves_eq, if_neg (by simpa [isLeaf, Tree.children] using nonempty)]
      exact ordered_of_tiles tiles each ih

theorem Tiled.starts_sorted {tree : Tree} (tiled : tree.Tiled) :
    tree.leaves.Pairwise fun left right => left.span.start ≤ right.span.start := by
  refine tiled.ordered_leaves.imp_of_mem ?_
  intro left right leftLeaf _ apart
  rw [leaves_eq_filter, List.mem_filter] at leftLeaf
  have proper := (tiled.within tree List.mem_cons_self left leftLeaf.1).2.1
  exact proper.trans apart

end Tree

namespace ParseTree

variable {σ : Type} {tree : ParseTree}

theorem Numbered.nodup (numbered : tree.Numbered) : (tree.root.nodes.map Tree.serial).Nodup := by
  rw [(tree.root.nodes_perm_postorder.map Tree.serial).nodup_iff, numbered.postorder]
  exact List.nodup_range

theorem Numbered.node?_serial (numbered : tree.Numbered) {node : Tree}
    (inside : node ∈ tree.root.nodes) : tree.node? node.serial = some node := by
  cases found : tree.node? node.serial with
  | none =>
      rw [node?, List.find?_eq_none] at found
      exact absurd (beq_self_eq_true node.serial) (found node inside)
  | some other =>
      rw [node?] at found
      have member := List.mem_of_find?_eq_some found
      have same : other.serial = node.serial := by simpa using List.find?_some found
      rw [List.inj_on_of_nodup_map numbered.nodup member inside same]

/-- A walk over the numbers of nodes.  In each turn the number on top of the stack is looked up,
and those of the children take its place if the visitor goes below the node.  There is no result
if the turns run out or a number belongs to no node. -/
def walkNumbers? (tree : ParseTree) (visit : σ → Tree → σ × Bool) :
    Nat → List Nat → σ → Option σ
  | _, [], state => some state
  | 0, _ :: _, _ => none
  | turns + 1, serial :: rest, state =>
    match tree.node? serial with
    | none => none
    | some node =>
      let visited := visit state node
      let below := if visited.2 then node.children.map Tree.serial else []
      tree.walkNumbers? visit turns (below ++ rest) visited.1

theorem Numbered.walkNumbers?_eq (numbered : tree.Numbered) (visit : σ → Tree → σ × Bool)
    (turns : Nat) {stack : List Tree} (inside : ∀ node ∈ stack, node ∈ tree.root.nodes)
    (state : σ) :
    tree.walkNumbers? visit turns (stack.map Tree.serial) state =
      if (Tree.preorders visit stack state).1.length ≤ turns then
        some (Tree.preorders visit stack state).2
      else none := by
  -- Each turn takes the first visit off those of the stack.
  induction turns generalizing stack state with
  | zero =>
      cases stack with
      | nil => simp [walkNumbers?, Tree.preorders]
      | cons node rest => simp [walkNumbers?, Tree.preorders_cons]
  | succ turns ih =>
      cases stack with
      | nil => simp [walkNumbers?, Tree.preorders]
      | cons node rest =>
          obtain ⟨here, others⟩ := List.forall_mem_cons.mp inside
          have below : ∀ child ∈ (if (visit state node).2 then node.children else []) ++ rest,
              child ∈ tree.root.nodes := by
            intro child member
            rcases List.mem_append.mp member with new | old
            · have among : child ∈ node.children := by
                split at new
                · exact new
                · simp at new
              exact (Tree.nodes_sublist here).subset (Tree.mem_nodes_of_mem_children among)
            · exact others child old
          rw [List.map_cons, walkNumbers?, numbered.node?_serial here, Tree.preorders_cons]
          simpa [apply_ite (List.map Tree.serial)] using ih below (visit state node).1

end ParseTree

namespace Machine

variable {machine : Machine} {tree : ParseTree}

theorem numbered_and_tiled_of_parse (parsed : machine.parse = some (.ok tree)) :
    tree.Numbered ∧ tree.root.Tiled := by
  obtain ⟨_, last, steps, stopped⟩ := exists_steps_of_parse parsed
  have coherent := steps.coherent coherent_initial
  cases stops_of_step stopped with
  | @accepted offset below root made ends =>
      constructor
      · apply ParseTree.numbered_of_postorder
        simpa [completedTrees, Production.tree?] using coherent.numbered
      · have covers : Covers offset [.tree root] := coherent.covers
        generalize root.span.start = start at covers
        cases covers with
        | tree tiled _ => exact tiled

/-- Whatever the table, the nodes of the tree that a parse returns have the numbers below its count
of nodes, each once.  A walk from any of them makes the visits of the recursion, with any visitor,
and none of them twice; without a node that the visitor declines it lists all that are below.  Over
the numbers of the nodes it takes as many turns as there are visits.  The leaves are the nodes
without children, each once and in the order of their starts. -/
theorem parse_walks_in_preorder (machine : Machine) {tree : ParseTree}
    (parsed : machine.parse = some (.ok tree)) :
    (tree.root.nodes.map Tree.serial).Perm (List.range tree.nodeCount) ∧
      (∀ start ∈ tree.root.nodes, (start.visited fun _ => true) = start.nodes) ∧
      (∀ start ∈ tree.root.nodes, ∀ {σ : Type} (visit : σ → Tree → σ × Bool) (state : σ),
        ∃ visits final, Tree.preorder visit start state = (visits, final) ∧
          start.walk visit state = final ∧
          start.walk (Tree.recording visit) (state, []) = (final, visits.reverse) ∧
          (∀ turns, tree.walkNumbers? (Tree.recording visit) turns [start.serial] (state, []) =
            if visits.length ≤ turns then some (final, visits.reverse) else none) ∧
          visits.Sublist start.nodes ∧ (visits.map Tree.serial).Nodup) ∧
      (∀ node, node ∈ tree.root.leaves ↔ node ∈ tree.root.nodes ∧ node.children = []) ∧
      (tree.root.leaves.map Tree.serial).Nodup ∧
      tree.root.leaves.Pairwise fun left right => left.span.start ≤ right.span.start := by
  obtain ⟨numbered, tiled⟩ := numbered_and_tiled_of_parse parsed
  have numbers := tree.root.nodes_perm_postorder.map Tree.serial
  rw [numbered.postorder] at numbers
  refine ⟨numbers, fun start _ => start.visited_eq_nodes, ?_, ?_, ?_, tiled.starts_sorted⟩
  · intro start inside σ visit state
    have recorded := Tree.preorders_recording visit [start] state []
    have below := Tree.preorders_sublist visit [start] state
    have alone : ∀ node ∈ [start], node ∈ tree.root.nodes := by simpa using inside
    have walked (turns : Nat) :=
      numbered.walkNumbers?_eq (Tree.recording visit) turns alone (state, [])
    simp only [recorded, Tree.preorders_singleton, List.append_nil, List.map_singleton] at walked
    rw [Tree.preorders_singleton, List.flatMap_singleton] at below
    refine ⟨_, _, rfl, ?_, ?_, walked, below, ?_⟩
    · rw [Tree.walk, Tree.walkStack_eq, Tree.preorders_singleton]
    · rw [Tree.walk, Tree.walkStack_eq, recorded, Tree.preorders_singleton, List.append_nil]
    · have fewer := below.trans (Tree.nodes_sublist inside)
      exact numbered.nodup.sublist (fewer.map Tree.serial)
  · intro node
    rw [Tree.leaves_eq_filter, List.mem_filter, Tree.isLeaf, List.isEmpty_iff]
  · rw [Tree.leaves_eq_filter]
    exact numbered.nodup.sublist (List.filter_sublist.map Tree.serial)

def twiceTable : Table :=
  ⟨#[some (.uniform [.invoke (.rule 1), .invoke (.rule 1)]), some (.uniform [.matchLiteral [97]])]⟩

def threeBelow (count : Nat) (_ : Tree) : Nat × Bool :=
  (count + 1, count < 3)

theorem twiceTable_walks_in_preorder :
    ∃ tree, Machine.parse ⟨twiceTable, .empty, #[97, 97]⟩ = some (.ok tree) ∧
      ∃ visits, Tree.preorder threeBelow tree.root 0 = (visits, 4) ∧
        visits.map Tree.serial = [4, 1, 0, 3] ∧
        tree.root.walk (Tree.recording threeBelow) (0, []) = (4, visits.reverse) ∧
        (tree.root.leaves.map Tree.serial).Nodup := by
  have parsed : Machine.parse ⟨twiceTable, .empty, #[97, 97]⟩ =
      some (.ok ⟨.node 4 (.rule 0) ⟨0, 2⟩
        [.node 1 (.rule 1) ⟨0, 1⟩ [.node 0 .literal ⟨0, 1⟩ []],
          .node 3 (.rule 1) ⟨1, 2⟩ [.node 2 .literal ⟨1, 2⟩ []]], 5⟩) := by
    rw [parse_eq_run _ rfl (by decide)]
    exact (run_eq_some_iff .refl).mpr ⟨13, rfl⟩
  obtain ⟨_, _, walks, _, nodup, _⟩ := parse_walks_in_preorder _ parsed
  obtain ⟨visits, final, recursion, _, walked, _⟩ :=
    walks _ (Tree.mem_nodes_self _) threeBelow 0
  obtain ⟨rfl, rfl⟩ := Prod.mk.inj recursion
  exact ⟨_, parsed, _, rfl, rfl, walked, nodup⟩

end Machine

end Lookahead
