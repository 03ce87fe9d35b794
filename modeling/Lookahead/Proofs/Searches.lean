import Lookahead.Proofs.Preorder

/-!
Searches in a tree.  The outermost nodes that a condition accepts are the accepted ones with no
accepted node above them, in the order of a walk; and the first node of a kind is the first that
a walk comes to.
-/

namespace Lookahead

theorem findSome?_congr {α β : Type} {items : List α} {left right : α → Option β}
    (same : ∀ item ∈ items, left item = right item) :
    items.findSome? left = items.findSome? right := by
  induction items with
  | nil => rfl
  | cons item rest ih =>
      obtain ⟨here, later⟩ := List.forall_mem_cons.mp same
      rw [List.findSome?_cons, List.findSome?_cons, here, ih later]

namespace Tree

/-! ### What is below a node -/

def IsBelow (node ancestor : Tree) : Prop :=
  node ∈ ancestor.children.flatMap nodes

theorem mem_nodes_iff {tree node : Tree} : node ∈ tree.nodes ↔ node = tree ∨ node.IsBelow tree := by
  rw [nodes_eq, List.mem_cons, IsBelow]

theorem size_le_of_mem_nodes {tree node : Tree} (inside : node ∈ tree.nodes) :
    node.size ≤ tree.size := by
  induction tree using induction_children with
  | inherits tree ih =>
      rcases mem_nodes_iff.mp inside with rfl | below
      · exact Nat.le_refl _
      · obtain ⟨child, among, inside⟩ := List.mem_flatMap.mp below
        have within := ih child among inside
        have smaller := size_lt_of_mem_children among
        omega

theorem IsBelow.size_lt {node ancestor : Tree} (below : node.IsBelow ancestor) :
    node.size < ancestor.size := by
  obtain ⟨child, among, inside⟩ := List.mem_flatMap.mp below
  have within := size_le_of_mem_nodes inside
  have smaller := size_lt_of_mem_children among
  omega

theorem eq_of_mem_children {tree : Tree} (distinct : tree.nodes.Nodup) {left right node : Tree}
    (leftAmong : left ∈ tree.children) (rightAmong : right ∈ tree.children)
    (inLeft : node ∈ left.nodes) (inRight : node ∈ right.nodes) : left = right := by
  rw [nodes_eq, List.nodup_cons, List.nodup_flatMap] at distinct
  have symmetric : Std.Symm (Function.onFun List.Disjoint nodes) :=
    ⟨fun _ _ apart => List.disjoint_comm.mp apart⟩
  by_contra different
  exact distinct.2.2.forall leftAmong rightAmong different inLeft inRight

theorem nodup_nodes_of_mem_children {tree child : Tree} (distinct : tree.nodes.Nodup)
    (among : child ∈ tree.children) : child.nodes.Nodup :=
  distinct.sublist (nodes_sublist (mem_nodes_of_mem_children among))

theorem preorders_nodes (stack : List Tree) :
    (preorders (fun (_ : Unit) _ => ((), true)) stack ()).1 = stack.flatMap nodes := by
  generalize stateIs : () = state
  induction stack, state using stack_induction (fun (_ : Unit) _ => ((), true)) with
  | done state => simp [preorders]
  | next tree rest state ih =>
      rw [preorders_cons, List.flatMap_cons, nodes_eq, List.cons_append]
      simpa using ih rfl

/-! ### The outermost nodes -/

def IsOutermost (accepts : NodeKind → Bool) (tree node : Tree) : Prop :=
  node ∈ tree.nodes ∧ accepts node.kind = true ∧
    ∀ ancestor ∈ tree.nodes, node.IsBelow ancestor → accepts ancestor.kind = false

section Outermost

variable (accepts : NodeKind → Bool)

theorem isOutermost_of_accepted {tree : Tree} (taken : accepts tree.kind = true) {node : Tree} :
    tree.IsOutermost accepts node ↔ node = tree := by
  constructor
  · rintro ⟨inside, _, free⟩
    rcases mem_nodes_iff.mp inside with same | below
    · exact same
    · have refused := free tree tree.mem_nodes_self below
      simp [taken] at refused
  · rintro rfl
    refine ⟨node.mem_nodes_self, taken, ?_⟩
    intro ancestor inside below
    have smaller := below.size_lt
    have within := size_le_of_mem_nodes inside
    omega

theorem isOutermost_of_refused {tree : Tree} (refused : accepts tree.kind = false)
    (distinct : tree.nodes.Nodup) {node : Tree} :
    tree.IsOutermost accepts node ↔ ∃ child ∈ tree.children, child.IsOutermost accepts node := by
  constructor
  · rintro ⟨inside, taken, free⟩
    rcases mem_nodes_iff.mp inside with rfl | below
    · simp [refused] at taken
    · obtain ⟨child, among, inside⟩ := List.mem_flatMap.mp below
      refine ⟨child, among, inside, taken, ?_⟩
      intro ancestor within
      exact free ancestor ((nodes_sublist (mem_nodes_of_mem_children among)).subset within)
  · rintro ⟨child, among, inside, taken, free⟩
    refine ⟨(nodes_sublist (mem_nodes_of_mem_children among)).subset inside, taken, ?_⟩
    intro ancestor within below
    rcases mem_nodes_iff.mp within with rfl | deeper
    · exact refused
    · obtain ⟨other, otherAmong, within⟩ := List.mem_flatMap.mp deeper
      -- Both the node and its ancestor are below one child.
      have inOther : node ∈ other.nodes := (nodes_sublist within).subset
        (mem_nodes_iff.mpr (Or.inr below))
      obtain rfl := eq_of_mem_children distinct among otherAmong inside inOther
      exact free ancestor within below

theorem mem_outermost_iff {tree : Tree} (distinct : tree.nodes.Nodup) {node : Tree} :
    node ∈ tree.outermost accepts ↔ tree.IsOutermost accepts node := by
  induction tree using induction_children with
  | inherits tree ih =>
      rw [outermost_eq]
      by_cases taken : accepts tree.kind = true
      · rw [if_pos taken, List.mem_singleton, isOutermost_of_accepted accepts taken]
      · have refused : accepts tree.kind = false := by simpa using taken
        rw [if_neg taken, List.mem_flatMap, isOutermost_of_refused accepts refused distinct]
        refine exists_congr fun child => and_congr_right fun among => ?_
        exact ih child among (nodup_nodes_of_mem_children distinct among)

theorem outermost_sublist (tree : Tree) : (tree.outermost accepts).Sublist tree.nodes := by
  induction tree using induction_children with
  | inherits tree ih =>
      rw [outermost_eq, nodes_eq]
      by_cases taken : accepts tree.kind = true
      · rw [if_pos taken]
        exact (List.nil_sublist _).cons_cons tree
      · rw [if_neg taken]
        exact (List.Sublist.flatMap_right tree.children ih).cons tree

theorem head?_outermost (tree : Tree) :
    (tree.outermost accepts).head? = tree.nodes.find? fun node => accepts node.kind := by
  induction tree using induction_children with
  | inherits tree ih =>
      rw [outermost_eq, nodes_eq]
      by_cases taken : accepts tree.kind = true
      · simp [taken]
      · rw [if_neg taken, List.find?_cons_of_neg (by simpa using taken), List.head?_flatMap,
          List.find?_flatMap]
        exact findSome?_congr ih

end Outermost

theorem firstOfKind?_eq_find? (kind : NodeKind) (tree : Tree) :
    tree.firstOfKind? kind = tree.nodes.find? fun node => node.kind == kind := by
  rw [firstOfKind?_eq_head?, head?_outermost]

def takeOutermost (accepts : NodeKind → Bool) (found : List Tree) (node : Tree) :
    List Tree × Bool :=
  if accepts node.kind then (node :: found, false) else (found, true)

theorem walk_takeOutermost (accepts : NodeKind → Bool) (tree : Tree) :
    tree.walk (takeOutermost accepts) [] = (tree.outermost accepts).reverse := by
  rw [outermost, List.reverse_reverse]
  rfl

end Tree

namespace ParseTree

theorem Numbered.walkNumbers?_eq_walk {σ : Type} {tree : ParseTree} (numbered : tree.Numbered)
    {start : Tree} (inside : start ∈ tree.root.nodes) (visit : σ → Tree → σ × Bool) (state : σ)
    {turns : Nat} (enough : start.nodes.length ≤ turns) :
    tree.walkNumbers? visit turns [start.serial] state = some (start.walk visit state) := by
  have alone : ∀ node ∈ [start], node ∈ tree.root.nodes := by
    intro node among
    rwa [List.mem_singleton.mp among]
  have walked := numbered.walkNumbers?_eq visit turns alone state
  have visits := (Tree.preorders_sublist visit [start] state).length_le
  rw [List.flatMap_singleton] at visits
  rw [List.map_singleton, if_pos (visits.trans enough)] at walked
  rw [walked, Tree.walk, Tree.walkStack_eq]

end ParseTree

namespace Machine

/-- In a tree that a parse returns, the outermost accepted nodes from any start are those nodes of
its subtree that are accepted and have no accepted node above them there, each once and in the
order of the walk; and the first node of a kind is the first one in this order, if there is one.
Walks over the numbers of the nodes find the same. -/
theorem searches_are_exact (machine : Machine) {tree : ParseTree}
    (parsed : machine.parse = some (.ok tree)) {start : Tree} (inside : start ∈ tree.root.nodes) :
    (Tree.preorder (fun (_ : Unit) _ => ((), true)) start ()).1 = start.nodes ∧
    (∀ accepts : NodeKind → Bool,
      (∀ node, node ∈ start.outermost accepts ↔ node ∈ start.nodes ∧ accepts node.kind = true ∧
        ∀ ancestor ∈ start.nodes, node.IsBelow ancestor → accepts ancestor.kind = false) ∧
      (start.outermost accepts).Sublist start.nodes ∧
      ((start.outermost accepts).map Tree.serial).Nodup ∧
      ∀ turns, start.nodes.length ≤ turns →
        tree.walkNumbers? (Tree.takeOutermost accepts) turns [start.serial] [] =
          some (start.outermost accepts).reverse) ∧
    ∀ kind : NodeKind,
      start.firstOfKind? kind = start.nodes.find? (fun node => node.kind == kind) ∧
      (start.firstOfKind? kind = none ↔ ∀ node ∈ start.nodes, node.kind ≠ kind) ∧
      ∀ turns, start.nodes.length ≤ turns →
        tree.walkNumbers? (Tree.takeFirst kind) turns [start.serial] none =
          some (start.firstOfKind? kind) := by
  obtain ⟨numbered, _⟩ := numbered_and_tiled_of_parse parsed
  have serials : (start.nodes.map Tree.serial).Nodup :=
    numbered.nodup.sublist ((Tree.nodes_sublist inside).map Tree.serial)
  refine ⟨?_, ?_, ?_⟩
  · rw [← Tree.preorders_singleton, Tree.preorders_nodes, List.flatMap_singleton]
  · intro accepts
    have sublist := Tree.outermost_sublist accepts start
    refine ⟨?_, sublist, serials.sublist (sublist.map Tree.serial), ?_⟩
    · intro node
      exact Tree.mem_outermost_iff accepts (List.Nodup.of_map _ serials)
    · intro turns enough
      rw [numbered.walkNumbers?_eq_walk inside _ _ enough, Tree.walk_takeOutermost]
  · intro kind
    refine ⟨Tree.firstOfKind?_eq_find? kind start, ?_, ?_⟩
    · rw [Tree.firstOfKind?_eq_find?, List.find?_eq_none]
      simp
    · intro turns enough
      rw [numbered.walkNumbers?_eq_walk inside _ _ enough]
      rfl

def nestedTable : Table :=
  ⟨#[some (.uniform [.invoke (.rule 1)]),
    some ⟨#[[.matchLiteral [97], .invoke (.rule 1)], []],
      (Vector.replicate 256 (some 1)).set 97 (some 0)⟩]⟩

theorem nestedTable_searches :
    ∃ tree outer inner, Machine.parse ⟨nestedTable, .empty, #[97, 97]⟩ = some (.ok tree) ∧
      outer.kind = .rule 1 ∧ inner.kind = .rule 1 ∧ inner.IsBelow outer ∧
      outer ∈ tree.root.outermost (· == .rule 1) ∧ inner ∉ tree.root.outermost (· == .rule 1) ∧
      tree.root.firstOfKind? (.rule 1) = some outer ∧
      tree.root.firstOfKind? .endOfLine = none := by
  let inner : Tree := .node 4 (.rule 1) ⟨1, 2⟩ [.node 1 .literal ⟨1, 2⟩ [],
    .node 3 (.rule 1) ⟨2, 2⟩ [.node 2 .nothing ⟨2, 2⟩ []]]
  let outer : Tree := .node 5 (.rule 1) ⟨0, 2⟩ [.node 0 .literal ⟨0, 1⟩ [], inner]
  let root : Tree := .node 6 (.rule 0) ⟨0, 2⟩ [outer]
  have parsed : Machine.parse ⟨nestedTable, .empty, #[97, 97]⟩ = some (.ok ⟨root, 7⟩) := by
    rw [parse_eq_run _ rfl (by decide)]
    exact (run_eq_some_iff .refl).mpr ⟨16, rfl⟩
  have nodes : root.nodes = root :: outer.nodes := by
    rw [root.nodes_eq]
    simp [root, Tree.children]
  have below : inner.IsBelow outer := by
    have among : inner ∈ outer.children := List.mem_cons_of_mem _ List.mem_cons_self
    exact List.mem_flatMap.mpr ⟨inner, among, inner.mem_nodes_self⟩
  have outerInside : outer ∈ root.nodes := by simp [nodes, outer.mem_nodes_self]
  obtain ⟨_, outermost, first⟩ := searches_are_exact _ parsed (Tree.mem_nodes_self _)
  obtain ⟨member, _⟩ := outermost (· == .rule 1)
  refine ⟨_, outer, inner, parsed, rfl, rfl, below, ?_, ?_, ?_, ?_⟩
  · refine (member outer).mpr ⟨outerInside, rfl, ?_⟩
    intro ancestor inside above
    rw [nodes] at inside
    rcases List.mem_cons.mp inside with rfl | deeper
    · rfl
    · have larger := above.size_lt
      have within := Tree.size_le_of_mem_nodes deeper
      omega
  · intro found
    have free := ((member inner).mp found).2.2 outer outerInside below
    simp [outer, Tree.kind] at free
  · rw [(first (.rule 1)).1, nodes, outer.nodes_eq]
    rfl
  · rw [(first .endOfLine).2.1, nodes, outer.nodes_eq]
    simp [root, outer, inner, Tree.children, Tree.nodes_eq, Tree.kind]

end Machine

end Lookahead
