import Lookahead.Proofs.Extents

/-!
Trees over a range of offsets.  The children of a node stand one after another over its span, so
every node lies within the span of the root and the literals spell out the text that it covers.
-/

namespace Lookahead

def Tiles : Nat → Nat → List Tree → Prop
  | start, stop, [] => start = stop
  | start, stop, tree :: rest => tree.span.start = start ∧ Tiles tree.span.stop stop rest

theorem tiles_append {start stop : Nat} {left right : List Tree} :
    Tiles start stop (left ++ right) ↔
      ∃ middle, Tiles start middle left ∧ Tiles middle stop right := by
  induction left generalizing start with
  | nil =>
      constructor
      · intro tiles
        exact ⟨start, rfl, tiles⟩
      · rintro ⟨middle, rfl, tiles⟩
        exact tiles
  | cons tree rest ih =>
      constructor
      · rintro ⟨starts, tiles⟩
        obtain ⟨middle, one, two⟩ := ih.mp tiles
        exact ⟨middle, ⟨starts, one⟩, two⟩
      · rintro ⟨middle, ⟨starts, one⟩, two⟩
        exact ⟨starts, ih.mpr ⟨middle, one, two⟩⟩

theorem tiles_within {start stop : Nat} {trees : List Tree} (tiles : Tiles start stop trees)
    (each : ∀ tree ∈ trees, Within tree.span.start tree.span.stop [tree]) :
    start ≤ stop ∧ Within start stop trees := by
  induction trees generalizing start with
  | nil =>
      obtain rfl : start = stop := tiles
      exact ⟨Nat.le_refl start, Within.nil⟩
  | cons tree rest ih =>
      obtain ⟨rfl, later⟩ := tiles
      obtain ⟨ordered, restWithin⟩ :=
        ih later fun other member => each other (List.mem_cons_of_mem _ member)
      have here := each tree List.mem_cons_self
      obtain ⟨_, proper, _⟩ := here tree List.mem_cons_self tree tree.mem_nodes_self
      refine ⟨by omega, ?_⟩
      exact (here.widen (Nat.le_refl _) ordered).append (restWithin.widen proper (Nat.le_refl _))

namespace Tree

/-- A leaf is a literal or covers nothing; the children of any other node stand one after another
over its span. -/
inductive Tiled : Tree → Prop
  | leaf {serial kind start stop} : start ≤ stop → kind = .literal ∨ start = stop →
      Tiled (.node serial kind ⟨start, stop⟩ [])
  | inner {serial kind start stop children} : children ≠ [] → Tiles start stop children →
      (∀ child ∈ children, Tiled child) → Tiled (.node serial kind ⟨start, stop⟩ children)

theorem Tiled.within {tree : Tree} (tiled : tree.Tiled) :
    Within tree.span.start tree.span.stop [tree] := by
  induction tiled with
  | leaf ordered _ => exact .node (Nat.le_refl _) ordered (Nat.le_refl _) .nil
  | inner _ tiles _ ih =>
      obtain ⟨ordered, below⟩ := tiles_within tiles ih
      exact .node (Nat.le_refl _) ordered (Nat.le_refl _) below

theorem Tiled.of_mem_nodes {tree node : Tree} (tiled : tree.Tiled) (inside : node ∈ tree.nodes) :
    node.Tiled := by
  induction tiled with
  | leaf ordered either =>
      rw [nodes_eq, List.mem_cons] at inside
      rcases inside with rfl | below
      · exact .leaf ordered either
      · simp [children] at below
  | inner nonempty tiles each ih =>
      rw [nodes_eq, List.mem_cons] at inside
      rcases inside with rfl | below
      · exact .inner nonempty tiles each
      · obtain ⟨child, among, inside⟩ := List.mem_flatMap.mp below
        exact ih child among inside

theorem Tiled.tiles {tree : Tree} (tiled : tree.Tiled) (nonempty : tree.children ≠ []) :
    Tiles tree.span.start tree.span.stop tree.children := by
  cases tiled with
  | leaf => exact absurd rfl nonempty
  | inner _ tiles _ => exact tiles

/-! ### Literals -/

theorem leaves_eq (tree : Tree) :
    tree.leaves = if tree.isLeaf then [tree] else tree.children.flatMap leaves := by
  have same : leaves =
      collected (fun node => if node.isLeaf then [node] else []) (fun _ => true) := by
    funext node
    simp only [leaves, collected]
    congr 2
    funext found node
    by_cases leaf : node.isLeaf = true
    · simp [collect, leaf]
    · simp [collect, leaf]
  rw [same, collected_eq]
  by_cases leaf : tree.isLeaf = true
  · have vacant : tree.children = [] := List.isEmpty_iff.mp leaf
    simp [leaf, vacant]
  · simp [leaf]

def literals (tree : Tree) : List Tree :=
  tree.leaves.filter fun leaf => leaf.kind = .literal

def spelling (input : Array UInt8) (trees : List Tree) : Option (List UInt8) :=
  ((trees.flatMap literals).mapM fun literal : Tree => literal.text? input).map List.flatten

theorem literals_leaf (serial : Nat) (kind : NodeKind) (span : Span) :
    (node serial kind span []).literals =
      if kind = .literal then [node serial kind span []] else [] := by
  rw [literals, leaves_eq, isLeaf, Tree.children, List.isEmpty_nil, if_pos rfl]
  by_cases literal : kind = .literal
  · simp [literal, Tree.kind]
  · simp [literal, Tree.kind]

theorem literals_inner {serial : Nat} {kind : NodeKind} {span : Span} {children : List Tree}
    (nonempty : children ≠ []) :
    (node serial kind span children).literals = children.flatMap literals := by
  have solid : (node serial kind span children).isLeaf = false := by
    simpa [isLeaf, Tree.children] using nonempty
  rw [literals, leaves_eq, solid, if_neg Bool.false_ne_true]
  exact List.filter_flatMap

theorem spelling_cons {input : Array UInt8} {tree : Tree} {rest : List Tree}
    {left right : List UInt8} (here : spelling input [tree] = some left)
    (later : spelling input rest = some right) :
    spelling input (tree :: rest) = some (left ++ right) := by
  simp only [spelling, List.flatMap_singleton, Option.map_eq_some_iff] at here later
  obtain ⟨texts, found, rfl⟩ := here
  obtain ⟨others, othersFound, rfl⟩ := later
  simp [spelling, found, othersFound]

end Tree

theorem Span.exists_text? {start stop : Nat} {input : Array UInt8} (ordered : start ≤ stop)
    (inside : stop ≤ input.size) : ∃ text, (Span.mk start stop).text? input = some text := by
  exact ⟨_, if_pos ⟨ordered, inside⟩⟩

theorem Span.text?_self {offset : Nat} {input : Array UInt8} (inside : offset ≤ input.size) :
    (Span.mk offset offset).text? input = some [] := by
  simp [Span.text?, inside]

theorem Span.text?_join {start middle stop : Nat} {input : Array UInt8}
    {left right : List UInt8} (one : (Span.mk start middle).text? input = some left)
    (two : (Span.mk middle stop).text? input = some right) :
    (Span.mk start stop).text? input = some (left ++ right) := by
  simp only [Span.text?, Option.ite_none_right_eq_some, Option.some.injEq] at one two ⊢
  obtain ⟨⟨first, _⟩, rfl⟩ := one
  obtain ⟨⟨second, inside⟩, rfl⟩ := two
  refine ⟨⟨by omega, inside⟩, ?_⟩
  rw [← Array.toList_append, Array.extract_append_extract, Nat.min_eq_left first,
    Nat.max_eq_right second]

namespace Tree

theorem spelling_of_tiles {input : Array UInt8} {start stop : Nat} {trees : List Tree}
    (tiles : Tiles start stop trees) (inside : stop ≤ input.size)
    (tiled : ∀ tree ∈ trees, tree.Tiled)
    (each : ∀ tree ∈ trees, tree.span.stop ≤ input.size →
      spelling input [tree] = tree.text? input) :
    spelling input trees = (Span.mk start stop).text? input := by
  induction trees generalizing start with
  | nil =>
      obtain rfl : start = stop := tiles
      rw [Span.text?_self inside]
      rfl
  | cons tree rest ih =>
      obtain ⟨rfl, later⟩ := tiles
      obtain ⟨here, others⟩ := List.forall_mem_cons.mp tiled
      obtain ⟨spelled, othersSpelled⟩ := List.forall_mem_cons.mp each
      have ordered := (tiles_within later fun other member => (others other member).within).1
      obtain ⟨_, proper, _⟩ := here.within tree List.mem_cons_self tree tree.mem_nodes_self
      have early : tree.span.stop ≤ input.size := by omega
      obtain ⟨left, leftIs⟩ := Span.exists_text? proper early
      obtain ⟨right, rightIs⟩ := Span.exists_text? ordered inside
      rw [Span.text?_join leftIs rightIs]
      apply spelling_cons
      · rw [spelled early, ← leftIs]
        rfl
      · rw [ih later others othersSpelled, rightIs]

theorem Tiled.spelling_eq {input : Array UInt8} {tree : Tree} (tiled : tree.Tiled)
    (inside : tree.span.stop ≤ input.size) : spelling input [tree] = tree.text? input := by
  induction tiled with
  | @leaf serial kind start stop ordered either =>
      rw [spelling, List.flatMap_singleton, literals_leaf]
      by_cases literal : kind = .literal
      · obtain ⟨text, found⟩ := Span.exists_text? ordered inside
        have here : (node serial kind ⟨start, stop⟩ []).text? input = some text := found
        rw [if_pos literal]
        simp [here]
      · obtain rfl := either.resolve_left literal
        have vacant : (node serial kind ⟨start, start⟩ []).text? input = some [] :=
          Span.text?_self inside
        simp [literal, vacant]
  | inner nonempty tiles each ih =>
      have below := spelling_of_tiles tiles inside each ih
      rw [spelling] at below
      rw [spelling, List.flatMap_singleton, literals_inner nonempty, below]
      rfl

end Tree

end Lookahead
