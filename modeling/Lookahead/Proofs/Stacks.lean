import Lookahead.Proofs.Execution
import Lookahead.Proofs.Postorder
import Lookahead.Proofs.Tiling

/-!
What the two stacks of the machine have to do with each other, for any table.  The completed things
stand one after another up to the offset, and each reduction finds the things that it collects.
-/

namespace Lookahead

/-- What a reduction collects: the bytes of a literal, or trees from its start up to the offset. -/
inductive Collects : NodeKind → Nat → Nat → List Production → Prop
  | bytes {start} (count : Nat) :
      Collects .literal start (start + count) (List.replicate count .byte)
  | trees {kind start stop trees} : kind ≠ .literal → Tiles start stop trees →
      Collects kind start stop (trees.map .tree)

theorem Collects.eq_add_length {start stop : Nat} {entries : List Production}
    (collects : Collects .literal start stop entries) : stop = start + entries.length := by
  cases collects with
  | bytes count => rw [List.length_replicate]
  | trees inner _ => exact absurd rfl inner

theorem Collects.tiles {kind : NodeKind} (inner : kind ≠ .literal) {start stop : Nat}
    (trees : List Tree) (collects : Collects kind start stop (trees.map .tree)) :
    Tiles start stop trees := by
  generalize same : trees.map Production.tree = entries at collects
  cases collects with
  | bytes => exact absurd rfl inner
  | trees _ tiles =>
      have injective : Function.Injective Production.tree := fun _ _ => Production.tree.inj
      obtain rfl := injective.list_map same
      exact tiles

/-- Whatever tree an operand completes, the reductions below it find what they collect. -/
def Fits : Nat → List Operand → List Production → Prop
  | _, [], _ => False
  | _, .endOfInput :: below, productions => below = [] → ∃ root, productions = [.tree root]
  | offset, .matchByte _ :: below, productions => Fits (offset + 1) below (.byte :: productions)
  | offset, .reduce kind start count :: below, productions =>
      ∃ collected rest, Collects kind start offset collected ∧ collected.length = count ∧
        productions = collected.reverse ++ rest ∧
        ∀ node : Tree, node.span = ⟨start, offset⟩ → Fits offset below (.tree node :: rest)
  | offset, .invoke _ :: below, productions | offset, .matchLiteral _ :: below, productions =>
      ∀ node : Tree, node.span.start = offset →
        Fits node.span.stop below (.tree node :: productions)

theorem Fits.reduced {offset : Nat} {kind : NodeKind} {start : Nat} {below : List Operand}
    (entries rest : List Production)
    (fits : Fits offset (.reduce kind start entries.length :: below) (entries.reverse ++ rest)) :
    Collects kind start offset entries ∧
      ∀ node : Tree, node.span = ⟨start, offset⟩ → Fits offset below (.tree node :: rest) := by
  obtain ⟨collected, others, collects, lengthIs, same, later⟩ := fits
  have lengths : entries.reverse.length = collected.reverse.length := by simp [lengthIs]
  obtain ⟨reversed, rfl⟩ := List.append_inj same lengths
  obtain rfl := List.reverse_injective reversed
  exact ⟨collects, later⟩

theorem fits_operations {kind : NodeKind} (inner : kind ≠ .literal) {start : Nat}
    {below : List Operand} {productions : List Production}
    (fits : ∀ node : Tree, node.span.start = start →
      Fits node.span.stop below (.tree node :: productions))
    (operations : List Operation) {offset : Nat} (before : List Tree)
    (tiles : Tiles start offset before) :
    Fits offset (operations.map Operation.operand ++
        .reduce kind start (before.length + operations.length) :: below)
      ((before.map Production.tree).reverse ++ productions) := by
  -- By induction on the operations still to come: the trees of those before are complete.
  induction operations generalizing offset before with
  | nil =>
      refine ⟨before.map .tree, productions, .trees inner tiles, by simp, rfl, ?_⟩
      intro node spanIs
      have here := fits node (by rw [spanIs])
      rwa [spanIs] at here
  | cons operation rest ih =>
      have next : ∀ node : Tree, node.span.start = offset → Fits node.span.stop
          (rest.map Operation.operand ++
            .reduce kind start (before.length + (operation :: rest).length) :: below)
          (.tree node :: ((before.map Production.tree).reverse ++ productions)) := by
        intro node starts
        have longer := ih (before ++ [node]) (tiles_append.mpr ⟨offset, tiles, starts, rfl⟩)
        have counts : (before ++ [node]).length + rest.length =
            before.length + (operation :: rest).length := by
          simp only [List.length_append, List.length_cons, List.length_nil]
          omega
        rw [counts] at longer
        simpa using longer
      cases operation with
      | invoke callee => exact next
      | matchLiteral bytes => exact next
      | endOfInput =>
          intro vacant
          simp at vacant

theorem fits_bytes (bytes : List UInt8) {offset : Nat} {below : List Operand}
    {productions : List Production}
    (fits : Fits (offset + bytes.length) below
      (List.replicate bytes.length .byte ++ productions)) :
    Fits offset (bytes.map .matchByte ++ below) productions := by
  induction bytes generalizing offset productions with
  | nil => exact fits
  | cons byte rest ih =>
      apply ih
      rw [List.length_cons, List.replicate_succ', List.append_assoc, List.singleton_append,
        Nat.add_comm rest.length 1, ← Nat.add_assoc] at fits
      exact fits

/-- The completed things stand one after another from 0 to the offset, the latest in front. -/
inductive Covers : Nat → List Production → Prop
  | nil : Covers 0 []
  | byte {offset below} : Covers offset below → Covers (offset + 1) (.byte :: below)
  | tree {node : Tree} {below} : node.Tiled → Covers node.span.start below →
      Covers node.span.stop (.tree node :: below)

theorem Covers.of_bytes {offset : Nat} (count : Nat) {below : List Production}
    (covers : Covers (offset + count) (List.replicate count .byte ++ below)) :
    Covers offset below := by
  induction count with
  | zero => exact covers
  | succ count ih =>
      rw [List.replicate_succ, List.cons_append] at covers
      generalize stopIs : offset + (count + 1) = stop at covers
      cases covers with
      | @byte before _ covers =>
          obtain rfl : offset + count = before := by omega
          exact ih covers

theorem Covers.of_trees {offset : Nat} (trees : List Tree) {below : List Production}
    (covers : Covers offset ((trees.map Production.tree).reverse ++ below)) :
    ∃ start, Tiles start offset trees ∧ (∀ tree ∈ trees, tree.Tiled) ∧ Covers start below := by
  induction trees using List.reverseRecOn generalizing offset with
  | nil => exact ⟨offset, rfl, by simp, covers⟩
  | append_singleton trees last ih =>
      rw [List.map_append, List.map_singleton, List.reverse_append, List.reverse_singleton,
        List.singleton_append, List.cons_append] at covers
      cases covers with
      | tree tiled covers =>
          obtain ⟨start, tiles, others, belowCovers⟩ := ih covers
          refine ⟨start, tiles_append.mpr ⟨last.span.start, tiles, rfl, rfl⟩, ?_, belowCovers⟩
          intro tree member
          rcases List.mem_append.mp member with earlier | same
          · exact others tree earlier
          · exact List.mem_singleton.mp same ▸ tiled

def completedTrees (productions : List Production) : List Tree :=
  productions.reverse.filterMap Production.tree?

theorem completedTrees_cons (node : Tree) (below : List Production) :
    completedTrees (.tree node :: below) = completedTrees below ++ [node] := by
  simp [completedTrees, Production.tree?]

theorem completedTrees_bytes (count : Nat) (below : List Production) :
    completedTrees (List.replicate count .byte ++ below) = completedTrees below := by
  have vacant : (List.replicate count Production.byte).filterMap Production.tree? = [] := by
    simp [List.filterMap_eq_nil_iff, Production.tree?]
  rw [completedTrees, List.reverse_append, List.filterMap_append, List.reverse_replicate, vacant,
    List.append_nil]
  rfl

theorem completedTrees_trees (trees : List Tree) (below : List Production) :
    completedTrees ((trees.map Production.tree).reverse ++ below) =
      completedTrees below ++ trees := by
  simp only [completedTrees, List.reverse_append, List.reverse_reverse, List.filterMap_append,
    List.filterMap_map]
  congr 1
  exact List.filterMap_some

namespace Machine

variable {machine : Machine}

structure Coherent (state : MachineState) : Prop where
  fits : Fits state.offset state.operands state.productions
  covers : Covers state.offset state.productions
  numbered : ((completedTrees state.productions).flatMap Tree.postorder).map Tree.serial =
    List.range state.nodeCount

theorem coherent_initial : Coherent initial :=
  ⟨fun node _ _ => ⟨node, rfl⟩, .nil, rfl⟩

theorem Moves.fits {state next : MachineState} (moves : machine.Moves state next)
    (fits : Fits state.offset state.operands state.productions) :
    Fits next.offset next.operands next.productions := by
  cases moves with
  | lineFeed _ => exact fits_operations NodeKind.noConfusion fits [.matchLiteral [10]] [] rfl
  | carriageReturn _ =>
      exact fits_operations NodeKind.noConfusion fits [.matchLiteral [13], .matchLiteral [10]] []
        rfl
  | @rule _ id _ _ _ _ operations _ _ =>
      have inner : NodeKind.rule id ≠ .literal := NodeKind.noConfusion
      have opened := fits_operations inner fits operations [] rfl
      rwa [List.length_nil, Nat.zero_add] at opened
  | @literal offset bytes below productions made =>
      apply fits_bytes
      refine ⟨_, productions, .bytes bytes.length, by simp, by simp, ?_⟩
      intro node spanIs
      have here := fits node (by rw [spanIs])
      rwa [spanIs] at here
  | byte _ => exact fits
  | @reduceLiteral offset start count below productions made =>
      have reduced := Fits.reduced (List.replicate count .byte) productions (by simpa using fits)
      exact reduced.2 _ rfl
  | reduceNothing inner => exact (Fits.reduced [] _ fits).2 _ rfl
  | @reduceTrees offset kind start trees below productions made inner nonempty =>
      have reduced := Fits.reduced (trees.map .tree) productions (by simpa using fits)
      exact reduced.2 _ rfl

theorem Moves.covers {state next : MachineState} (moves : machine.Moves state next)
    (fits : Fits state.offset state.operands state.productions)
    (covers : Covers state.offset state.productions) :
    Covers next.offset next.productions := by
  cases moves with
  | lineFeed | carriageReturn | rule | literal => exact covers
  | byte => exact .byte covers
  | @reduceLiteral offset start count below productions made =>
      have reduced := Fits.reduced (List.replicate count .byte) productions (by simpa using fits)
      have stop := reduced.1.eq_add_length
      rw [List.length_replicate] at stop
      subst stop
      have tiled : (Tree.node made .literal ⟨start, start + count⟩ []).Tiled :=
        .leaf (Nat.le_add_right start count) (Or.inl rfl)
      exact .tree tiled covers.of_bytes
  | @reduceNothing offset kind start below productions made inner =>
      have reduced := Fits.reduced [] _ fits
      obtain rfl : start = offset := reduced.1.tiles inner []
      have placeholder : (Tree.node made .nothing ⟨start, start⟩ []).Tiled :=
        .leaf (Nat.le_refl start) (Or.inr rfl)
      have tiled : (Tree.node (made + 1) kind ⟨start, start⟩
          [.node made .nothing ⟨start, start⟩ []]).Tiled :=
        .inner (List.cons_ne_nil _ _) ⟨rfl, rfl⟩ (List.forall_mem_singleton.mpr placeholder)
      exact .tree tiled covers
  | @reduceTrees offset kind start trees below productions made inner nonempty =>
      have reduced := Fits.reduced (trees.map .tree) productions (by simpa using fits)
      have tiles := reduced.1.tiles inner trees
      obtain ⟨other, otherTiles, each, belowCovers⟩ := covers.of_trees
      have same : other = start := by
        cases trees with
        | nil => exact absurd rfl nonempty
        | cons tree rest => exact otherTiles.1.symm.trans tiles.1
      subst same
      have tiled : (Tree.node made kind ⟨other, offset⟩ trees).Tiled :=
        .inner nonempty tiles each
      exact .tree tiled belowCovers

theorem Moves.numbered {state next : MachineState} (moves : machine.Moves state next)
    (numbered : ((completedTrees state.productions).flatMap Tree.postorder).map Tree.serial =
      List.range state.nodeCount) :
    ((completedTrees next.productions).flatMap Tree.postorder).map Tree.serial =
      List.range next.nodeCount := by
  cases moves with
  | lineFeed | carriageReturn | rule | literal => exact numbered
  | byte =>
      rw [← numbered]
      exact congrArg _ (congrArg _ (completedTrees_bytes 1 _))
  | reduceLiteral =>
      rw [completedTrees_bytes] at numbered
      rw [completedTrees_cons, List.range_succ, ← numbered]
      simp [Tree.postorder_eq, Tree.children, Tree.serial]
  | reduceNothing =>
      rw [completedTrees_cons, List.range_succ, List.range_succ, ← numbered]
      simp [Tree.postorder_eq, Tree.children, Tree.serial]
  | reduceTrees =>
      rw [completedTrees_trees] at numbered
      rw [completedTrees_cons, List.range_succ, ← numbered]
      simp [Tree.postorder_eq, Tree.children, Tree.serial]

theorem Moves.coherent {state next : MachineState} (moves : machine.Moves state next)
    (coherent : Coherent state) : Coherent next :=
  ⟨moves.fits coherent.fits, moves.covers coherent.fits coherent.covers,
    moves.numbered coherent.numbered⟩

theorem Steps.coherent {state last : MachineState} (steps : machine.Steps state last)
    (coherent : Coherent state) : Coherent last :=
  steps.keeps Moves.coherent coherent

theorem exists_moves_of_reduce {offset : Nat} {kind : NodeKind} {start count : Nat}
    {below : List Operand} {productions : List Production} {made : Nat}
    (fits : Fits offset (.reduce kind start count :: below) productions) :
    ∃ others now, machine.Moves ⟨offset, .reduce kind start count :: below, productions, made⟩
      ⟨offset, below, others, now⟩ := by
  obtain ⟨collected, rest, collects, rfl, rfl, _⟩ := fits
  cases collects with
  | bytes count =>
      rw [List.reverse_replicate, List.length_replicate]
      exact ⟨_, _, .reduceLiteral⟩
  | @trees _ _ _ trees inner _ =>
      rw [List.length_map]
      by_cases vacant : trees = []
      · subst vacant
        exact ⟨_, _, .reduceNothing inner⟩
      · exact ⟨_, _, .reduceTrees inner vacant⟩

end Machine

end Lookahead
