import Lookahead.Analysis.Stable
import Lookahead.Byte.Set

/-!
What holds of the state in which a repetition ends: every predicate that each step keeps, and no
part of the last pass changes anything.
-/

namespace Lookahead

theorem untilStable_induction {σ : Type} [DecidableEq σ] {room : σ → Nat} {step : σ → σ}
    (shrinks : ∀ state, Shrinks room state (step state)) (holds : σ → Prop)
    (preserved : ∀ state, holds state → holds (step state)) (state : σ) (base : holds state) :
    holds (untilStable room step shrinks state) := by
  fun_induction untilStable room step shrinks state with
  | case1 state next same => exact base
  | case2 state next changed ih => exact ih (preserved state base)

theorem foldl_induction {σ α : Type} {change : σ → α → σ} {items : List α} (holds : σ → Prop)
    (preserved : ∀ state, ∀ item ∈ items, holds state → holds (change state item)) (state : σ)
    (base : holds state) : holds (items.foldl change state) := by
  induction items generalizing state with
  | nil => exact base
  | cons item rest ih =>
      refine ih (fun state other member => preserved state other (by simp [member])) _ ?_
      exact preserved state item List.mem_cons_self base

theorem room_le_of_shrinks {σ : Type} {room : σ → Nat} {before after : σ}
    (shrinks : Shrinks room before after) : room after ≤ room before := by
  rcases shrinks with same | less
  · exact Nat.le_of_eq (congrArg room same)
  · exact Nat.le_of_lt less

theorem eq_of_shrinks_of_shrinks {σ : Type} {room : σ → Nat} {state between : σ}
    (one : Shrinks room state between) (two : Shrinks room between state) : between = state := by
  rcases one with same | less
  · exact same
  · have back := room_le_of_shrinks two
    omega

theorem change_eq_of_foldl_eq {σ α : Type} {room : σ → Nat} {change : σ → α → σ}
    (shrinks : ∀ state item, Shrinks room state (change state item)) {items : List α} {state : σ}
    (stable : items.foldl change state = state) : ∀ item ∈ items, change state item = state := by
  induction items with
  | nil => simp
  | cons item rest ih =>
      rw [List.foldl_cons] at stable
      have later := shrinks_foldl change shrinks rest (change state item)
      rw [stable] at later
      have here := eq_of_shrinks_of_shrinks (shrinks state item) later
      rw [here] at stable
      intro other member
      rcases List.mem_cons.mp member with rfl | later
      · exact here
      · exact ih stable other later

section Raise

variable {α : Type} {n : Nat}

theorem get_raise (join : α → α → α) (values : Vector α n) (index : Fin n) (added : α)
    (other : Fin n) :
    (raise join values index added).get other =
      if other = index then join (values.get index) added else values.get other := by
  have place : (index.val = other.val) ↔ (other = index) := by
    rw [Fin.ext_iff, eq_comm]
  change (values.set index.val (join (values.get index) added))[other.val] = _
  rw [Vector.getElem_set]
  simp only [place]
  rfl

theorem join_eq_of_raise_eq {join : α → α → α} {values : Vector α n} {index : Fin n} {added : α}
    (stable : raise join values index added = values) :
    join (values.get index) added = values.get index := by
  have here := get_raise join values index added index
  rw [stable, if_pos rfl] at here
  exact here.symm

theorem forall_get_raise {join : α → α → α} {values : Vector α n} {index : Fin n} {added : α}
    (holds : Fin n → α → Prop) (before : ∀ other, holds other (values.get other))
    (joined : holds index (values.get index) → holds index (join (values.get index) added)) :
    ∀ other, holds other ((raise join values index added).get other) := by
  intro other
  rw [get_raise]
  split
  · rename_i same
    subst same
    exact joined (before other)
  · exact before other

end Raise

theorem ByteSet.contains_of_union_eq {set added : ByteSet} (stable : set.union added = set)
    {byte : UInt8} (member : added.contains byte = true) : set.contains byte = true := by
  have here : (set ∪ added).contains byte = true := by simp [member]
  rwa [show set ∪ added = set from stable] at here

end Lookahead
