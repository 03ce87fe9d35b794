/-!
Repeating a step until it changes nothing.  A step may only leave a state as it is or use up some
of the room that is left in it, so the repetition ends.
-/

namespace Lookahead

def Shrinks {σ : Type} (room : σ → Nat) (before after : σ) : Prop :=
  after = before ∨ room after < room before

theorem Shrinks.trans {σ : Type} {room : σ → Nat} {first second third : σ}
    (one : Shrinks room first second) (two : Shrinks room second third) :
    Shrinks room first third := by
  rcases one with same | less
  · exact same ▸ two
  · rcases two with same | again
    · exact Or.inr (same ▸ less)
    · exact Or.inr (Nat.lt_trans again less)

theorem shrinks_foldl {σ α : Type} {room : σ → Nat} (change : σ → α → σ)
    (shrinks : ∀ state item, Shrinks room state (change state item)) (items : List α) :
    ∀ state, Shrinks room state (items.foldl change state) := by
  induction items with
  | nil => exact fun state => Or.inl rfl
  | cons item rest ih => exact fun state => (shrinks state item).trans (ih (change state item))

def untilStable {σ : Type} [DecidableEq σ] (room : σ → Nat) (step : σ → σ)
    (shrinks : ∀ state, Shrinks room state (step state)) (state : σ) : σ :=
  let next := step state
  if _same : next = state then state else untilStable room step shrinks next
termination_by room state
decreasing_by exact (shrinks state).resolve_left _same

theorem step_untilStable {σ : Type} [DecidableEq σ] (room : σ → Nat) (step : σ → σ)
    (shrinks : ∀ state, Shrinks room state (step state)) (state : σ) :
    step (untilStable room step shrinks state) = untilStable room step shrinks state := by
  fun_induction untilStable room step shrinks state with
  | case1 state next same => exact same
  | case2 state next changed ih => exact ih

section Raise

variable {α : Type} {n : Nat}

def raise (join : α → α → α) (values : Vector α n) (index : Fin n) (added : α) :
    Vector α n :=
  values.set index.val (join (values.get index) added) index.isLt

def roomOf (room : α → Nat) : List α → Nat
  | [] => 0
  | value :: rest => room value + roomOf room rest

def totalRoom (room : α → Nat) (values : Vector α n) : Nat :=
  roomOf room values.toList

theorem roomOf_set_lt (room : α → Nat) (values : List α) (index : Nat) (value : α)
    (bound : index < values.length) (less : room value < room values[index]) :
    roomOf room (values.set index value) < roomOf room values := by
  induction values generalizing index with
  | nil => simp at bound
  | cons head tail ih =>
    cases index with
    | zero =>
      simp only [List.getElem_cons_zero] at less
      simp only [List.set_cons_zero, roomOf]
      omega
    | succ index =>
      have := ih index (by simpa using bound) (by simpa using less)
      simp only [List.set_cons_succ, roomOf]
      omega

theorem shrinks_raise (join : α → α → α) (room : α → Nat)
    (grows : ∀ value added, Shrinks room value (join value added)) (values : Vector α n)
    (index : Fin n) (added : α) :
    Shrinks (totalRoom room) values (raise join values index added) := by
  rcases grows (values.get index) added with same | less
  · left
    rw [raise, same]
    exact Vector.set_getElem_self _
  · right
    have := roomOf_set_lt room values.toList index.val (join (values.get index) added)
      (by simp) less
    simpa [totalRoom, raise, Vector.toList_set] using this

end Raise

end Lookahead
