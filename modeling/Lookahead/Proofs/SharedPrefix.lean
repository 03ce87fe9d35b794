import Lookahead.Proofs.Divergence

/-!
Runs over inputs that begin alike.  A step depends on the input through the byte at its offset
only, so as long as the offset is where two inputs agree, the same steps are taken over both.
-/

namespace Lookahead.Machine

variable {table : Table} {names : NameMap} {left right : Array UInt8}

theorem step_eq_of_getElem? {state : MachineState}
    (same : left[state.offset]? = right[state.offset]?) :
    Machine.step ⟨table, names, left⟩ state = Machine.step ⟨table, names, right⟩ state := by
  have ahead : Machine.lookahead ⟨table, names, left⟩ state.offset =
      Machine.lookahead ⟨table, names, right⟩ state.offset := by
    simp only [lookahead, same]
  have failure (expected : Expected) :
      Machine.unexpected ⟨table, names, left⟩ state.offset expected =
        Machine.unexpected ⟨table, names, right⟩ state.offset expected := by
    simp only [unexpected, same]
  unfold step
  split
  · rfl
  · simp only [stepEndOfLine, ahead, failure]
  · simp only [stepRule, ahead, failure]
  · rfl
  · simp only [stepByte, ahead, failure]
  · rfl
  · simp only [stepEndOfInput, ahead]

variable {limit : Nat} (agree : ∀ offset ≤ limit, left[offset]? = right[offset]?)
include agree

theorem Steps.of_agree {state last : MachineState}
    (steps : Machine.Steps ⟨table, names, left⟩ state last) (early : last.offset ≤ limit) :
    Machine.Steps ⟨table, names, right⟩ state last := by
  induction steps with
  | refl => exact .refl
  | tail _ moves ih =>
      -- Offsets never go down, so all steps are taken where the inputs agree.
      have before := Nat.le_trans moves.offset_le early
      refine .tail (ih before) (step_eq_next_iff.mp ?_)
      rw [← step_eq_of_getElem? (agree _ before)]
      exact step_eq_next_iff.mpr moves

/-- A run that stops where the inputs agree has the same result over both. -/
theorem run_eq_of_agree {last : MachineState} {result : Except Error ParseTree}
    (steps : Machine.Steps ⟨table, names, left⟩ initial last)
    (stopped : Machine.step ⟨table, names, left⟩ last = .stop result)
    (early : last.offset ≤ limit) :
    Machine.run ⟨table, names, right⟩ initial = some result := by
  rw [run_eq_some_iff .refl, exists_after_eq_stop_iff]
  refine ⟨last, steps.of_agree agree early, ?_⟩
  rw [← step_eq_of_getElem? (agree _ early)]
  exact stopped

end Lookahead.Machine
