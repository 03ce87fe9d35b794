import Lookahead.Proofs.Correctness
import Lookahead.Proofs.Divergence

/-!
Over a generated table the machine stops, and between two bytes of the input it takes no more steps
than the cost of its stack.  A table that is built by hand can keep it going for ever.
-/

namespace Lookahead

namespace Machine

variable {machine : Machine}

theorem Moves.stackCost_lt {state next : MachineState} (moves : machine.Moves state next)
    (fresh : machine.reenters state = false) (still : next.offset = state.offset) :
    machine.stackCost next.offset next.operands <
      machine.stackCost state.offset state.operands := by
  have nearer := machine.measure_step_lt fresh (step_eq_next_iff.mpr moves)
  simp only [measure, Prod.lex_def] at nearer
  rcases nearer with read | ⟨_, cheaper⟩
  · omega
  · exact cheaper

theorem count_le_stackCost {state later : MachineState}
    (fresh : ∀ between, machine.Steps state between → machine.reenters between = false)
    {count : Nat} (reached : machine.after count state = .next later)
    (still : later.offset = state.offset) :
    count ≤ machine.stackCost state.offset state.operands := by
  induction count generalizing state with
  | zero => exact Nat.zero_le _
  | succ count ih =>
      rw [after] at reached
      split at reached
      · rename_i next stepped
        have moves := step_eq_next_iff.mp stepped
        have onward := (steps_of_after reached).offset_le
        have begun := moves.offset_le
        have stays : next.offset = state.offset := by omega
        have later := ih (fun between steps => fresh between (.head moves steps)) reached
          (by omega)
        have cheaper := moves.stackCost_lt (fresh state .refl) stays
        omega
      · simp at reached

theorem run_of_reenters {state : MachineState} (reenters : machine.reenters state = true) :
    machine.run state = none := by
  rw [run, dif_pos reenters]

theorem not_reenters_of_realizes (machine : Machine) {n : Nat} {analysis : Analysis n}
    (sound : analysis.Sound) (realizes : machine.table.Realizes analysis) {state : MachineState}
    (steps : machine.Steps initial state) : machine.reenters state = false := by
  by_cases positive : 0 < n
  · exact not_reenters_of_steps machine sound realizes positive steps
  · -- Without rules the initial state is the only one.
    have absent : machine.table.row? 0 = none := realizes.absent 0 (Nat.le_of_not_lt positive)
    rcases Relation.ReflTransGen.cases_head steps with rfl | ⟨next, moves, _⟩
    · simp [reenters, initial, openRules]
    · generalize same : initial = state at moves
      cases moves with
      | rule present found =>
          simp only [initial, MachineState.mk.injEq, List.cons.injEq, Operand.invoke.injEq,
            Callee.rule.injEq] at same
          obtain ⟨_, ⟨rfl, _⟩, _⟩ := same
          simp [absent] at present
      | _ => simp [initial] at same

theorem exists_parse (machine : Machine) {n : Nat} {analysis : Analysis n}
    (sound : analysis.Sound) (realizes : machine.table.Realizes analysis) :
    ∃ result, machine.parse = some result := by
  have outcome := machine.outcome_parse
  generalize machine.parse = parsed at outcome ⊢
  cases outcome with
  | emptyTable | noStartRule | reserved => exact ⟨_, rfl⟩
  | runs =>
      obtain ⟨_, result, _, _, ran⟩ := exists_stop fun _ steps =>
        not_reenters_of_realizes machine sound realizes steps
      exact ⟨result, ran⟩

end Machine

def Table.endless : Table :=
  ⟨#[some (.uniform [.invoke (.rule 0)])]⟩

theorem Machine.run_endless (names : NameMap) (input : Array UInt8) :
    Machine.run ⟨.endless, names, input⟩ Machine.initial = none := by
  have moves : Machine.Moves ⟨.endless, names, input⟩ Machine.initial
      ⟨0, [.invoke (.rule 0), .reduce (.rule 0) 0 1, .endOfInput], [], 0⟩ :=
    .rule rfl (Row.lookup_uniform [.invoke (.rule 0)] _)
  rw [Machine.run_of_moves rfl moves]
  exact Machine.run_of_reenters (by simp [Machine.reenters, Machine.openRules])

/-- Over a generated table the machine stops on every input, and steps that leave the offset alone
are no more than the stack costs.  Over some table it goes on for ever, whatever the input is. -/
theorem generated_tables_terminate :
    (∀ (grammar : Grammar) (table : Table) (names : NameMap),
      grammar.generate = .ok (table, names) → ∀ (shown : NameMap) (input : Array UInt8),
        (∃ count result, Machine.after ⟨table, shown, input⟩ count Machine.initial =
          .stop result) ∧
        (∃ result, Machine.parse ⟨table, shown, input⟩ = some result) ∧
        ∀ (state later : MachineState) (count : Nat),
          Machine.Steps ⟨table, shown, input⟩ Machine.initial state →
          Machine.after ⟨table, shown, input⟩ count state = .next later →
          later.offset = state.offset →
          count ≤ Machine.stackCost ⟨table, shown, input⟩ state.offset state.operands) ∧
    ∃ table : Table, ∀ (shown : NameMap) (input : Array UInt8),
      (∀ count, ∃ later, Machine.after ⟨table, shown, input⟩ count Machine.initial =
        .next later) ∧
      (endOfInputByte ∉ input.toList → Machine.parse ⟨table, shown, input⟩ = none) := by
  constructor
  · intro grammar table names generated shown input
    obtain ⟨analysis, sound, _, realizes⟩ := Grammar.realizes_of_generate generated
    have fresh (state : MachineState)
        (steps : Machine.Steps ⟨table, shown, input⟩ Machine.initial state) :
        Machine.reenters ⟨table, shown, input⟩ state = false :=
      Machine.not_reenters_of_realizes _ sound realizes steps
    obtain ⟨last, result, steps, stopped, ran⟩ := Machine.exists_stop fresh
    refine ⟨?_, ?_, ?_⟩
    · obtain ⟨count, ends⟩ := Machine.exists_after_eq_stop_iff.mpr ⟨last, steps, stopped⟩
      exact ⟨count, result, ends⟩
    · have outcome := Machine.outcome_parse ⟨table, shown, input⟩
      generalize Machine.parse ⟨table, shown, input⟩ = parsed at outcome ⊢
      cases outcome with
      | emptyTable | noStartRule | reserved => exact ⟨_, rfl⟩
      | runs => exact ⟨result, ran⟩
    · intro state later count reached went still
      exact Machine.count_le_stackCost (fun between onward => fresh between (reached.trans onward))
        went still
  · refine ⟨.endless, fun shown input => ⟨?_, ?_⟩⟩
    · exact (Machine.run_eq_none_iff .refl).mp (Machine.run_endless shown input)
    · intro unreserved
      rw [Machine.parse_eq_run _ rfl unreserved]
      exact Machine.run_endless shown input

theorem letterLines_terminates :
    ∃ table names, Parser.letterLines.generate = .ok (table, names) ∧
      ∀ input, (∃ count result, Machine.after ⟨table, .empty, input⟩ count Machine.initial =
          .stop result) ∧
        ∃ result, Machine.parse ⟨table, .empty, input⟩ = some result := by
  obtain ⟨table, names, generated⟩ := Parser.exists_generate_letterLines
  refine ⟨table, names, generated, fun input => ?_⟩
  obtain ⟨stops, parses, _⟩ := generated_tables_terminate.1 _ table names generated .empty input
  exact ⟨stops, parses⟩

end Lookahead
