import Lookahead.Proofs.Correctness
import Lookahead.Proofs.Stacks
import Lookahead.Proofs.Turns

/-!
Errors of the table are never due to the input.  If no cell ends the input, the end of the input is
only at the bottom of the stack of operands, and there one tree is left; a generated table lacks
nothing that a run can ask for.
-/

namespace Lookahead

/-- The operand on top finds the completed things that it needs. -/
structure MachineState.Ready (state : MachineState) : Prop where
  literal : ∀ start count below, state.operands = .reduce .literal start count :: below →
    ∃ rest, state.productions = List.replicate count .byte ++ rest
  inner : ∀ kind start count below, kind ≠ .literal →
    state.operands = .reduce kind start count :: below →
      ∃ (trees : List Tree) (rest : List Production), trees.length = count ∧
        state.productions = (trees.map .tree).reverse ++ rest
  finished : ∀ below, state.operands = .endOfInput :: below →
    ∃ root, state.productions = [.tree root]

def EndsOnce (operands : List Operand) : Prop :=
  ∃ above, operands = above ++ [.endOfInput] ∧ .endOfInput ∉ above

theorem EndsOnce.below_eq_nil {below : List Operand} (ends : EndsOnce (.endOfInput :: below)) :
    below = [] := by
  obtain ⟨above, same, absent⟩ := ends
  cases above with
  | nil => exact (List.cons.inj same).2
  | cons operand above =>
      obtain ⟨rfl, _⟩ := List.cons.inj same
      exact absurd List.mem_cons_self absent

theorem Table.Realizes.not_offers_endOfInput {n : Nat} {analysis : Analysis n} {table : Table}
    (realizes : table.Realizes analysis) : ¬ table.Offers .endOfInput := by
  rintro ⟨id, row, byte, operations, present, found, member⟩
  have bound : id < n := realizes.lt_of_row? present
  obtain ⟨symbols, _, taken⟩ := (realizes.lookup_iff ⟨id, bound⟩ present).mp found
  rcases taken with ⟨_, _, rfl⟩ | ⟨_, _, rfl⟩
  · obtain ⟨symbol, _, same⟩ := List.mem_filterMap.mp member
    cases symbol <;> simp [ResolvedSymbol.operation?] at same
  · simp at member

namespace Machine

variable {machine : Machine}

theorem Turns.endOfInput_not_mem (absent : ¬ machine.table.Offers .endOfInput) {offset : Nat}
    {operand : Operand} {later : Nat} {added : List Operand}
    (turns : machine.Turns offset operand later added) :
    operand ≠ .endOfInput ∧ .endOfInput ∉ added := by
  constructor
  · rintro rfl
    cases turns with
    | opens opened => cases opened
  · intro member
    have brings := turns.brings _ member
    generalize same : Operand.endOfInput = other at brings
    cases brings with
    | @offered operation offers =>
        cases operation with
        | endOfInput => exact absent offers
        | invoke | matchLiteral => simp [Operation.operand] at same
    | byte | lineEnd | reduction => simp at same

theorem Moves.endsOnce (absent : ¬ machine.table.Offers .endOfInput) {state next : MachineState}
    (moves : machine.Moves state next) (ends : EndsOnce state.operands) :
    EndsOnce next.operands := by
  obtain ⟨operand, below, added, before, after, turns⟩ := moves.turns
  obtain ⟨different, fresh⟩ := turns.endOfInput_not_mem absent
  obtain ⟨above, same, free⟩ := ends
  rw [before] at same
  cases above with
  | nil => exact absurd (List.cons.inj same).1 different
  | cons top above =>
      obtain ⟨rfl, rfl⟩ := List.cons.inj same
      refine ⟨added ++ above, by simpa using after, ?_⟩
      intro member
      rcases List.mem_append.mp member with new | old
      · exact fresh new
      · exact free (List.mem_cons_of_mem _ old)

theorem Steps.endsOnce (absent : ¬ machine.table.Offers .endOfInput) {state last : MachineState}
    (steps : machine.Steps state last) (ends : EndsOnce state.operands) :
    EndsOnce last.operands :=
  steps.keeps (Moves.endsOnce absent) ends

theorem endsOnce_initial : EndsOnce initial.operands :=
  ⟨[.invoke (.rule 0)], rfl, by simp⟩

theorem Coherent.operands_ne_nil {state : MachineState} (coherent : Coherent state) :
    state.operands ≠ [] := by
  intro vacant
  have fits := coherent.fits
  rw [vacant] at fits
  exact fits

theorem Coherent.ready {state : MachineState} (coherent : Coherent state)
    (ends : EndsOnce state.operands) : state.Ready := by
  obtain ⟨offset, operands, productions, made⟩ := state
  refine ⟨?_, ?_, ?_⟩
  · rintro start count below rfl
    obtain ⟨collected, rest, collects, lengthIs, productionsIs, _⟩ := coherent.fits
    cases collects with
    | bytes count =>
        rw [List.length_replicate] at lengthIs
        refine ⟨rest, ?_⟩
        rw [← lengthIs, ← List.reverse_replicate]
        exact productionsIs
    | trees inner _ => exact absurd rfl inner
  · rintro kind start count below inner rfl
    obtain ⟨collected, rest, collects, lengthIs, productionsIs, _⟩ := coherent.fits
    cases collects with
    | bytes => exact absurd rfl inner
    | trees _ _ => exact ⟨_, rest, by simpa using lengthIs, productionsIs⟩
  · rintro below rfl
    exact coherent.fits ends.below_eq_nil

theorem Coherent.step_ne_inconsistent {state : MachineState} (coherent : Coherent state)
    (ready : state.Ready) :
    machine.step state ≠ .stop (.error (.table .inconsistentReduction)) := by
  intro stopped
  generalize outcome : Except.error (Error.table .inconsistentReduction) = result at stopped
  cases stops_of_step stopped with
  | accepted | trailing | noRow => simp at outcome
  | noLineEnd | noCell | otherByte =>
      exact (machine.exists_unexpected _ _).elim fun _ same =>
        Error.noConfusion ((Except.error.inj outcome).trans same)
  | vacant => exact coherent.operands_ne_nil rfl
  | @unreduced offset kind start count below productions made =>
      obtain ⟨others, now, moves⟩ : ∃ others now, machine.Moves
          ⟨offset, .reduce kind start count :: below, productions, made⟩
          ⟨offset, below, others, now⟩ := exists_moves_of_reduce coherent.fits
      simp [step_eq_next_iff.mpr moves] at stopped
  | rootless other =>
      obtain ⟨root, rootIs⟩ := ready.finished _ rfl
      exact other root rootIs

/-! ### Generated tables -/

section Generated

variable {n : Nat} {analysis : Analysis n}

variable (machine) (sound : analysis.Sound) (realizes : machine.table.Realizes analysis)
include sound realizes

theorem run_ok_or_parse_error (positive : 0 < n) :
    (∃ tree, machine.run initial = some (.ok tree)) ∨
      ∃ error, machine.run initial = some (.error (.parse error)) := by
  obtain ⟨last, result, steps, stopped, ran⟩ := exists_stop fun state steps =>
    not_reenters_of_steps machine sound realizes positive steps
  rw [ran]
  have coherent := steps.coherent coherent_initial
  have ready := coherent.ready (steps.endsOnce realizes.not_offers_endOfInput endsOnce_initial)
  have consistent : machine.step last ≠ .stop (.error (.table .inconsistentReduction)) :=
    coherent.step_ne_inconsistent ready
  have healthy := (healthy_initial positive machine).steps sound realizes steps
  cases stops_of_step stopped with
  | accepted => exact Or.inl ⟨_, rfl⟩
  | trailing => exact Or.inr ⟨_, rfl⟩
  | noLineEnd | noCell | otherByte =>
      exact Or.inr ((machine.exists_unexpected _ _).imp fun _ same =>
        congrArg (fun error => some (Except.error error)) same)
  | @noRow offset id below productions made missing =>
      have bound : id < n := healthy.sane_top
      obtain ⟨row, present, _⟩ := realizes.present ⟨id, bound⟩
      simp [missing] at present
  | vacant | unreduced | rootless => exact absurd stopped consistent

theorem parse_ok_or_parse_error (positive : 0 < n) :
    (∃ tree, machine.parse = some (.ok tree)) ∨
      ∃ error, machine.parse = some (.error (.parse error)) := by
  obtain ⟨row, present, _⟩ := realizes.present ⟨0, positive⟩
  have outcome := machine.outcome_parse
  generalize machine.parse = result at outcome ⊢
  cases outcome with
  | emptyTable vacant => simp [Table.isEmpty_eq_false present] at vacant
  | noStartRule _ missing => simp [missing] at present
  | reserved => exact Or.inr ⟨_, rfl⟩
  | runs => exact run_ok_or_parse_error machine sound realizes positive

end Generated

end Machine

/-- An error of the table is not the input's.  In a table where no cell ends the input nothing is
inconsistent, in no table the operands run out before the end, and a generated table gives a tree
or an error of the input. -/
theorem table_errors_blame_the_table :
    (∀ machine : Machine, ¬ machine.table.Offers .endOfInput →
      machine.parse ≠ some (.error (.table .inconsistentReduction)) ∧
        ∀ state, machine.Steps Machine.initial state → state.Ready) ∧
    (∀ (machine : Machine) (state : MachineState), machine.Steps Machine.initial state →
      state.operands ≠ []) ∧
    (∀ (grammar : Grammar) (table : Table) (names : NameMap), grammar.rules ≠ [] →
      grammar.generate = .ok (table, names) → ∀ (shown : NameMap) (input : Array UInt8),
        (∃ tree, Machine.parse ⟨table, shown, input⟩ = some (.ok tree)) ∨
          ∃ error, Machine.parse ⟨table, shown, input⟩ = some (.error (.parse error))) := by
  refine ⟨?_, ?_, ?_⟩
  · intro machine absent
    have ready (state : MachineState) (steps : machine.Steps Machine.initial state) :
        state.Ready :=
      (steps.coherent Machine.coherent_initial).ready
        (steps.endsOnce absent Machine.endsOnce_initial)
    refine ⟨?_, ready⟩
    have outcome := machine.outcome_parse
    intro parsed
    rw [parsed] at outcome
    generalize same : some (Except.error (Error.table .inconsistentReduction)) = result at outcome
    cases outcome with
    | emptyTable | noStartRule | reserved => simp at same
    | runs =>
        obtain ⟨last, steps, stopped⟩ := Machine.exists_steps_of_run same.symm
        have coherent := steps.coherent Machine.coherent_initial
        exact coherent.step_ne_inconsistent (ready last steps) stopped
  · intro machine state steps
    exact (steps.coherent Machine.coherent_initial).operands_ne_nil
  · intro grammar table names nonempty generated shown input
    obtain ⟨analysis, sound, _, realizes⟩ := Grammar.realizes_of_generate generated
    exact Machine.parse_ok_or_parse_error ⟨table, shown, input⟩ sound realizes
      (List.length_pos_iff.mpr nonempty)

theorem letterLines_table_errors :
    ∃ table names, Parser.letterLines.generate = .ok (table, names) ∧
      ∀ input, Machine.parse ⟨table, .empty, input⟩ ≠
          some (.error (.table .inconsistentReduction)) ∧
        ((∃ tree, Machine.parse ⟨table, .empty, input⟩ = some (.ok tree)) ∨
          ∃ error, Machine.parse ⟨table, .empty, input⟩ = some (.error (.parse error))) := by
  obtain ⟨table, names, generated⟩ := Parser.exists_generate_letterLines
  obtain ⟨analysis, _, _, realizes⟩ := Grammar.realizes_of_generate generated
  obtain ⟨consistent, _, complete⟩ := table_errors_blame_the_table
  refine ⟨table, names, generated, fun input => ⟨?_, ?_⟩⟩
  · exact (consistent ⟨table, .empty, input⟩ realizes.not_offers_endOfInput).1
  · exact complete _ table names (List.cons_ne_nil _ _) generated .empty input

end Lookahead
