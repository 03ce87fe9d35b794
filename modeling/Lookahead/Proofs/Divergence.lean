import Lookahead.Proofs.Stacks
import Lookahead.Proofs.Turns

/-!
The machine step by step.  A run has no result exactly where the steps go on for ever: a rule that
is invoked while it is open, with the same input ahead, takes the same turns again and again above
an ever higher stack.
-/

namespace Lookahead.Machine

variable {machine : Machine}

def after (machine : Machine) : Nat → MachineState → Step
  | 0, state => .next state
  | count + 1, state =>
      match machine.step state with
      | .next next => machine.after count next
      | .stop result => .stop result

theorem after_succ_of_moves {state next : MachineState} (moves : machine.Moves state next)
    (count : Nat) : machine.after (count + 1) state = machine.after count next := by
  rw [after, step_eq_next_iff.mpr moves]

theorem steps_of_after {count : Nat} {state later : MachineState}
    (reached : machine.after count state = .next later) : machine.Steps state later := by
  induction count generalizing state with
  | zero =>
      obtain rfl := Step.next.inj reached
      exact .refl
  | succ count ih =>
      rw [after] at reached
      split at reached
      · rename_i next stepped
        exact .head (step_eq_next_iff.mp stepped) (ih reached)
      · simp at reached

theorem exists_after_eq_stop_iff {state : MachineState} {result : Except Error ParseTree} :
    (∃ count, machine.after count state = .stop result) ↔
      ∃ last, machine.Steps state last ∧ machine.step last = .stop result := by
  constructor
  · rintro ⟨count, stopped⟩
    induction count generalizing state with
    | zero => simp [after] at stopped
    | succ count ih =>
        rw [after] at stopped
        split at stopped
        · rename_i next stepped
          obtain ⟨last, steps, ends⟩ := ih stopped
          exact ⟨last, .head (step_eq_next_iff.mp stepped) steps, ends⟩
        · rename_i other ends
          obtain rfl := Step.stop.inj stopped
          exact ⟨state, .refl, ends⟩
  · rintro ⟨last, steps, ends⟩
    induction steps using Relation.ReflTransGen.head_induction_on with
    | refl => exact ⟨1, by simp [after, ends]⟩
    | head moves _ ih =>
        obtain ⟨count, stopped⟩ := ih
        exact ⟨count + 1, by rw [after_succ_of_moves moves, stopped]⟩

/-! ### Turns that go on -/

def Turn (machine : Machine) (before after : Nat × List Operand) : Prop :=
  ∃ operand below added, before.2 = operand :: below ∧ after.2 = added ++ below ∧
    machine.Turns before.1 operand after.1 added

theorem Turns.exists_moves {offset later : Nat} {operand : Operand} {added below : List Operand}
    {productions : List Production} {made : Nat} (turns : machine.Turns offset operand later added)
    (fits : Fits offset (operand :: below) productions) :
    ∃ others now, machine.Moves ⟨offset, operand :: below, productions, made⟩
      ⟨later, added ++ below, others, now⟩ := by
  cases turns with
  | opens opened =>
      refine ⟨productions, made, ?_⟩
      cases opened with
      | lineFeed ahead => exact .lineFeed ahead
      | carriageReturn ahead => exact .carriageReturn ahead
      | rule present found => simpa using .rule present found
      | literal => simpa using .literal
  | byte ahead => exact ⟨_, _, .byte ahead⟩
  | reduce => exact exists_moves_of_reduce fits

def Lasts (machine : Machine) : Nat → Nat × List Operand → Prop
  | 0, _ => True
  | count + 1, stack => ∃ next, machine.Turn stack next ∧ machine.Lasts count next

theorem Lasts.of_succ {count : Nat} {stack : Nat × List Operand}
    (lasts : machine.Lasts (count + 1) stack) : machine.Lasts count stack := by
  induction count generalizing stack with
  | zero => trivial
  | succ count ih =>
      obtain ⟨next, turn, later⟩ := lasts
      exact ⟨next, turn, ih later⟩

theorem Lasts.of_turns {count : Nat} {stack last : Nat × List Operand}
    (path : Relation.TransGen machine.Turn stack last) (lasts : machine.Lasts count last) :
    machine.Lasts (count + 1) stack := by
  induction path using Relation.TransGen.head_induction_on with
  | single turn => exact ⟨_, turn, lasts⟩
  | head turn _ ih => exact ⟨_, turn, ih.of_succ⟩

theorem Lasts.append {count offset : Nat} {operands : List Operand}
    (lasts : machine.Lasts count (offset, operands)) (more : List Operand) :
    machine.Lasts count (offset, operands ++ more) := by
  induction count generalizing offset operands with
  | zero => trivial
  | succ count ih =>
      obtain ⟨⟨later, others⟩, ⟨operand, below, added, same, rfl, turns⟩, rest⟩ := lasts
      refine ⟨(later, (added ++ below) ++ more), ⟨operand, below ++ more, added, ?_, ?_, turns⟩,
        ih rest⟩
      · exact congrArg (· ++ more) same
      · exact List.append_assoc _ _ _

def Alike (left right : Operand) : Prop :=
  left = right ∨ isPlain left = false ∧ isPlain right = false

theorem forall₂_alike_refl (operands : List Operand) : List.Forall₂ Alike operands operands :=
  List.forall₂_same.mpr fun _ _ => Or.inl rfl

theorem lookahead_congr {left right : Nat} (same : machine.clamp left = machine.clamp right) :
    machine.lookahead left = machine.lookahead right := by
  simp only [clamp] at same
  by_cases inside : left < machine.input.size
  · have equal : left = right := by omega
    rw [equal]
  · have leftOut : machine.input[left]? = none := Array.getElem?_eq_none (by omega)
    have rightOut : machine.input[right]? = none := Array.getElem?_eq_none (by omega)
    rw [lookahead, lookahead, leftOut, rightOut]

theorem Opens.congr {left right : Nat} (same : machine.clamp left = machine.clamp right)
    {operand : Operand} {kind : NodeKind} {operands : List Operand}
    (opens : machine.Opens left operand kind operands) :
    machine.Opens right operand kind operands := by
  cases opens with
  | lineFeed ahead => exact .lineFeed ((lookahead_congr same).symm.trans ahead)
  | carriageReturn ahead => exact .carriageReturn ((lookahead_congr same).symm.trans ahead)
  | rule present found =>
      rw [lookahead_congr same] at found
      exact .rule present found
  | literal => exact .literal

theorem Turns.congr {left right : Nat} (same : machine.clamp left = machine.clamp right)
    {operand other : Operand} (alike : Alike operand other) {later : Nat} {added : List Operand}
    (turns : machine.Turns left operand later added) :
    ∃ after others, machine.Turns right other after others ∧
      machine.clamp later = machine.clamp after ∧ List.Forall₂ Alike added others := by
  cases turns with
  | opens opened =>
      rcases alike with rfl | ⟨reduction, _⟩
      · refine ⟨right, _, .opens (opened.congr same), same, ?_⟩
        exact List.rel_append (forall₂_alike_refl _) (.cons (Or.inr ⟨rfl, rfl⟩) .nil)
      · simp [opened.plain.1] at reduction
  | byte ahead =>
      rcases alike with rfl | ⟨reduction, _⟩
      · refine ⟨right + 1, [], .byte ((lookahead_congr same).symm.trans ahead), ?_, .nil⟩
        simp only [clamp] at same ⊢
        omega
      · simp [isPlain] at reduction
  | reduce =>
      obtain ⟨kind, start, count, rfl⟩ : ∃ kind start count, other = .reduce kind start count := by
        rcases alike with rfl | ⟨_, reduction⟩
        · exact ⟨_, _, _, rfl⟩
        · cases other with
          | reduce kind start count => exact ⟨kind, start, count, rfl⟩
          | _ => simp [isPlain] at reduction
      exact ⟨right, [], .reduce, same, .nil⟩

theorem Lasts.congr {count left right : Nat} (same : machine.clamp left = machine.clamp right)
    {operands others : List Operand} (alike : List.Forall₂ Alike operands others)
    (lasts : machine.Lasts count (left, operands)) : machine.Lasts count (right, others) := by
  induction count generalizing left right operands others with
  | zero => trivial
  | succ count ih =>
      obtain ⟨⟨later, _⟩, ⟨operand, below, added, rfl, rfl, turns⟩, rest⟩ := lasts
      cases alike with
      | cons here belowAlike =>
          obtain ⟨after, otherAdded, otherTurns, clamped, addedAlike⟩ := turns.congr same here
          refine ⟨(after, _), ⟨_, _, otherAdded, rfl, rfl, otherTurns⟩, ?_⟩
          exact ih clamped (List.rel_append addedAlike belowAlike) rest

/-! ### Where the reductions on the stack come from -/

/-- Where the reduction of a rule is pending, the machine came from the invocation of the rule and
did not touch what is below the reduction. -/
def Traced (machine : Machine) (state : MachineState) : Prop :=
  ∀ above id start count below,
    state.operands = above ++ .reduce (.rule id) start count :: below →
      Relation.TransGen machine.Turn (start, [.invoke (.rule id)])
        (state.offset, above ++ [.reduce (.rule id) start count])

theorem traced_initial (machine : Machine) : machine.Traced initial := by
  intro above id start count below same
  have member : .reduce (.rule id) start count ∈ initial.operands := by simp [same]
  simp [initial] at member

theorem Turns.eq_invoke {offset later : Nat} {operand : Operand} {above below : List Operand}
    {id start count : Nat}
    (turns :
      machine.Turns offset operand later (above ++ .reduce (.rule id) start count :: below)) :
    operand = .invoke (.rule id) ∧ start = offset ∧ below = [] := by
  generalize addedIs : above ++ .reduce (.rule id) start count :: below = added at turns
  cases turns with
  | @opens _ _ operands opened =>
      have plain := opened.plain.2
      cases below using List.reverseRecOn with
      | nil =>
          obtain ⟨_, last⟩ := List.append_inj' addedIs rfl
          simp only [List.cons.injEq, Operand.reduce.injEq, and_true] at last
          obtain ⟨rfl, rfl, _⟩ := last
          cases opened with
          | rule => exact ⟨rfl, rfl, rfl⟩
      | append_singleton front last =>
          rw [← List.cons_append, ← List.append_assoc] at addedIs
          obtain ⟨rfl, _⟩ := List.append_inj' addedIs rfl
          have reduction := plain (.reduce (.rule id) start count) (by simp)
          simp [isPlain] at reduction
  | byte => simp at addedIs
  | reduce => simp at addedIs

theorem Moves.traced {state next : MachineState} (moves : machine.Moves state next)
    (traced : machine.Traced state) : machine.Traced next := by
  intro above id start count below same
  obtain ⟨operand, rest, added, before, after, turns⟩ := moves.turns
  rw [after, List.append_eq_append_iff] at same
  rcases same with ⟨between, rfl, restIs⟩ | ⟨between, addedIs, restIs⟩
  · have path := traced (operand :: between) id start count below (by rw [before, restIs]; rfl)
    refine path.tail ⟨operand, between ++ [.reduce (.rule id) start count], added, rfl, ?_, turns⟩
    simp
  · cases between with
    | nil =>
        have path := traced [operand] id start count below (by rw [before]; simpa using restIs.symm)
        refine path.tail ⟨operand, [.reduce (.rule id) start count], added, rfl, ?_, turns⟩
        simp [addedIs]
    | cons reduction between =>
        obtain ⟨rfl, restIs⟩ := List.cons.inj restIs
        subst addedIs
        obtain ⟨rfl, rfl, rfl⟩ := turns.eq_invoke
        exact .single ⟨_, [], _, rfl, (List.append_nil _).symm, turns⟩

theorem Steps.traced {state last : MachineState} (steps : machine.Steps state last)
    (traced : machine.Traced state) : machine.Traced last :=
  steps.keeps Moves.traced traced

/-! ### Runs without a result -/

theorem exists_reduce_of_mem_openRules {offset id : Nat} {operands : List Operand}
    (isOpen : id ∈ machine.openRules offset operands) :
    ∃ above start count below, operands = above ++ .reduce (.rule id) start count :: below ∧
      machine.clamp start = machine.clamp offset := by
  induction operands with
  | nil => simp [openRules] at isOpen
  | cons operand rest ih =>
      have deeper (found : id ∈ machine.openRules offset rest) :
          ∃ above start count below,
            operand :: rest = above ++ .reduce (.rule id) start count :: below ∧
              machine.clamp start = machine.clamp offset := by
        obtain ⟨above, start, count, below, rfl, same⟩ := ih found
        exact ⟨operand :: above, start, count, below, rfl, same⟩
      cases operand with
      | reduce kind start count =>
          cases kind with
          | rule other =>
              rw [openRules] at isOpen
              split at isOpen
              · rename_i same
                rcases List.mem_cons.mp isOpen with rfl | found
                · exact ⟨[], start, count, rest, rfl, same⟩
                · exact deeper found
              · simp at isOpen
          | literal | endOfLine | nothing =>
              simp only [openRules] at isOpen
              split at isOpen
              · exact deeper isOpen
              · simp at isOpen
      | invoke | matchLiteral | endOfInput | matchByte => exact deeper isOpen

theorem lasts_of_reenters {state : MachineState} (traced : machine.Traced state)
    (reenters : machine.reenters state = true) (count : Nat) :
    machine.Lasts count (state.offset, state.operands) := by
  rw [Machine.reenters] at reenters
  split at reenters
  · rename_i id rest operandsIs
    obtain ⟨above, start, size, below, restIs, same⟩ :=
      exists_reduce_of_mem_openRules (List.contains_iff_mem.mp reenters)
    have path := traced (.invoke (.rule id) :: above) id start size below
      (by rw [operandsIs, restIs]; rfl)
    -- The path leads from the first invocation to the second.  What the first is known to last, the
    -- second lasts too, above its own stack; so the first lasts a turn more.
    have again : ∀ count, machine.Lasts count (start, [.invoke (.rule id)]) := by
      intro count
      induction count with
      | zero => trivial
      | succ count ih =>
          have second := (ih.congr same (forall₂_alike_refl _)).append
            (above ++ [.reduce (.rule id) start size])
          exact .of_turns path second
    rw [operandsIs]
    exact ((again count).congr same (forall₂_alike_refl _)).append rest
  · simp at reenters

theorem exists_after_of_lasts {count : Nat} {state : MachineState} (coherent : Coherent state)
    (lasts : machine.Lasts count (state.offset, state.operands)) :
    ∃ later, machine.after count state = .next later := by
  induction count generalizing state with
  | zero => exact ⟨state, rfl⟩
  | succ count ih =>
      obtain ⟨⟨later, _⟩, ⟨operand, below, added, operandsIs, rfl, turns⟩, rest⟩ := lasts
      obtain ⟨offset, operands, productions, made⟩ := state
      obtain rfl : operands = operand :: below := operandsIs
      obtain ⟨others, now, moves⟩ := turns.exists_moves coherent.fits
      rw [after_succ_of_moves moves]
      exact ih (moves.coherent coherent) rest

theorem run_eq_some_iff {state : MachineState} (reached : machine.Steps initial state)
    {result : Except Error ParseTree} :
    machine.run state = some result ↔ ∃ count, machine.after count state = .stop result := by
  fun_induction machine.run state with
  | case1 state reenters =>
      simp only [reduceCtorEq, false_iff, not_exists]
      intro count stopped
      obtain ⟨later, goesOn⟩ := exists_after_of_lasts (reached.coherent coherent_initial)
        (lasts_of_reenters (reached.traced (traced_initial machine)) reenters count)
      simp [stopped] at goesOn
  | case2 state _ other stopped =>
      have first : machine.after 1 state = .stop other := by rw [after, stopped]
      constructor
      · rintro same
        obtain rfl := Option.some.inj same
        exact ⟨1, first⟩
      · rintro ⟨count, ends⟩
        cases count with
        | zero => simp [after] at ends
        | succ count =>
            rw [after, stopped] at ends
            rw [Step.stop.inj ends]
  | case3 state _ next stepped ih =>
      have moves := step_eq_next_iff.mp stepped
      rw [ih (reached.tail moves)]
      constructor
      · rintro ⟨count, ends⟩
        exact ⟨count + 1, (after_succ_of_moves moves count).trans ends⟩
      · rintro ⟨count, ends⟩
        cases count with
        | zero => simp [after] at ends
        | succ count => exact ⟨count, (after_succ_of_moves moves count).symm.trans ends⟩

theorem run_eq_none_iff {state : MachineState} (reached : machine.Steps initial state) :
    machine.run state = none ↔ ∀ count, ∃ later, machine.after count state = .next later := by
  constructor
  · intro missing count
    cases outcome : machine.after count state with
    | next later => exact ⟨later, rfl⟩
    | stop result =>
        have found := (run_eq_some_iff reached).mpr ⟨count, outcome⟩
        simp [missing] at found
  · intro goesOn
    cases outcome : machine.run state with
    | none => rfl
    | some result =>
        obtain ⟨count, stopped⟩ := (run_eq_some_iff reached).mp outcome
        obtain ⟨later, went⟩ := goesOn count
        simp [stopped] at went

end Lookahead.Machine
