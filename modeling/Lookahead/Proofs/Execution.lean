import Lookahead.Engine.Run
import Mathlib.Data.List.Induction
import Mathlib.Logic.Relation

/-!
The moves of the machine, one for each way in which a step can go on, and what several of them
do to the stacks together.
-/

namespace Lookahead

theorem popEntries_append {α : Type} (entries taken rest : List α) :
    popEntries taken entries.length (entries.reverse ++ rest) = some (entries ++ taken, rest) := by
  induction entries using List.reverseRecOn generalizing taken with
  | nil => simp [popEntries]
  | append_singleton entries entry ih =>
      simp only [List.length_append, List.length_singleton, List.reverse_append,
        List.reverse_singleton, List.cons_append, List.nil_append, popEntries]
      rw [ih, List.append_assoc, List.singleton_append]

theorem popEntries_eq_some {α : Type} {taken stack collected rest : List α} {count : Nat}
    (popped : popEntries taken count stack = some (collected, rest)) :
    ∃ entries, collected = entries ++ taken ∧ stack = entries.reverse ++ rest ∧
      entries.length = count := by
  fun_induction popEntries taken count stack with
  | case1 taken stack =>
      obtain ⟨rfl, rfl⟩ := Prod.mk.inj (Option.some.inj popped)
      exact ⟨[], rfl, rfl, rfl⟩
  | case2 => simp at popped
  | case3 taken count entry stack ih =>
      obtain ⟨entries, rfl, rfl, rfl⟩ := ih popped
      exact ⟨entries ++ [entry], by simp, by simp, by simp⟩

theorem mapM_tree?_eq_some_iff {productions : List Production} {trees : List Tree} :
    productions.mapM Production.tree? = some trees ↔ productions = trees.map Production.tree := by
  induction productions generalizing trees with
  | nil => cases trees <;> simp [pure]
  | cons production rest ih =>
      cases production with
      | byte => cases trees <;> simp [Production.tree?]
      | tree node =>
          rw [List.mapM_cons]
          cases trees with
          | nil => simp [Production.tree?, Option.bind_eq_some_iff]
          | cons tree trees =>
              simp [Production.tree?, Option.bind_eq_some_iff, ih, and_comm]

namespace Machine

variable {machine : Machine}

inductive Moves (machine : Machine) : MachineState → MachineState → Prop
  | lineFeed {offset below productions made} : machine.lookahead offset = 10 →
      Moves machine ⟨offset, .invoke .endOfLine :: below, productions, made⟩
        ⟨offset, .matchLiteral [10] :: .reduce .endOfLine offset 1 :: below, productions, made⟩
  | carriageReturn {offset below productions made} : machine.lookahead offset = 13 →
      Moves machine ⟨offset, .invoke .endOfLine :: below, productions, made⟩
        ⟨offset, .matchLiteral [13] :: .matchLiteral [10] :: .reduce .endOfLine offset 2 :: below,
          productions, made⟩
  | rule {offset id below productions made row operations} : machine.table.row? id = some row →
      row.lookup (machine.lookahead offset) = some operations →
      Moves machine ⟨offset, .invoke (.rule id) :: below, productions, made⟩
        ⟨offset, operations.map Operation.operand ++
          .reduce (.rule id) offset operations.length :: below, productions, made⟩
  | literal {offset bytes below productions made} :
      Moves machine ⟨offset, .matchLiteral bytes :: below, productions, made⟩
        ⟨offset, bytes.map .matchByte ++ .reduce .literal offset bytes.length :: below,
          productions, made⟩
  | byte {offset byte below productions made} : machine.lookahead offset = byte →
      Moves machine ⟨offset, .matchByte byte :: below, productions, made⟩
        ⟨offset + 1, below, .byte :: productions, made⟩
  | reduceLiteral {offset start count below productions made} :
      Moves machine ⟨offset, .reduce .literal start count :: below,
          List.replicate count .byte ++ productions, made⟩
        ⟨offset, below, .tree (.node made .literal ⟨start, offset⟩ []) :: productions, made + 1⟩
  | reduceNothing {offset kind start below productions made} : kind ≠ .literal →
      Moves machine ⟨offset, .reduce kind start 0 :: below, productions, made⟩
        ⟨offset, below,
          .tree (.node (made + 1) kind ⟨start, offset⟩
            [.node made .nothing ⟨start, start⟩ []]) :: productions, made + 2⟩
  | reduceTrees {offset kind start trees below productions made} : kind ≠ .literal →
      trees ≠ [] →
      Moves machine ⟨offset, .reduce kind start trees.length :: below,
          (trees.map Production.tree).reverse ++ productions, made⟩
        ⟨offset, below, .tree (.node made kind ⟨start, offset⟩ trees) :: productions, made + 1⟩

theorem moves_of_stepReduce {offset : Nat} {below : List Operand}
    {productions : List Production} {made : Nat} {kind : NodeKind} {start count : Nat}
    {next : MachineState}
    (stepped : stepReduce ⟨offset, .reduce kind start count :: below, productions, made⟩ below
      kind start count = .next next) :
    machine.Moves ⟨offset, .reduce kind start count :: below, productions, made⟩ next := by
  rw [stepReduce] at stepped
  split at stepped
  · simp at stepped
  · rename_i collected later popped
    obtain ⟨entries, rfl, rfl, rfl⟩ := popEntries_eq_some popped
    rw [List.append_nil] at stepped
    split at stepped
    · rename_i isLiteral
      subst isLiteral
      split at stepped
      · rename_i bytes
        obtain rfl := Step.next.inj stepped
        have same : entries = List.replicate entries.length .byte := by
          refine List.eq_replicate_of_mem fun entry member => ?_
          have here := List.all_eq_true.mp bytes entry member
          cases entry with
          | byte => rfl
          | tree node => simp [Production.isByte] at here
        rw [same, List.reverse_replicate, List.length_replicate]
        exact .reduceLiteral
      · simp at stepped
    · rename_i inner
      split at stepped
      · rename_i vacant
        obtain rfl := List.isEmpty_iff.mp vacant
        obtain rfl := Step.next.inj stepped
        exact .reduceNothing inner
      · rename_i taken
        split at stepped
        · rename_i trees found
          obtain rfl := mapM_tree?_eq_some_iff.mp found
          obtain rfl := Step.next.inj stepped
          rw [List.length_map]
          exact .reduceTrees inner (by simpa using taken)
        · simp at stepped

theorem step_eq_next_iff {state next : MachineState} :
    machine.step state = .next next ↔ machine.Moves state next := by
  constructor
  · intro stepped
    obtain ⟨offset, operands, productions, made⟩ := state
    cases operands with
    | nil => simp [step] at stepped
    | cons operand below =>
        cases operand with
        | invoke callee =>
            cases callee with
            | endOfLine =>
                simp only [step, stepEndOfLine] at stepped
                split at stepped
                · rename_i ahead
                  obtain rfl := Step.next.inj stepped
                  exact .lineFeed (eq_of_beq ahead)
                · split at stepped
                  · rename_i ahead
                    obtain rfl := Step.next.inj stepped
                    exact .carriageReturn (eq_of_beq ahead)
                  · simp at stepped
            | rule id =>
                simp only [step, stepRule] at stepped
                split at stepped
                · simp at stepped
                · rename_i row present
                  split at stepped
                  · simp at stepped
                  · rename_i operations found
                    obtain rfl := Step.next.inj stepped
                    rw [List.length_map]
                    exact .rule present found
        | matchLiteral bytes =>
            obtain rfl := Step.next.inj stepped
            rw [List.length_map]
            exact .literal
        | endOfInput =>
            simp only [step, stepEndOfInput] at stepped
            split at stepped
            · split at stepped <;> simp at stepped
            · simp at stepped
        | reduce kind start count => exact moves_of_stepReduce stepped
        | matchByte byte =>
            simp only [step, stepByte] at stepped
            split at stepped
            · rename_i ahead
              obtain rfl := Step.next.inj stepped
              exact .byte (eq_of_beq ahead)
            · simp at stepped
  · intro moves
    cases moves with
    | lineFeed ahead => simp [step, stepEndOfLine, ahead, expand]
    | carriageReturn ahead => simp [step, stepEndOfLine, ahead, expand]
    | rule present found => simp [step, stepRule, present, found, expand]
    | literal => simp [step, expand]
    | byte ahead => simp [step, stepByte, ahead]
    | @reduceLiteral offset start count below productions made =>
        have popped := popEntries_append (List.replicate count Production.byte) [] productions
        rw [List.reverse_replicate, List.length_replicate, List.append_nil] at popped
        simp [step, stepReduce, popped, complete, Production.isByte]
    | reduceNothing inner => simp [step, stepReduce, popEntries, inner, complete]
    | @reduceTrees offset kind start trees below productions made inner nonempty =>
        have popped := popEntries_append (trees.map Production.tree) [] productions
        rw [List.length_map, List.append_nil] at popped
        have collected := mapM_tree?_eq_some_iff.mpr (rfl : trees.map Production.tree = _)
        simp [step, stepReduce, popped, inner, nonempty, collected, complete, -List.mapM_map]

/-- The ways in which the machine stops.  What a reduction does not find is left open. -/
inductive Stops (machine : Machine) : MachineState → Except Error ParseTree → Prop
  | accepted {offset below root made} : machine.lookahead offset = endOfInputByte →
      Stops machine ⟨offset, .endOfInput :: below, [.tree root], made⟩ (.ok ⟨root, made⟩)
  | trailing {offset below productions made} : machine.lookahead offset ≠ endOfInputByte →
      Stops machine ⟨offset, .endOfInput :: below, productions, made⟩
        (.error (.parse (.trailingInput (machine.lookahead offset) offset)))
  | noLineEnd {offset below productions made} : machine.lookahead offset ≠ 10 →
      machine.lookahead offset ≠ 13 →
      Stops machine ⟨offset, .invoke .endOfLine :: below, productions, made⟩
        (.error (machine.unexpected offset .endOfLine))
  | noRow {offset id below productions made} : machine.table.row? id = none →
      Stops machine ⟨offset, .invoke (.rule id) :: below, productions, made⟩
        (.error (.table (.missingRow (machine.names.nameOf (.rule id)))))
  | noCell {offset id below productions made row} : machine.table.row? id = some row →
      row.lookup (machine.lookahead offset) = none →
      Stops machine ⟨offset, .invoke (.rule id) :: below, productions, made⟩
        (.error (machine.unexpected offset (.rule (machine.names.nameOf (.rule id)))))
  | otherByte {offset byte below productions made} : machine.lookahead offset ≠ byte →
      Stops machine ⟨offset, .matchByte byte :: below, productions, made⟩
        (.error (machine.unexpected offset (.byte byte)))
  | vacant {offset productions made} :
      Stops machine ⟨offset, [], productions, made⟩ (.error (.table .inconsistentReduction))
  | unreduced {offset kind start count below productions made} :
      Stops machine ⟨offset, .reduce kind start count :: below, productions, made⟩
        (.error (.table .inconsistentReduction))
  | rootless {offset below productions made} : (∀ root, productions ≠ [.tree root]) →
      Stops machine ⟨offset, .endOfInput :: below, productions, made⟩
        (.error (.table .inconsistentReduction))

theorem eq_of_stepReduce_eq_stop {state : MachineState} {below : List Operand} {kind : NodeKind}
    {start count : Nat} {result : Except Error ParseTree}
    (stopped : stepReduce state below kind start count = .stop result) :
    result = .error (.table .inconsistentReduction) := by
  simp only [stepReduce, complete] at stopped
  split at stopped
  · exact (Step.stop.inj stopped).symm
  · split at stopped
    · split at stopped
      · simp at stopped
      · exact (Step.stop.inj stopped).symm
    · split at stopped
      · simp at stopped
      · split at stopped
        · simp at stopped
        · exact (Step.stop.inj stopped).symm

theorem stops_of_step {state : MachineState} {result : Except Error ParseTree}
    (stopped : machine.step state = .stop result) : machine.Stops state result := by
  obtain ⟨offset, operands, productions, made⟩ := state
  cases operands with
  | nil =>
      obtain rfl := Step.stop.inj stopped
      exact .vacant
  | cons operand below =>
      cases operand with
      | invoke callee =>
          cases callee with
          | endOfLine =>
              simp only [step, stepEndOfLine, expand] at stopped
              split at stopped
              · simp at stopped
              · rename_i notFeed
                split at stopped
                · simp at stopped
                · rename_i notReturn
                  obtain rfl := Step.stop.inj stopped
                  exact .noLineEnd (by simpa using notFeed) (by simpa using notReturn)
          | rule id =>
              simp only [step, stepRule, expand] at stopped
              split at stopped
              · rename_i missing
                obtain rfl := Step.stop.inj stopped
                exact .noRow missing
              · rename_i row present
                split at stopped
                · rename_i empty
                  obtain rfl := Step.stop.inj stopped
                  exact .noCell present empty
                · simp at stopped
      | matchLiteral bytes => simp [step, expand] at stopped
      | endOfInput =>
          simp only [step, stepEndOfInput] at stopped
          split at stopped
          · rename_i ends
            split at stopped
            · obtain rfl := Step.stop.inj stopped
              exact .accepted (eq_of_beq ends)
            · rename_i other
              obtain rfl := Step.stop.inj stopped
              exact .rootless other
          · rename_i ahead
            obtain rfl := Step.stop.inj stopped
            exact .trailing (by simpa using ahead)
      | reduce kind start count =>
          obtain rfl := eq_of_stepReduce_eq_stop stopped
          exact .unreduced
      | matchByte byte =>
          simp only [step, stepByte] at stopped
          split at stopped
          · simp at stopped
          · rename_i different
            obtain rfl := Step.stop.inj stopped
            exact .otherByte (by simpa using different)

theorem position?_unexpected (offset : Nat) (expected : Expected) :
    (machine.unexpected offset expected).position? = some offset := by
  unfold unexpected
  split <;> rfl

theorem Stops.position_eq {state : MachineState} {error : Error} {position : Nat}
    (stops : machine.Stops state (.error error)) (placed : error.position? = some position) :
    position = state.offset := by
  cases stops with
  | trailing _ => exact (Option.some.inj placed).symm
  | noLineEnd _ _ | noCell _ _ | otherByte _ =>
      exact (Option.some.inj ((position?_unexpected _ _).symm.trans placed)).symm
  | noRow _ | vacant | unreduced | rootless _ => simp [Error.position?] at placed

abbrev Steps (machine : Machine) : MachineState → MachineState → Prop :=
  Relation.ReflTransGen machine.Moves

theorem Moves.offset_le {state next : MachineState} (moves : machine.Moves state next) :
    state.offset ≤ next.offset := by
  cases moves with
  | byte => exact Nat.le_succ _
  | _ => exact Nat.le_refl _

theorem Steps.keeps {holds : MachineState → Prop}
    (kept : ∀ {state next}, machine.Moves state next → holds state → holds next)
    {state last : MachineState} (steps : machine.Steps state last) (begins : holds state) :
    holds last := by
  induction steps with
  | refl => exact begins
  | tail _ moves ih => exact kept moves ih

theorem Steps.offset_le {state last : MachineState} (steps : machine.Steps state last) :
    state.offset ≤ last.offset := by
  induction steps with
  | refl => exact Nat.le_refl _
  | tail _ moves ih => exact Nat.le_trans ih moves.offset_le

def rest (machine : Machine) (offset : Nat) : List UInt8 :=
  machine.input.toList.drop offset

theorem lookahead_eq (machine : Machine) (offset : Nat) :
    machine.lookahead offset = (machine.rest offset).headD endOfInputByte := by
  rw [lookahead, rest, List.headD_eq_head?_getD, List.head?_drop, Array.getElem?_toList]

theorem rest_add {offset : Nat} (text : List UInt8) {later : List UInt8}
    (ahead : machine.rest offset = text ++ later) :
    machine.rest (offset + text.length) = later := by
  rw [rest, ← List.drop_drop]
  change (machine.rest offset).drop text.length = later
  rw [ahead, List.drop_left]

theorem steps_bytes {bytes later : List UInt8} {offset : Nat}
    (ahead : machine.rest offset = bytes ++ later) (below : List Operand)
    (productions : List Production) (made : Nat) :
    machine.Steps ⟨offset, bytes.map .matchByte ++ below, productions, made⟩
      ⟨offset + bytes.length, below,
        List.replicate bytes.length .byte ++ productions, made⟩ := by
  induction bytes generalizing offset productions with
  | nil => exact .refl
  | cons byte bytes ih =>
      have here : machine.lookahead offset = byte := by
        rw [lookahead_eq, ahead]
        rfl
      have later := ih (rest_add [byte] ahead) (.byte :: productions)
      rw [List.length_cons, List.replicate_succ', List.append_assoc, List.singleton_append,
        Nat.add_comm bytes.length 1, ← Nat.add_assoc]
      exact .head (.byte here) later

theorem steps_literal (bytes : List UInt8) {later : List UInt8} {offset : Nat}
    (ahead : machine.rest offset = bytes ++ later) (below : List Operand)
    (productions : List Production) (made : Nat) :
    machine.Steps ⟨offset, .matchLiteral bytes :: below, productions, made⟩
      ⟨offset + bytes.length, below,
        .tree (.node made .literal ⟨offset, offset + bytes.length⟩ []) :: productions,
        made + 1⟩ :=
  .head .literal ((steps_bytes ahead _ _ _).tail .reduceLiteral)

theorem steps_lineFeed {later : List UInt8} {offset : Nat}
    (ahead : machine.rest offset = 10 :: later) (below : List Operand)
    (productions : List Production) (made : Nat) :
    machine.Steps ⟨offset, .invoke .endOfLine :: below, productions, made⟩
      ⟨offset + 1, below,
        .tree (.node (made + 1) .endOfLine ⟨offset, offset + 1⟩
          [.node made .literal ⟨offset, offset + 1⟩ []]) :: productions, made + 2⟩ := by
  have here : machine.lookahead offset = 10 := by
    rw [lookahead_eq, ahead]
    rfl
  have read := steps_literal [10] ahead (.reduce .endOfLine offset 1 :: below) productions made
  exact .head (.lineFeed here)
    (read.tail (.reduceTrees NodeKind.noConfusion (List.cons_ne_nil _ [])))

theorem steps_carriageReturn {later : List UInt8} {offset : Nat}
    (ahead : machine.rest offset = 13 :: 10 :: later) (below : List Operand)
    (productions : List Production) (made : Nat) :
    machine.Steps ⟨offset, .invoke .endOfLine :: below, productions, made⟩
      ⟨offset + 2, below,
        .tree (.node (made + 2) .endOfLine ⟨offset, offset + 2⟩
          [.node made .literal ⟨offset, offset + 1⟩ [],
            .node (made + 1) .literal ⟨offset + 1, offset + 2⟩ []]) :: productions,
        made + 3⟩ := by
  have here : machine.lookahead offset = 13 := by
    rw [lookahead_eq, ahead]
    rfl
  have first := steps_literal [13] ahead
    (.matchLiteral [10] :: .reduce .endOfLine offset 2 :: below) productions made
  have second := steps_literal [10] (rest_add [13] ahead)
    (.reduce .endOfLine offset 2 :: below)
    (.tree (.node made .literal ⟨offset, offset + 1⟩ []) :: productions) (made + 1)
  exact .head (.carriageReturn here) ((first.trans second).tail
    (.reduceTrees NodeKind.noConfusion (List.cons_ne_nil _ [_])))

/-! ### Runs -/

theorem run_of_moves {state next : MachineState} (fresh : machine.reenters state = false)
    (moves : machine.Moves state next) : machine.run state = machine.run next := by
  have stepped := step_eq_next_iff.mpr moves
  rw [run, dif_neg (by simp [fresh])]
  split
  · rename_i result stopped
    simp [stopped] at stepped
  · rename_i other went
    obtain rfl := Step.next.inj (went.symm.trans stepped)
    rfl

theorem run_of_stop {state : MachineState} {result : Except Error ParseTree}
    (fresh : machine.reenters state = false) (stopped : machine.step state = .stop result) :
    machine.run state = some result := by
  rw [run, dif_neg (by simp [fresh])]
  split
  · rename_i other same
    obtain rfl := Step.stop.inj (same.symm.trans stopped)
    rfl
  · rename_i next went
    simp [stopped] at went

theorem run_of_steps {state last : MachineState} {result : Except Error ParseTree}
    (fresh : ∀ between, machine.Steps state between → machine.reenters between = false)
    (steps : machine.Steps state last) (stopped : machine.step last = .stop result) :
    machine.run state = some result := by
  induction steps using Relation.ReflTransGen.head_induction_on with
  | refl => exact run_of_stop (fresh _ .refl) stopped
  | head moves _ ih =>
      rw [run_of_moves (fresh _ .refl) moves]
      exact ih fun between reached => fresh between (.head moves reached)

/-- A run that never meets an open rule again stops, in a state that it reaches. -/
theorem exists_stop {state : MachineState}
    (fresh : ∀ between, machine.Steps state between → machine.reenters between = false) :
    ∃ last result, machine.Steps state last ∧ machine.step last = .stop result ∧
      machine.run state = some result := by
  fun_induction machine.run state with
  | case1 state reenters => simp [fresh state .refl] at reenters
  | case2 state _ result stopped => exact ⟨state, result, .refl, stopped, rfl⟩
  | case3 state _ next stepped ih =>
      have moves := step_eq_next_iff.mp stepped
      obtain ⟨last, result, steps, stopped, same⟩ := ih fun between reached =>
        fresh between (.head moves reached)
      exact ⟨last, result, .head moves steps, stopped, same⟩

end Machine

end Lookahead
