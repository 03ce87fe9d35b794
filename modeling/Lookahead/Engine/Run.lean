import Lookahead.Engine.Progress

/-!
Running the machine.
-/

namespace Lookahead.Machine

theorem stackCost_expand (machine : Machine) {offset : Nat} {below : List Operand}
    {kind : NodeKind} {operands : List Operand} {operand : Operand}
    (plain : ∀ other ∈ operands, isPlain other = true)
    (cheaper : costs (machine.table.invocationCost
        (machine.ruleRoom offset (.reduce kind offset operands.length :: below))) operands + 1 <
      operandCost (machine.table.invocationCost (machine.ruleRoom offset below)) operand) :
    machine.stackCost offset (operands ++ .reduce kind offset operands.length :: below) <
      machine.stackCost offset (operand :: below) := by
  rw [machine.stackCost_append_plain offset operands _ plain]
  simp only [stackCost, operandCost] at *
  omega

theorem isPlain_operand (operation : Operation) : isPlain operation.operand = true := by
  cases operation <;> rfl

theorem costs_matchByte (invocation : Nat) (bytes : List UInt8) :
    costs invocation (bytes.map .matchByte) = bytes.length := by
  induction bytes with
  | nil => rfl
  | cons byte rest ih => simp [costs, operandCost, ih, Nat.add_comm]

theorem measure_expand_lt (machine : Machine) {state next : MachineState} {operand : Operand}
    {below operands : List Operand} {kind : NodeKind} (onTop : state.operands = operand :: below)
    (plain : ∀ other ∈ operands, isPlain other = true)
    (cheaper : costs (machine.table.invocationCost (machine.ruleRoom state.offset
        (.reduce kind state.offset operands.length :: below))) operands + 1 <
      operandCost (machine.table.invocationCost (machine.ruleRoom state.offset below)) operand)
    (expanded : expand state below kind operands = .next next) :
    Prod.Lex (· < ·) (· < ·) (machine.measure next) (machine.measure state) := by
  simp only [expand, Step.next.injEq] at expanded
  subst expanded
  simp only [measure, onTop]
  exact Prod.Lex.right _ (machine.stackCost_expand plain cheaper)

theorem measure_stepEndOfLine_lt (machine : Machine) {state next : MachineState}
    {below : List Operand} (onTop : state.operands = .invoke .endOfLine :: below)
    (stepped : machine.stepEndOfLine state below = .next next) :
    Prod.Lex (· < ·) (· < ·) (machine.measure next) (machine.measure state) := by
  simp only [stepEndOfLine] at stepped
  split at stepped
  · exact machine.measure_expand_lt onTop (by simp [isPlain]) (by simp [costs, operandCost]) stepped
  · split at stepped
    · exact machine.measure_expand_lt onTop (by simp [isPlain]) (by simp [costs, operandCost])
        stepped
    · simp at stepped

theorem measure_stepRule_lt (machine : Machine) {state next : MachineState}
    {below : List Operand} {id : Nat} (onTop : state.operands = .invoke (.rule id) :: below)
    (closed : (machine.openRules state.offset below).contains id = false)
    (stepped : machine.stepRule state below id = .next next) :
    Prod.Lex (· < ·) (· < ·) (machine.measure next) (machine.measure state) := by
  simp only [stepRule] at stepped
  split at stepped
  · simp at stepped
  · rename_i row present
    split at stepped
    · simp at stepped
    · rename_i operations found
      have less := machine.ruleRoom_open_lt (operations.map Operation.operand).length
        (Table.lt_size_of_row? present) closed
      refine machine.measure_expand_lt onTop ?_
        (machine.table.costs_lt_invocationCost less present found) stepped
      intro other member
      obtain ⟨operation, _, rfl⟩ := List.mem_map.mp member
      exact isPlain_operand operation

theorem measure_stepByte_lt (machine : Machine) {state next : MachineState}
    {below : List Operand} {byte : UInt8} (onTop : state.operands = .matchByte byte :: below)
    (stepped : machine.stepByte state below byte = .next next) :
    Prod.Lex (· < ·) (· < ·) (machine.measure next) (machine.measure state) := by
  simp only [stepByte] at stepped
  split at stepped
  · simp only [Step.next.injEq] at stepped
    subst stepped
    simp only [measure, onTop]
    -- Behind the input no byte is consumed, but the operand is.
    rcases machine.clamp_succ state.offset with read | ⟨same, clamped⟩
    · exact Prod.Lex.left _ _ read
    · rw [same, machine.stackCost_congr clamped]
      exact Prod.Lex.right _ (by simp [stackCost, operandCost])
  · simp at stepped

theorem offset_operands_of_stepReduce {state next : MachineState} {below : List Operand}
    {kind : NodeKind} {start count : Nat}
    (stepped : stepReduce state below kind start count = .next next) :
    next.offset = state.offset ∧ next.operands = below := by
  have completed {productions : List Production} {serial : Nat} {children : List Tree}
      (stepped : complete state below productions kind start serial children = .next next) :
      next.offset = state.offset ∧ next.operands = below := by
    simp only [complete, Step.next.injEq] at stepped
    subst stepped
    exact ⟨rfl, rfl⟩
  simp only [stepReduce] at stepped
  split at stepped
  · simp at stepped
  · split at stepped
    · split at stepped
      · exact completed stepped
      · simp at stepped
    · split at stepped
      · exact completed stepped
      · split at stepped
        · exact completed stepped
        · simp at stepped

theorem measure_stepReduce_lt (machine : Machine) {state next : MachineState}
    {below : List Operand} {kind : NodeKind} {start count : Nat}
    (onTop : state.operands = .reduce kind start count :: below)
    (stepped : stepReduce state below kind start count = .next next) :
    Prod.Lex (· < ·) (· < ·) (machine.measure next) (machine.measure state) := by
  obtain ⟨sameOffset, rest⟩ := offset_operands_of_stepReduce stepped
  simp only [measure, sameOffset, rest, onTop]
  exact Prod.Lex.right _ (by simp [stackCost, operandCost])

theorem measure_step_lt (machine : Machine) {state next : MachineState}
    (fresh : machine.reenters state = false) (stepped : machine.step state = .next next) :
    Prod.Lex (· < ·) (· < ·) (machine.measure next) (machine.measure state) := by
  obtain ⟨offset, operands, productions, nodeCount⟩ := state
  cases operands with
  | nil => simp [step] at stepped
  | cons operand below =>
    cases operand with
    | invoke callee =>
      cases callee with
      | endOfLine => exact machine.measure_stepEndOfLine_lt rfl stepped
      | rule id => exact machine.measure_stepRule_lt rfl fresh stepped
    | matchLiteral bytes =>
      refine machine.measure_expand_lt rfl (by simp [isPlain]) ?_ stepped
      rw [costs_matchByte]
      simp only [operandCost]
      omega
    | endOfInput =>
      simp only [step, stepEndOfInput] at stepped
      split at stepped
      · split at stepped <;> simp at stepped
      · simp at stepped
    | reduce kind start count => exact machine.measure_stepReduce_lt rfl stepped
    | matchByte byte => exact machine.measure_stepByte_lt rfl stepped

/-- Steps until the machine stops; there is no result where it would not stop. -/
def run (machine : Machine) (state : MachineState) : Option (Except Error ParseTree) :=
  if _reenters : machine.reenters state = true then none
  else
    match _stepped : machine.step state with
    | .stop result => some result
    | .next next => run machine next
termination_by machine.measure state
decreasing_by exact machine.measure_step_lt (by simpa using _reenters) _stepped

end Lookahead.Machine
