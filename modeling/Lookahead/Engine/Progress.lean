import Lookahead.Engine.Machine

/-!
Why the machine gets on.  Between two bytes of the input a rule can only be invoked below rules
that are not open yet, so invocations nest no deeper than the table has rows.  That bounds the
number of steps: `stackCost` goes down in each step that reads no byte of the input.
-/

namespace Lookahead

def Table.operations (table : Table) : List Operation :=
  table.rows.toList.flatMap fun
    | some row => row.alternatives.toList.flatten
    | none => []

theorem Table.mem_operations {table : Table} {id : Nat} {row : Row} {operations : List Operation}
    {byte : UInt8} (present : table.row? id = some row)
    (found : row.lookup byte = some operations) :
    ∃ before after, table.operations = before ++ operations ++ after := by
  have inTable : some row ∈ table.rows.toList := by
    simp only [row?, Option.join_eq_some_iff] at present
    exact Array.mem_toList_iff.mpr (Array.mem_of_getElem? present)
  have inRow : operations ∈ row.alternatives.toList := by
    simp only [Row.lookup, Option.bind_eq_some_iff] at found
    obtain ⟨place, _, found⟩ := found
    exact Array.mem_toList_iff.mpr (Array.mem_of_getElem? found)
  obtain ⟨rowsBefore, rowsAfter, rowsEq⟩ := List.append_of_mem inTable
  obtain ⟨before, after, rowEq⟩ := List.append_of_mem inRow
  refine ⟨rowsBefore.flatMap (fun | some row => row.alternatives.toList.flatten | none => []) ++
    before.flatten, after.flatten ++
    rowsAfter.flatMap (fun | some row => row.alternatives.toList.flatten | none => []), ?_⟩
  simp [Table.operations, rowsEq, rowEq]

theorem Table.lt_size_of_row? {table : Table} {id : Nat} {row : Row}
    (present : table.row? id = some row) : id < table.rows.size := by
  simp only [row?, Option.join_eq_some_iff] at present
  exact (Array.getElem?_eq_some_iff.mp present).1

def operandCost (invocation : Nat) : Operand → Nat
  | .invoke (.rule _) => invocation
  | .invoke .endOfLine => 8
  | .matchLiteral bytes => bytes.length + 2
  | .endOfInput | .reduce .. | .matchByte _ => 1

theorem operandCost_mono {low high : Nat} (le : low ≤ high) (operand : Operand) :
    operandCost low operand ≤ operandCost high operand := by
  unfold operandCost
  split <;> omega

def costs (invocation : Nat) : List Operand → Nat
  | [] => 0
  | operand :: rest => operandCost invocation operand + costs invocation rest

theorem costs_append (invocation : Nat) (left right : List Operand) :
    costs invocation (left ++ right) = costs invocation left + costs invocation right := by
  induction left with
  | nil => simp [costs]
  | cons operand rest ih => simp [costs, ih, Nat.add_assoc]

theorem costs_mono {low high : Nat} (le : low ≤ high) (operands : List Operand) :
    costs low operands ≤ costs high operands := by
  induction operands with
  | nil => exact Nat.le_refl _
  | cons operand rest ih => exact Nat.add_le_add (operandCost_mono le operand) ih

/-- A bound for the steps of an invocation below which `room` more rules can be invoked. -/
def Table.invocationCost (table : Table) : Nat → Nat
  | 0 => 1
  | room + 1 => 2 + costs (table.invocationCost room) (table.operations.map Operation.operand)

theorem Table.invocationCost_mono_succ (table : Table) (room : Nat) :
    table.invocationCost room ≤ table.invocationCost (room + 1) := by
  induction room with
  | zero => simp only [invocationCost]; omega
  | succ room ih =>
    have := costs_mono ih (table.operations.map Operation.operand)
    simp only [invocationCost] at *
    omega

theorem Table.invocationCost_mono (table : Table) {low high : Nat} (le : low ≤ high) :
    table.invocationCost low ≤ table.invocationCost high := by
  induction le with
  | refl => exact Nat.le_refl _
  | step _ ih => exact Nat.le_trans ih (table.invocationCost_mono_succ _)

theorem Table.costs_lt_invocationCost (table : Table) {inner outer id : Nat} {row : Row}
    {operations : List Operation} {byte : UInt8} (less : inner < outer)
    (present : table.row? id = some row) (found : row.lookup byte = some operations) :
    costs (table.invocationCost inner) (operations.map Operation.operand) + 1 <
      table.invocationCost outer := by
  obtain ⟨before, after, all⟩ := mem_operations present found
  cases outer with
  | zero => omega
  | succ room =>
    have mono := costs_mono (table.invocationCost_mono (Nat.le_of_lt_succ less))
      (operations.map Operation.operand)
    simp only [invocationCost, all, List.map_append, costs_append]
    omega

namespace Machine

def ruleRoom (machine : Machine) (offset : Nat) (operands : List Operand) : Nat :=
  (List.range machine.table.rows.size).countP fun id =>
    !(machine.openRules offset operands).contains id

/-- A bound for the steps until the stack is empty or a byte of the input is read. -/
def stackCost (machine : Machine) (offset : Nat) : List Operand → Nat
  | [] => 0
  | operand :: below =>
    operandCost (machine.table.invocationCost (machine.ruleRoom offset below)) operand +
      machine.stackCost offset below

def isPlain : Operand → Bool
  | .reduce .. => false
  | _ => true

theorem openRules_cons_plain (machine : Machine) (offset : Nat) {operand : Operand}
    (plain : isPlain operand = true) (below : List Operand) :
    machine.openRules offset (operand :: below) = machine.openRules offset below := by
  cases operand <;> simp_all [isPlain, openRules]

theorem openRules_append_plain (machine : Machine) (offset : Nat) (operands below : List Operand)
    (plain : ∀ operand ∈ operands, isPlain operand = true) :
    machine.openRules offset (operands ++ below) = machine.openRules offset below := by
  induction operands with
  | nil => rfl
  | cons operand rest ih =>
    rw [List.cons_append, machine.openRules_cons_plain offset (plain operand (by simp)),
      ih fun other member => plain other (by simp [member])]

theorem stackCost_append_plain (machine : Machine) (offset : Nat) (operands below : List Operand)
    (plain : ∀ operand ∈ operands, isPlain operand = true) :
    machine.stackCost offset (operands ++ below) =
      costs (machine.table.invocationCost (machine.ruleRoom offset below)) operands +
        machine.stackCost offset below := by
  induction operands with
  | nil => simp [costs]
  | cons operand rest ih =>
    have restPlain : ∀ other ∈ rest, isPlain other = true :=
      fun other member => plain other (by simp [member])
    have sameRoom : machine.ruleRoom offset (rest ++ below) = machine.ruleRoom offset below := by
      simp [ruleRoom, machine.openRules_append_plain offset rest below restPlain]
    simp only [List.cons_append, stackCost, sameRoom, ih restPlain, costs]
    omega

theorem openRules_congr (machine : Machine) {left right : Nat}
    (same : machine.clamp left = machine.clamp right) (operands : List Operand) :
    machine.openRules left operands = machine.openRules right operands := by
  fun_induction machine.openRules left operands <;> simp_all [openRules]

theorem stackCost_congr (machine : Machine) {left right : Nat}
    (same : machine.clamp left = machine.clamp right) (operands : List Operand) :
    machine.stackCost left operands = machine.stackCost right operands := by
  induction operands with
  | nil => rfl
  | cons operand below ih =>
    simp only [stackCost, ruleRoom, machine.openRules_congr same, ih]

theorem ruleRoom_open_lt (machine : Machine) {offset id : Nat} (count : Nat) {below : List Operand}
    (bound : id < machine.table.rows.size)
    (closed : (machine.openRules offset below).contains id = false) :
    machine.ruleRoom offset (.reduce (.rule id) offset count :: below) <
      machine.ruleRoom offset below := by
  apply countP_lt_countP (List.mem_range.mpr bound)
  · simp +contextual [openRules]
  · simpa using closed
  · simp [openRules]

theorem clamp_succ (machine : Machine) (offset : Nat) :
    machine.input.size - (offset + 1) < machine.input.size - offset ∨
      (machine.input.size - (offset + 1) = machine.input.size - offset ∧
        machine.clamp (offset + 1) = machine.clamp offset) := by
  simp only [clamp]
  omega

/-- The order in which the machine gets on: first by the bytes still ahead, then by the cost of
the stack. -/
def measure (machine : Machine) (state : MachineState) : Nat × Nat :=
  (machine.input.size - state.offset, machine.stackCost state.offset state.operands)

end Machine

end Lookahead
