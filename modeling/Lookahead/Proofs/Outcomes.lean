import Lookahead.Engine.Parser
import Lookahead.Proofs.Execution

/-!
What a parse comes to, for any table: a defect that is seen before the first step, or what the
machine stops with.
-/

namespace Lookahead

def Row.uniform (operations : List Operation) : Row :=
  ⟨#[operations], Vector.replicate 256 (some 0)⟩

theorem Row.lookup_uniform (operations : List Operation) (byte : UInt8) :
    (uniform operations).lookup byte = some operations := by
  simp [uniform, lookup, cell, Cells.entry, Vector.get]

def Table.Offers (table : Table) (operation : Operation) : Prop :=
  ∃ id row byte operations, table.row? id = some row ∧ row.lookup byte = some operations ∧
    operation ∈ operations

theorem Table.Offers.mem_operations {table : Table} {operation : Operation}
    (offers : table.Offers operation) : operation ∈ table.operations := by
  obtain ⟨id, row, byte, operations, present, found, member⟩ := offers
  obtain ⟨before, after, same⟩ := Table.mem_operations present found
  rw [same]
  exact List.mem_append_left after (List.mem_append_right before member)

theorem Table.isEmpty_eq_false {table : Table} {id : Nat} {row : Row}
    (present : table.row? id = some row) : table.isEmpty = false := by
  obtain ⟨place, found⟩ : ∃ place : Nat, table.rows.toList[place]? = some (some row) := by
    simp only [row?, Option.join_eq_some_iff] at present
    exact ⟨id, by rwa [Array.getElem?_toList]⟩
  have member : (place, row) ∈ table.presentRows := by
    refine List.mem_filterMap.mpr ⟨(some row, place), ?_, rfl⟩
    exact List.mem_zipIdx_iff_getElem?.mpr found
  simpa [isEmpty, size] using List.ne_nil_of_mem member

theorem Table.isEmpty_iff {table : Table} :
    table.isEmpty = true ↔ ∀ id, table.row? id = none := by
  constructor
  · intro vacant id
    cases present : table.row? id with
    | none => rfl
    | some row => simp [isEmpty_eq_false present] at vacant
  · intro absent
    rw [isEmpty, size, beq_iff_eq, List.length_eq_zero_iff, presentRows,
      List.filterMap_eq_nil_iff]
    rintro ⟨row, id⟩ member
    have stored := List.mem_zipIdx_iff_getElem?.mp member
    have here := absent id
    rw [row?, ← Array.getElem?_toList, stored] at here
    simpa using here

namespace Machine

variable {machine : Machine}

theorem unexpected_cases (machine : Machine) (offset : Nat) (expected : Expected) :
    (∃ inside : offset < machine.input.size, machine.unexpected offset expected =
        .parse (.unexpectedByte expected machine.input[offset] offset)) ∨
      (machine.input.size ≤ offset ∧ machine.unexpected offset expected =
        .parse (.unexpectedEndOfInput expected offset)) := by
  rw [unexpected]
  by_cases inside : offset < machine.input.size
  · left
    exact ⟨inside, by rw [Array.getElem?_eq_getElem inside]⟩
  · right
    exact ⟨Nat.le_of_not_lt inside, by rw [Array.getElem?_eq_none (Nat.le_of_not_lt inside)]⟩

theorem exists_unexpected (machine : Machine) (offset : Nat) (expected : Expected) :
    ∃ error, machine.unexpected offset expected = .parse error := by
  rcases machine.unexpected_cases offset expected with ⟨_, same⟩ | ⟨_, same⟩
  · exact ⟨_, same⟩
  · exact ⟨_, same⟩

theorem exists_steps_of_run {state : MachineState} {result : Except Error ParseTree}
    (ran : machine.run state = some result) :
    ∃ last, machine.Steps state last ∧ machine.step last = .stop result := by
  fun_induction machine.run state with
  | case1 => simp at ran
  | case2 state _ other stopped =>
      obtain rfl := Option.some.inj ran
      exact ⟨state, .refl, stopped⟩
  | case3 state _ next stepped ih =>
      obtain ⟨last, steps, stopped⟩ := ih ran
      exact ⟨last, .head (step_eq_next_iff.mp stepped) steps, stopped⟩

theorem parse_eq_run (machine : Machine) {row : Row} (present : machine.table.row? 0 = some row)
    (unreserved : endOfInputByte ∉ machine.input.toList) :
    machine.parse = machine.run initial := by
  have free : machine.input.findIdx? (· == endOfInputByte) = none := by
    rw [Array.findIdx?_eq_none_iff]
    intro byte member
    exact beq_eq_false_iff_ne.mpr fun reserved =>
      unreserved (reserved ▸ Array.mem_toList_iff.mpr member)
  simp [parse, Table.isEmpty_eq_false present, present, free]

/-- The ways in which a parse ends before the first step, or else goes on to a run. -/
inductive Outcome (machine : Machine) : Option (Except Error ParseTree) → Prop
  | emptyTable : machine.table.isEmpty = true →
      Outcome machine (some (.error (.table .emptyTable)))
  | noStartRule : machine.table.isEmpty = false → machine.table.row? 0 = none →
      Outcome machine (some (.error (.table .noStartRule)))
  | reserved {offset : Nat} : (inside : offset < machine.input.size) →
      machine.input[offset] = endOfInputByte →
      Outcome machine (some (.error (.parse (.reservedByte offset))))
  | runs : endOfInputByte ∉ machine.input.toList → Outcome machine (machine.run initial)

theorem outcome_parse (machine : Machine) : machine.Outcome machine.parse := by
  rw [parse]
  by_cases vacant : machine.table.isEmpty = true
  · rw [if_pos vacant]
    exact .emptyTable vacant
  · rw [if_neg vacant]
    by_cases absent : (machine.table.row? 0).isNone = true
    · rw [if_pos absent]
      exact .noStartRule (by simpa using vacant) (by simpa using absent)
    · rw [if_neg absent]
      split
      · rename_i offset found
        obtain ⟨inside, here, _⟩ := Array.findIdx?_eq_some_iff_getElem.mp found
        exact .reserved inside (by simpa using here)
      · rename_i free
        refine .runs fun member => ?_
        rw [Array.findIdx?_eq_none_iff] at free
        simpa using free _ (Array.mem_toList_iff.mp member)

theorem exists_steps_of_parse {tree : ParseTree} (parsed : machine.parse = some (.ok tree)) :
    endOfInputByte ∉ machine.input.toList ∧
      ∃ last, machine.Steps initial last ∧ machine.step last = .stop (.ok tree) := by
  have outcome := machine.outcome_parse
  rw [parsed] at outcome
  generalize same : some (Except.ok tree) = result at outcome
  cases outcome with
  | emptyTable | noStartRule | reserved => simp at same
  | runs unreserved => exact ⟨unreserved, exists_steps_of_run same.symm⟩

end Machine

end Lookahead
