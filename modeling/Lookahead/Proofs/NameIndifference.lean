import Lookahead.Proofs.Divergence
import Lookahead.Proofs.NameResolution

/-!
Names are shown and never looked at.  Machines over the same table and input go in lock step
whatever their names are: they stop after the same number of steps, with the same tree or with
errors that differ at most in the name under which the same rule is shown.  As the reserved names
are those of no rule, it makes no difference whether they are added before a parse or after it.
-/

namespace Lookahead

/-! ### Other names -/

inductive Expected.Renamed (names others : NameMap) : Expected → Expected → Prop
  | rule (id : Nat) :
      Renamed names others (.rule (names.nameOf (.rule id))) (.rule (others.nameOf (.rule id)))
  | same (expected : Expected) : Renamed names others expected expected

inductive Error.Renamed (names others : NameMap) : Error → Error → Prop
  | unexpectedByte {expected other : Expected} (got : UInt8) (offset : Nat) :
      expected.Renamed names others other →
      Renamed names others (.parse (.unexpectedByte expected got offset))
        (.parse (.unexpectedByte other got offset))
  | unexpectedEndOfInput {expected other : Expected} (offset : Nat) :
      expected.Renamed names others other →
      Renamed names others (.parse (.unexpectedEndOfInput expected offset))
        (.parse (.unexpectedEndOfInput other offset))
  | missingRow (id : Nat) :
      Renamed names others (.table (.missingRow (names.nameOf (.rule id))))
        (.table (.missingRow (others.nameOf (.rule id))))
  | same (error : Error) : Renamed names others error error

/-- The same tree, or the same error up to names. -/
inductive Answers (names others : NameMap) :
    Except Error ParseTree → Except Error ParseTree → Prop
  | tree (tree : ParseTree) : Answers names others (.ok tree) (.ok tree)
  | failure {error other : Error} : error.Renamed names others other →
      Answers names others (.error error) (.error other)

theorem Answers.refl (names others : NameMap) (result : Except Error ParseTree) :
    Answers names others result result := by
  cases result with
  | ok tree => exact .tree tree
  | error error => exact .failure (.same error)

inductive Step.Renamed (names others : NameMap) : Step → Step → Prop
  | next (state : MachineState) : Renamed names others (.next state) (.next state)
  | stop {result other : Except Error ParseTree} : Answers names others result other →
      Renamed names others (.stop result) (.stop other)

theorem Step.Renamed.refl (names others : NameMap) (step : Step) :
    step.Renamed names others step := by
  cases step with
  | next state => exact .next state
  | stop result => exact .stop (.refl names others result)

/-! ### Maps that name the rules alike -/

section Agree

variable {names others : NameMap}

theorem Expected.Renamed.eq (agree : ∀ id, names.nameOf (.rule id) = others.nameOf (.rule id))
    {expected other : Expected} (renamed : expected.Renamed names others other) :
    expected = other := by
  cases renamed with
  | rule id => rw [agree]
  | same => rfl

theorem Answers.eq (agree : ∀ id, names.nameOf (.rule id) = others.nameOf (.rule id))
    {result other : Except Error ParseTree} (answers : Answers names others result other) :
    result = other := by
  cases answers with
  | tree => rfl
  | failure renamed =>
      cases renamed with
      | unexpectedByte got offset expected => rw [expected.eq agree]
      | unexpectedEndOfInput offset expected => rw [expected.eq agree]
      | missingRow id => rw [agree]
      | same => rfl

end Agree

theorem NameMap.nameOf_withBuiltins_rule (names : NameMap) (id : Nat) :
    names.withBuiltins.nameOf (.rule id) = names.nameOf (.rule id) := by
  rw [nameOf, nameOf, get?_withBuiltins_rule]

/-! ### Lock step -/

namespace Machine

variable (table : Table) (names others : NameMap) (input : Array UInt8)

theorem unexpected_renamed {expected other : Expected}
    (renamed : expected.Renamed names others other) (offset : Nat) :
    (unexpected ⟨table, names, input⟩ offset expected).Renamed names others
      (unexpected ⟨table, others, input⟩ offset other) := by
  simp only [unexpected]
  cases input[offset]? with
  | some got => exact .unexpectedByte got offset renamed
  | none => exact .unexpectedEndOfInput offset renamed

theorem stepRule_renamed (state : MachineState) (below : List Operand) (id : Nat) :
    (stepRule ⟨table, names, input⟩ state below id).Renamed names others
      (stepRule ⟨table, others, input⟩ state below id) := by
  simp only [stepRule, lookahead]
  cases table.row? id with
  | none => exact .stop (.failure (.missingRow id))
  | some row =>
      dsimp only
      cases row.lookup (input[state.offset]?.getD endOfInputByte) with
      | none =>
          have failure := unexpected_renamed table names others input (.rule id) state.offset
          exact .stop (.failure failure)
      | some operations => exact .refl names others _

/-- Only the invocation of a rule can show a name, and then it stops. -/
theorem step_renamed (state : MachineState) :
    (step ⟨table, names, input⟩ state).Renamed names others
      (step ⟨table, others, input⟩ state) := by
  obtain ⟨offset, operands, productions, made⟩ := state
  cases operands with
  | nil => exact .refl names others _
  | cons operand below =>
      cases operand with
      | invoke callee =>
          cases callee with
          | rule id => exact stepRule_renamed table names others input _ below id
          | endOfLine => exact .refl names others _
      | _ => exact .refl names others _

theorem after_renamed (count : Nat) (state : MachineState) :
    (after ⟨table, names, input⟩ count state).Renamed names others
      (after ⟨table, others, input⟩ count state) := by
  induction count generalizing state with
  | zero => exact .next state
  | succ count ih =>
      have first := step_renamed table names others input state
      simp only [after]
      generalize step ⟨table, names, input⟩ state = one at first ⊢
      generalize step ⟨table, others, input⟩ state = two at first ⊢
      cases first with
      | next later => exact ih later
      | stop answers => exact .stop answers

theorem run_renamed :
    Option.Rel (Answers names others) (run ⟨table, names, input⟩ initial)
      (run ⟨table, others, input⟩ initial) := by
  have together := after_renamed table names others input
  cases outcome : run ⟨table, names, input⟩ initial with
  | none =>
      have goesOn := (run_eq_none_iff .refl).mp outcome
      have alsoGoesOn : run ⟨table, others, input⟩ initial = none := by
        rw [run_eq_none_iff .refl]
        intro count
        obtain ⟨later, went⟩ := goesOn count
        have both := together count initial
        rw [went] at both
        generalize after ⟨table, others, input⟩ count initial = last at both ⊢
        cases both with
        | next => exact ⟨later, rfl⟩
      rw [alsoGoesOn]
      exact .none
  | some result =>
      obtain ⟨count, stopped⟩ := (run_eq_some_iff .refl).mp outcome
      have both := together count initial
      rw [stopped] at both
      generalize otherStop : after ⟨table, others, input⟩ count initial = last at both
      cases both with
      | stop answers =>
          rw [(run_eq_some_iff .refl).mpr ⟨count, otherStop⟩]
          exact .some answers

theorem parse_renamed :
    Option.Rel (Answers names others) (parse ⟨table, names, input⟩)
      (parse ⟨table, others, input⟩) := by
  simp only [parse]
  split
  · exact .some (.refl names others _)
  · split
    · exact .some (.refl names others _)
    · split
      · exact .some (.refl names others _)
      · exact run_renamed table names others input

theorem parse_eq_of_nameOf_eq
    (agree : ∀ id, names.nameOf (.rule id) = others.nameOf (.rule id)) :
    parse ⟨table, names, input⟩ = parse ⟨table, others, input⟩ := by
  have related := parse_renamed table names others input
  generalize parse ⟨table, names, input⟩ = result at related ⊢
  generalize parse ⟨table, others, input⟩ = other at related ⊢
  cases related with
  | none => rfl
  | some answers => rw [answers.eq agree]

end Machine

/-- Whatever the table and the input, other names change neither when the machine stops nor the
tree that it stops with, nor an error but for the name of the rule that it shows; nor does it stop
under one map of names and go on for ever under another.  So a parse with a bare table is the parse
of the parser that holds the table: the same tree or the same error, and the same names. -/
theorem names_never_influence_parsing :
    (∀ (table : Table) (names others : NameMap) (input : Array UInt8),
      (∀ count, (Machine.after ⟨table, names, input⟩ count Machine.initial).Renamed names others
        (Machine.after ⟨table, others, input⟩ count Machine.initial)) ∧
      Option.Rel (Answers names others) (Machine.parse ⟨table, names, input⟩)
        (Machine.parse ⟨table, others, input⟩)) ∧
    ∀ (table : Table) (names : NameMap) (input : Array UInt8),
      table.parse names input = ((Parser.ofTable table names).parse input).map
        (Except.map fun tree => (tree, (Parser.ofTable table names).names)) := by
  constructor
  · intro table names others input
    constructor
    · intro count
      exact Machine.after_renamed table names others input count Machine.initial
    · exact Machine.parse_renamed table names others input
  · intro table names input
    have same : Machine.parse ⟨table, names, input⟩ =
        Machine.parse ⟨table, names.withBuiltins, input⟩ := by
      apply Machine.parse_eq_of_nameOf_eq
      intro id
      exact (names.nameOf_withBuiltins_rule id).symm
    rw [Table.parse, Parser.parse, same]
    rfl

end Lookahead
