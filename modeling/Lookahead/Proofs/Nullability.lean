import Lookahead.Analysis.Nullable
import Lookahead.Proofs.Resolution
import Lookahead.Proofs.Stability

/-!
The rules marked as nullable are those that derive the empty text.
-/

namespace Lookahead.Resolved

variable {n : Nat} {grammar : Resolved n}

def Nullable (grammar : Resolved n) (symbols : List (ResolvedSymbol n)) : Prop :=
  ∃ trees, grammar.Derives symbols trees []

theorem mem_productions {index : Fin n} {symbols : List (ResolvedSymbol n)} :
    (index, symbols) ∈ grammar.productions ↔ symbols ∈ grammar.rules.get index := by
  simp [productions]

theorem Nullable.append {front back : List (ResolvedSymbol n)} (one : grammar.Nullable front)
    (two : grammar.Nullable back) : grammar.Nullable (front ++ back) := by
  obtain ⟨trees, derives⟩ := one
  obtain ⟨others, otherDerives⟩ := two
  refine ⟨trees ++ others, ?_⟩
  generalize same : ([] : List UInt8) = text at derives
  induction derives with
  | nil => exact otherDerives
  | terminal bytes _ ih =>
      obtain ⟨rfl, rfl⟩ := List.append_eq_nil_iff.mp same.symm
      simpa using Derives.terminal [] (ih rfl)
  | empty _ ih => exact .empty (ih same)
  | lineFeed => simp at same
  | carriageReturn => simp at same
  | rule chosen inner _ _ ih =>
      obtain ⟨rfl, rfl⟩ := List.append_eq_nil_iff.mp same.symm
      simpa using Derives.rule chosen inner (ih rfl)

theorem nullable_rule_of_alternative {index : Fin n} {symbols : List (ResolvedSymbol n)}
    (chosen : symbols ∈ grammar.rules.get index) (nullable : grammar.Nullable symbols) :
    grammar.Nullable [.rule index] := by
  obtain ⟨trees, derives⟩ := nullable
  exact ⟨[.rule index.val trees], by simpa using Derives.rule chosen derives .nil⟩

def MarksNullable (grammar : Resolved n) (marked : Vector Bool n) : Prop :=
  ∀ index, marked.get index = true → grammar.Nullable [.rule index]

theorem nullable_of_allNullable {marked : Vector Bool n} (sound : grammar.MarksNullable marked)
    {symbols : List (ResolvedSymbol n)} (all : allNullable marked symbols = true) :
    grammar.Nullable symbols := by
  induction symbols with
  | nil => exact ⟨[], .nil⟩
  | cons symbol rest ih =>
      simp only [allNullable, List.all_cons, Bool.and_eq_true] at all
      have restNullable := ih all.2
      cases symbol with
      | empty =>
          obtain ⟨trees, derives⟩ := restNullable
          exact ⟨_, .empty derives⟩
      | rule index => exact (sound index all.1).append restNullable
      | terminal bytes => simp at all
      | endOfLine => simp at all

theorem marksNullable_nullablePass {marked : Vector Bool n}
    (sound : grammar.MarksNullable marked) :
    grammar.MarksNullable (grammar.nullablePass marked) := by
  refine foldl_induction grammar.MarksNullable ?_ marked sound
  rintro marked ⟨owner, symbols⟩ member sound
  refine forall_get_raise (fun index marked => marked = true → grammar.Nullable [.rule index])
    sound fun before joined => ?_
  rcases (Bool.or_eq_true _ _).mp joined with already | all
  · exact before already
  · exact nullable_rule_of_alternative (mem_productions.mp member)
      (nullable_of_allNullable sound all)

theorem marksNullable_nullableRules (grammar : Resolved n) :
    grammar.MarksNullable grammar.nullableRules :=
  untilStable_induction grammar.shrinks_nullablePass grammar.MarksNullable
    (fun _ => marksNullable_nullablePass) _ (by simp [MarksNullable, Vector.get])

theorem nullablePass_nullableRules (grammar : Resolved n) :
    grammar.nullablePass grammar.nullableRules = grammar.nullableRules :=
  step_untilStable _ _ _ _

theorem shrinks_markNullable (marked : Vector Bool n)
    (production : Fin n × List (ResolvedSymbol n)) :
    Shrinks (totalRoom markRoom) marked (markNullable marked production) := by
  refine shrinks_raise or markRoom ?_ marked production.1 _
  intro value added
  cases value <;> cases added <;> simp [Shrinks, markRoom]

theorem nullableRules_closed (grammar : Resolved n) {index : Fin n}
    {symbols : List (ResolvedSymbol n)} (chosen : symbols ∈ grammar.rules.get index)
    (all : allNullable grammar.nullableRules symbols = true) :
    grammar.nullableRules.get index = true := by
  have unchanged := change_eq_of_foldl_eq shrinks_markNullable
    grammar.nullablePass_nullableRules _ (mem_productions.mpr chosen)
  have joined := join_eq_of_raise_eq unchanged
  rw [all, Bool.or_true] at joined
  exact joined.symm

theorem allNullable_of_nullable (wellFormed : grammar.WellFormed)
    {symbols : List (ResolvedSymbol n)} (proper : Proper symbols)
    (nullable : grammar.Nullable symbols) :
    allNullable grammar.nullableRules symbols = true := by
  obtain ⟨trees, derives⟩ := nullable
  generalize same : ([] : List UInt8) = text at derives
  induction derives with
  | nil => rfl
  | terminal bytes _ _ => exact absurd (List.append_eq_nil_iff.mp same.symm).1 proper.1
  | empty _ ih =>
      obtain rfl : _ = [] := proper
      rfl
  | lineFeed => simp at same
  | carriageReturn => simp at same
  | rule chosen _ _ innerIh ih =>
      obtain ⟨rfl, rfl⟩ := List.append_eq_nil_iff.mp same.symm
      have marked := grammar.nullableRules_closed chosen (innerIh (wellFormed _ _ chosen) rfl)
      have rest := ih proper rfl
      simp only [allNullable, List.all_cons, marked, Bool.true_and]
      exact rest

/-- A rule is marked exactly if it derives the empty text. -/
theorem nullableRules_iff (wellFormed : grammar.WellFormed) (index : Fin n) :
    grammar.nullableRules.get index = true ↔ grammar.Nullable [.rule index] := by
  constructor
  · exact grammar.marksNullable_nullableRules index
  · intro nullable
    have all : allNullable grammar.nullableRules [.rule index] = true :=
      allNullable_of_nullable wellFormed trivial nullable
    simpa [allNullable] using all

end Lookahead.Resolved
