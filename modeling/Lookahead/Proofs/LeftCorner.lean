import Lookahead.Analysis.LeftRecursion
import Lookahead.Proofs.Nullability
import Mathlib.Logic.Relation

/-!
Left recursion is found exactly where it is: the search fails if and only if some rule can be
entered again before any byte is consumed.
-/

namespace Lookahead.Resolved

variable {n : Nat}

section Walk

variable {corners : Fin n → List (Fin n)}

/-- Whatever can be entered from a rule of the list stands behind it. -/
def Settled (corners : Fin n → List (Fin n)) : List (Fin n) → Prop
  | [] => True
  | rule :: rest => (∀ next ∈ corners rule, next ∈ rest) ∧ Settled corners rest

theorem Settled.mem_of_reaches {done : List (Fin n)} (settled : Settled corners done)
    {rule next : Fin n} (member : rule ∈ done)
    (reaches : Relation.ReflTransGen (fun rule next => next ∈ corners rule) rule next) :
    next ∈ done := by
  have closed : ∀ rule ∈ done, ∀ next ∈ corners rule, next ∈ done := by
    clear member reaches
    induction done with
    | nil => simp
    | cons first rest ih =>
        intro rule member next corner
        rcases List.mem_cons.mp member with rfl | later
        · exact List.mem_cons_of_mem _ (settled.1 next corner)
        · exact List.mem_cons_of_mem _ (ih settled.2 rule later next corner)
  induction reaches with
  | refl => exact member
  | tail _ corner ih => exact closed _ ih _ corner

theorem Settled.acyclic {done : List (Fin n)} (settled : Settled corners done) {rule : Fin n}
    (member : rule ∈ done) :
    ¬ Relation.TransGen (fun rule next => next ∈ corners rule) rule rule := by
  induction done with
  | nil => simp at member
  | cons first rest ih =>
      intro cycle
      by_cases later : rule ∈ rest
      · exact ih settled.2 later cycle
      · obtain rfl : rule = first := (List.mem_cons.mp member).resolve_right later
        obtain ⟨next, corner, back⟩ := Relation.TransGen.head'_iff.mp cycle
        exact later (settled.2.mem_of_reaches (settled.1 next corner) back)

def WalkSettles (corners : Fin n → List (Fin n))
    (walk : List (Fin n) → Fin n → Except (Fin n) (List (Fin n))) : Prop :=
  ∀ done rule walked, Settled corners done → walk done rule = .ok walked →
    Settled corners walked ∧ rule ∈ walked ∧ done ⊆ walked

theorem settled_of_foldlM {walk : List (Fin n) → Fin n → Except (Fin n) (List (Fin n))}
    (settles : WalkSettles corners walk) {rules done walked : List (Fin n)}
    (settled : Settled corners done) (success : rules.foldlM walk done = .ok walked) :
    Settled corners walked ∧ rules ⊆ walked ∧ done ⊆ walked := by
  induction rules generalizing done with
  | nil =>
      obtain rfl : done = walked := Except.ok.inj success
      exact ⟨settled, by simp, List.Subset.refl _⟩
  | cons rule rest ih =>
      rw [List.foldlM_cons, bind_eq_ok_iff] at success
      obtain ⟨between, first, later⟩ := success
      obtain ⟨betweenSettled, here, kept⟩ := settles done rule between settled first
      obtain ⟨walkedSettled, rests, grown⟩ := ih betweenSettled later
      exact ⟨walkedSettled, List.cons_subset.mpr ⟨grown here, rests⟩, List.Subset.trans kept grown⟩

theorem walkSettles_walkCorners (corners : Fin n → List (Fin n)) (chain : List (Fin n)) :
    WalkSettles corners (walkCorners corners chain) := by
  generalize sizeIs : outside chain = size
  induction size using Nat.strongRecOn generalizing chain with
  | ind size ih =>
      intro done rule walked settled success
      rw [walkCorners] at success
      split at success
      · rename_i known
        obtain rfl : done = walked := Except.ok.inj success
        exact ⟨settled, List.contains_iff_mem.mp known, List.Subset.refl _⟩
      · split at success
        · simp at success
        · rename_i fresh
          obtain ⟨between, folded, added⟩ := bind_eq_ok_iff.mp success
          obtain rfl : rule :: between = walked := Except.ok.inj added
          have inner := ih _ (sizeIs ▸ outside_cons_lt chain rule fresh) (rule :: chain) rfl
          obtain ⟨betweenSettled, behind, kept⟩ := settled_of_foldlM inner settled folded
          refine ⟨⟨fun next corner => behind corner, betweenSettled⟩, List.mem_cons_self, ?_⟩
          exact List.Subset.trans kept (List.subset_cons_self _ _)

/-- The rule that a walk fails with reaches itself, if the rules of the chain reach the one that
is walked. -/
theorem cycle_of_walkCorners_eq_error (corners : Fin n → List (Fin n)) (chain : List (Fin n))
    {done : List (Fin n)} {rule found : Fin n}
    (reaches : ∀ open' ∈ chain,
      Relation.TransGen (fun rule next => next ∈ corners rule) open' rule)
    (failed : walkCorners corners chain done rule = .error found) :
    Relation.TransGen (fun rule next => next ∈ corners rule) found found := by
  generalize sizeIs : outside chain = size
  induction size using Nat.strongRecOn generalizing chain done rule with
  | ind size ih =>
      rw [walkCorners] at failed
      split at failed
      · simp at failed
      · split at failed
        · rename_i met
          obtain rfl : rule = found := Except.error.inj failed
          exact reaches rule (List.contains_iff_mem.mp met)
        · rename_i fresh
          cases folded : (corners rule).foldlM
              (fun done next => walkCorners corners (rule :: chain) done next) done with
          | ok between => simp [folded, bind, Except.bind, pure, Except.pure] at failed
          | error other =>
              obtain rfl : other = found := by
                simpa [folded, bind, Except.bind] using failed
              obtain ⟨between, next, corner, failure⟩ := exists_of_foldlM_eq_error folded
              refine ih _ (sizeIs ▸ outside_cons_lt chain rule fresh) (rule :: chain) ?_
                failure rfl
              intro open' member
              rcases List.mem_cons.mp member with rfl | earlier
              · exact .single corner
              · exact (reaches open' earlier).tail corner

end Walk

variable {grammar : Resolved n}

/-- A rule has an alternative in which another one is preceded only by what derives the empty
text. -/
def LeftCorner (grammar : Resolved n) (rule next : Fin n) : Prop :=
  ∃ before after, before ++ .rule next :: after ∈ grammar.rules.get rule ∧
    grammar.Nullable before

theorem nullable_cons_rule_iff {index : Fin n} {rest : List (ResolvedSymbol n)} :
    grammar.Nullable (.rule index :: rest) ↔
      grammar.Nullable [.rule index] ∧ grammar.Nullable rest := by
  constructor
  · rintro ⟨trees, derives⟩
    generalize same : ([] : List UInt8) = text at derives
    cases derives with
    | rule chosen inner rest =>
        obtain ⟨rfl, rfl⟩ := List.append_eq_nil_iff.mp same.symm
        exact ⟨nullable_rule_of_alternative chosen ⟨_, inner⟩, _, rest⟩
  · rintro ⟨here, later⟩
    exact here.append later

theorem not_nullable_terminal {bytes : List UInt8} {rest : List (ResolvedSymbol n)}
    (nonempty : bytes ≠ []) : ¬ grammar.Nullable (.terminal bytes :: rest) := by
  rintro ⟨trees, derives⟩
  generalize same : ([] : List UInt8) = text at derives
  cases derives with
  | terminal => exact nonempty (List.append_eq_nil_iff.mp same.symm).1

theorem not_nullable_endOfLine {rest : List (ResolvedSymbol n)} :
    ¬ grammar.Nullable (.endOfLine :: rest) := by
  rintro ⟨trees, derives⟩
  generalize same : ([] : List UInt8) = text at derives
  cases derives <;> simp at same

theorem mem_leadingRules_iff (wellFormed : grammar.WellFormed)
    {symbols : List (ResolvedSymbol n)} (proper : Proper symbols) (next : Fin n) :
    next ∈ leadingRules grammar.nullableRules symbols ↔
      ∃ before after, before ++ .rule next :: after = symbols ∧ grammar.Nullable before := by
  induction symbols with
  | nil => simp [leadingRules]
  | cons symbol rest ih =>
      -- Only the first symbol decides whether the front part may be empty.
      constructor
      · intro member
        cases symbol with
        | rule index =>
            simp only [leadingRules, List.mem_cons] at member
            rcases member with rfl | later
            · exact ⟨[], rest, rfl, [], .nil⟩
            · split at later
              · rename_i marked
                obtain ⟨before, after, same, nullable⟩ := (ih proper).mp later
                refine ⟨.rule index :: before, after, by simp [same], ?_⟩
                exact nullable_cons_rule_iff.mpr
                  ⟨(nullableRules_iff wellFormed index).mp marked, nullable⟩
              · simp at later
        | terminal bytes => simp [leadingRules] at member
        | endOfLine => simp [leadingRules] at member
        | empty => simp [leadingRules] at member
      · rintro ⟨before, after, same, nullable⟩
        cases before with
        | nil =>
            obtain ⟨rfl, rfl⟩ := List.cons.inj same
            simp [leadingRules]
        | cons first before =>
            rw [List.cons_append] at same
            obtain ⟨rfl, rfl⟩ := List.cons.inj same
            cases first with
            | rule index =>
                obtain ⟨here, later⟩ := nullable_cons_rule_iff.mp nullable
                have marked := (nullableRules_iff wellFormed index).mpr here
                have found := (ih proper).mpr ⟨before, after, rfl, later⟩
                simp [leadingRules, marked, found]
            | terminal bytes => exact absurd nullable (not_nullable_terminal proper.1)
            | endOfLine => exact absurd nullable not_nullable_endOfLine
            | empty => simp [Proper] at proper

theorem mem_leftCorners_iff (wellFormed : grammar.WellFormed) (rule next : Fin n) :
    next ∈ grammar.leftCorners grammar.nullableRules rule ↔ grammar.LeftCorner rule next := by
  simp only [leftCorners, List.mem_flatMap]
  constructor
  · rintro ⟨symbols, chosen, leading⟩
    obtain ⟨before, after, rfl, nullable⟩ :=
      (mem_leadingRules_iff wellFormed (wellFormed rule symbols chosen) next).mp leading
    exact ⟨before, after, chosen, nullable⟩
  · rintro ⟨before, after, chosen, nullable⟩
    exact ⟨_, chosen, (mem_leadingRules_iff wellFormed (wellFormed rule _ chosen) next).mpr
      ⟨before, after, rfl, nullable⟩⟩

theorem leftCorners_eq (wellFormed : grammar.WellFormed) :
    (fun rule next => next ∈ grammar.leftCorners grammar.nullableRules rule) =
      grammar.LeftCorner := by
  funext rule next
  exact propext (mem_leftCorners_iff wellFormed rule next)

theorem cycle_of_checkLeftRecursion_eq_error (wellFormed : grammar.WellFormed)
    {reason : GrammarError}
    (failed : grammar.checkLeftRecursion grammar.nullableRules = .error reason) :
    ∃ rule, reason = .leftRecursion (grammar.heads.get rule) ∧
      Relation.TransGen grammar.LeftCorner rule rule := by
  rw [checkLeftRecursion] at failed
  split at failed
  · rename_i found met
    obtain ⟨done, rule, _, failure⟩ := exists_of_foldlM_eq_error met
    have cycle := cycle_of_walkCorners_eq_error _ [] (by simp) failure
    rw [leftCorners_eq wellFormed] at cycle
    exact ⟨found, (Except.error.inj failed).symm, cycle⟩
  · simp at failed

/-- The check accepts a grammar exactly if no rule reaches itself by left corners. -/
theorem checkLeftRecursion_eq_ok_iff (wellFormed : grammar.WellFormed) :
    grammar.checkLeftRecursion grammar.nullableRules = .ok () ↔
      ∀ rule, ¬ Relation.TransGen grammar.LeftCorner rule rule := by
  constructor
  · intro checked rule
    rw [checkLeftRecursion] at checked
    split at checked
    · simp at checked
    · rename_i walked success
      obtain ⟨settled, all, _⟩ :=
        settled_of_foldlM (walkSettles_walkCorners _ []) (by trivial) success
      rw [← leftCorners_eq wellFormed]
      exact settled.acyclic (all (List.mem_finRange rule))
  · intro acyclic
    cases checked : grammar.checkLeftRecursion grammar.nullableRules with
    | ok _ => rfl
    | error reason =>
        obtain ⟨rule, _, cycle⟩ := cycle_of_checkLeftRecursion_eq_error wellFormed checked
        exact absurd cycle (acyclic rule)

end Lookahead.Resolved
