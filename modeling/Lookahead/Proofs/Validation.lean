import Lookahead.Proofs.Generation

/-!
Validation reports the first defect.  Defects have places, which are met rule by rule, alternative
by alternative and symbol by symbol; a repeated head comes before all of them.  A grammar is refused
as malformed exactly if it has a defect, and then for the first one, whatever else is wrong with it.
-/

namespace Lookahead

/-! ### Checks that report the first defect -/

section Reports

variable {ε α β π : Type}

/-- The defect at a place such that there is none at any place before it. -/
def First (before : π → π → Prop) (defect : π → ε → Prop) (reason : ε) : Prop :=
  ∃ place, defect place reason ∧ ∀ earlier, before earlier place → ∀ other, ¬ defect earlier other

/-- A check that fails only with the first defect, and succeeds only where there is none. -/
structure Reports (before : π → π → Prop) (defect : π → ε → Prop) (outcome : Except ε β) :
    Prop where
  first : ∀ reason, outcome = .error reason → First before defect reason
  sound : ∀ result, outcome = .ok result → ∀ place reason, ¬ defect place reason

theorem Reports.error_iff {before : π → π → Prop} {defect : π → ε → Prop}
    {outcome : Except ε β} (reports : Reports before defect outcome)
    (ordered : ∀ left right, before left right ∨ left = right ∨ before right left)
    (single : ∀ place left right, defect place left → defect place right → left = right)
    (reason : ε) : outcome = .error reason ↔ First before defect reason := by
  refine ⟨reports.first reason, ?_⟩
  rintro ⟨place, here, none⟩
  cases outcome with
  | ok result => exact absurd here (reports.sound result rfl place reason)
  | error other =>
      obtain ⟨otherPlace, there, otherNone⟩ := reports.first other rfl
      rcases ordered place otherPlace with less | rfl | greater
      · exact absurd here (otherNone place less reason)
      · rw [single place _ _ here there]
      · exact absurd there (none otherPlace greater other)

theorem Reports.of_error {before : π → π → Prop} {defect : π → ε → Prop} {reason : ε}
    (first : First before defect reason) :
    Reports before defect (.error reason : Except ε β) := by
  constructor
  · intro other failed
    exact Except.error.inj failed ▸ first
  · intro result success
    cases success

def Among (defect : α → π → ε → Prop) (items : List α) (place : Nat × π) (reason : ε) : Prop :=
  ∃ item, items[place.1]? = some item ∧ defect item place.2 reason

theorem Reports.mapM {before : π → π → Prop} {defect : α → π → ε → Prop}
    {check : α → Except ε β} {items : List α}
    (each : ∀ item ∈ items, Reports before (defect item) (check item)) :
    Reports (Prod.Lex (· < ·) before) (Among defect items) (items.mapM check) := by
  constructor
  · intro reason failed
    obtain ⟨front, item, back, rfl, refused, passed⟩ := exists_split_of_mapM_eq_error failed
    obtain ⟨place, here, none⟩ := (each item (by simp)).first reason refused
    refine ⟨(front.length, place), ⟨item, by simp, here⟩, ?_⟩
    rintro ⟨index, inner⟩ less other ⟨earlier, found, defective⟩
    -- What is before the place is in an item that passed, or before it in the refused item.
    rcases Prod.lex_def.mp less with inFront | ⟨same, innerLess⟩
    · have member : earlier ∈ front := by
        rw [List.getElem?_append_left inFront] at found
        exact List.mem_of_getElem? found
      obtain ⟨result, success⟩ := passed earlier member
      exact (each earlier (by simp [member])).sound result success inner other defective
    · simp only at same
      subst same
      simp only [List.getElem?_append_right (Nat.le_refl _), Nat.sub_self, List.getElem?_cons_zero,
        Option.some.injEq] at found
      subst found
      exact none inner innerLess other defective
  · rintro results success ⟨index, inner⟩ reason ⟨item, found, defective⟩
    have member := List.mem_of_getElem? found
    obtain ⟨result, passed⟩ := exists_mapM_eq_ok_iff.mp ⟨results, success⟩ item member
    exact (each item member).sound result passed inner reason defective

end Reports

/-! ### Defects and their places -/

/-- What is looked at in an alternative: that it has symbols, that an empty symbol is alone, and
then its symbols from left to right. -/
inductive Check
  | presence
  | company
  | symbol (index : Nat)

def Check.rank : Check → Nat
  | presence => 0
  | company => 1
  | symbol index => 2 + index

theorem Check.rank_injective : Function.Injective Check.rank := by
  intro left right same
  cases left <;> cases right <;> simp [Check.rank] at same ⊢ <;> omega

/-- A rule, one of its alternatives, and a check of it.  A rule without alternatives is found out
where its first alternative would be. -/
abbrev Place := Nat × Nat × Check

def Place.Before : Place → Place → Prop :=
  Prod.Lex (· < ·) (Prod.Lex (· < ·) fun left right => left.rank < right.rank)

inductive Symbol.Defect (grammar : Grammar) (head : String) : Symbol → GrammarError → Prop
  | terminal {bytes} : bytes = [] ∨ endOfInputByte ∈ bytes →
      Symbol.Defect grammar head (.terminal bytes) (.invalidTerminal head)
  | nonTerminal {name} : name ∉ grammar.rules.map Rule.head → name ≠ endOfLineName →
      Symbol.Defect grammar head (.nonTerminal name) (.undefinedNonTerminal name)

inductive Alternative.Defect (grammar : Grammar) (head : String) (alternative : Alternative) :
    Check → GrammarError → Prop
  | vacant : alternative = [] →
      Alternative.Defect grammar head alternative .presence (.emptyAlternative head)
  | mixed : .empty ∈ alternative → 1 < alternative.length →
      Alternative.Defect grammar head alternative .company (.emptySequenceInAlternation head)
  | symbol {index symbol reason} : alternative[index]? = some symbol →
      symbol.Defect grammar head reason →
      Alternative.Defect grammar head alternative (.symbol index) reason

inductive Rule.Defect (grammar : Grammar) (rule : Rule) : Nat × Check → GrammarError → Prop
  | vacant : rule.alternatives = [] →
      Rule.Defect grammar rule (0, .presence) (.emptyAlternative rule.head)
  | alternative {index alternative check reason} : rule.alternatives[index]? = some alternative →
      Alternative.Defect grammar rule.head alternative check reason →
      Rule.Defect grammar rule (index, check) reason

theorem Place.before_or_eq_or_before (left right : Place) :
    left.Before right ∨ left = right ∨ right.Before left := by
  obtain ⟨rule, alternative, check⟩ := left
  obtain ⟨otherRule, otherAlternative, otherCheck⟩ := right
  rcases Nat.lt_trichotomy rule otherRule with less | rfl | greater
  · exact .inl (.left _ _ less)
  · rcases Nat.lt_trichotomy alternative otherAlternative with less | rfl | greater
    · exact .inl (.right _ (.left _ _ less))
    · rcases Nat.lt_trichotomy check.rank otherCheck.rank with less | same | greater
      · exact .inl (.right _ (.right _ less))
      · rw [Check.rank_injective same]
        exact .inr (.inl rfl)
      · exact .inr (.inr (.right _ (.right _ greater)))
    · exact .inr (.inr (.right _ (.left _ _ greater)))
  · exact .inr (.inr (.left _ _ greater))

section Single

variable {grammar : Grammar} {left right : GrammarError}

theorem Symbol.Defect.eq {head : String} {symbol : Symbol}
    (here : symbol.Defect grammar head left) (there : symbol.Defect grammar head right) :
    left = right := by
  cases here <;> cases there <;> rfl

theorem Alternative.Defect.eq {head : String} {alternative : Alternative} {check : Check}
    (here : Alternative.Defect grammar head alternative check left)
    (there : Alternative.Defect grammar head alternative check right) : left = right := by
  cases here with
  | vacant | mixed =>
      cases there
      rfl
  | symbol found defect =>
      rcases there with _ | _ | ⟨otherFound, otherDefect⟩
      obtain rfl := Option.some.inj (found.symm.trans otherFound)
      exact defect.eq otherDefect

theorem Rule.Defect.eq {rule : Rule} {place : Nat × Check}
    (here : Rule.Defect grammar rule place left) (there : Rule.Defect grammar rule place right) :
    left = right := by
  cases here with
  | vacant absent =>
      cases there with
      | vacant => rfl
      | alternative present => simp [absent] at present
  | alternative present inner =>
      cases there with
      | vacant absent => simp [absent] at present
      | alternative otherPresent otherInner =>
          obtain rfl := Option.some.inj (present.symm.trans otherPresent)
          exact inner.eq otherInner

end Single

namespace Grammar

def DefectAt (grammar : Grammar) : Place → GrammarError → Prop :=
  Among (Rule.Defect grammar) grammar.rules

/-- The defect that comes first: a rule whose head occurred before or, where heads are distinct,
the defect at the first place that has one. -/
inductive FirstDefect (grammar : Grammar) : GrammarError → Prop
  | repeated {front rule back} : grammar.rules = front ++ rule :: back →
      (front.map Rule.head).Nodup → rule.head ∈ front.map Rule.head →
      FirstDefect grammar (.duplicateRule rule.head)
  | placed {reason} : (grammar.rules.map Rule.head).Nodup →
      First Place.Before grammar.DefectAt reason → FirstDefect grammar reason

inductive Malformed (grammar : Grammar) : Prop
  | repeatedHead : ¬ (grammar.rules.map Rule.head).Nodup → Malformed grammar
  | noAlternatives {rule} : rule ∈ grammar.rules → rule.alternatives = [] → Malformed grammar
  | noSymbols {rule} : rule ∈ grammar.rules → [] ∈ rule.alternatives → Malformed grammar
  | emptyBesideOthers {rule alternative} : rule ∈ grammar.rules →
      alternative ∈ rule.alternatives → .empty ∈ alternative → 1 < alternative.length →
      Malformed grammar
  | badTerminal {rule alternative bytes} : rule ∈ grammar.rules →
      alternative ∈ rule.alternatives → .terminal bytes ∈ alternative →
      bytes = [] ∨ endOfInputByte ∈ bytes → Malformed grammar
  | undefined {rule alternative name} : rule ∈ grammar.rules →
      alternative ∈ rule.alternatives → .nonTerminal name ∈ alternative →
      name ∉ grammar.rules.map Rule.head → name ≠ endOfLineName → Malformed grammar

variable {grammar : Grammar}

theorem resolveSymbol_eq_error_iff {head : String} {symbol : Symbol} {reason : GrammarError} :
    grammar.resolveSymbol head symbol = .error reason ↔ symbol.Defect grammar head reason := by
  constructor
  · intro failed
    cases symbol with
    | terminal bytes =>
        simp only [resolveSymbol] at failed
        split at failed
        · rename_i improper
          obtain rfl := Except.error.inj failed
          exact .terminal (by simpa using improper)
        · cases failed
    | nonTerminal name =>
        simp only [resolveSymbol] at failed
        split at failed
        · cases failed
        · rename_i unknown
          split at failed
          · cases failed
          · rename_i other
            obtain rfl := Except.error.inj failed
            exact .nonTerminal (by simpa using unknown) (by simpa using other)
    | empty => cases failed
  · intro defect
    cases defect with
    | terminal improper => simp [resolveSymbol, improper]
    | @nonTerminal name unknown other =>
        have missing : grammar.rules.findFinIdx? (·.head == name) = none := by simpa using unknown
        simp [resolveSymbol, missing, other]

theorem reports_resolveSymbol (head : String) (symbol : Symbol) :
    Reports (fun _ _ : Unit => False) (fun _ => symbol.Defect grammar head)
      (grammar.resolveSymbol head symbol) := by
  constructor
  · intro reason failed
    exact ⟨(), resolveSymbol_eq_error_iff.mp failed, by simp⟩
  · intro result success _ reason defect
    rw [resolveSymbol_eq_error_iff.mpr defect] at success
    cases success

theorem empty_beside_others_iff {alternative : Alternative} :
    (1 < alternative.length && alternative.any Symbol.isEmpty) = true ↔
      .empty ∈ alternative ∧ 1 < alternative.length := by
  rw [Bool.and_eq_true, decide_eq_true_iff, List.any_eq_true, and_comm]
  refine and_congr_left' ⟨?_, fun member => ⟨_, member, rfl⟩⟩
  rintro ⟨symbol, member, empty⟩
  cases symbol with
  | empty => exact member
  | terminal | nonTerminal => cases empty

theorem reports_resolveAlternative (head : String) (alternative : Alternative) :
    Reports (fun left right : Check => left.rank < right.rank)
      (Alternative.Defect grammar head alternative)
      (grammar.resolveAlternative head alternative) := by
  rw [resolveAlternative]
  by_cases vacant : alternative = []
  · rw [if_pos (by simp [vacant])]
    refine Reports.of_error ⟨.presence, .vacant vacant, fun _ less => ?_⟩
    exact absurd less (Nat.not_lt_zero _)
  rw [if_neg (by simpa using vacant)]
  by_cases mixed : .empty ∈ alternative ∧ 1 < alternative.length
  · rw [if_pos (empty_beside_others_iff.mpr mixed)]
    refine Reports.of_error ⟨.company, .mixed mixed.1 mixed.2, ?_⟩
    rintro _ less _ (absent | _ | _)
    · exact vacant absent
    · simp [Check.rank] at less
    · simp only [Check.rank] at less
      omega
  rw [if_neg (empty_beside_others_iff.not.mpr mixed)]
  have symbols := Reports.mapM fun symbol (_ : symbol ∈ alternative) =>
    grammar.reports_resolveSymbol head symbol
  constructor
  · intro reason failed
    obtain ⟨⟨index, _⟩, ⟨symbol, found, defect⟩, none⟩ := symbols.first reason failed
    refine ⟨.symbol index, .symbol found defect, ?_⟩
    rintro _ less other (absent | ⟨member, several⟩ | ⟨earlierFound, earlierDefect⟩)
    · exact vacant absent
    · exact mixed ⟨member, several⟩
    · simp only [Check.rank, Nat.add_lt_add_iff_left] at less
      exact none (_, ()) (.left _ _ less) other ⟨_, earlierFound, earlierDefect⟩
  · rintro results success _ reason (absent | ⟨member, several⟩ | ⟨found, defect⟩)
    · exact vacant absent
    · exact mixed ⟨member, several⟩
    · exact symbols.sound results success (_, ()) reason ⟨_, found, defect⟩

theorem reports_resolveRule (rule : Rule) :
    Reports (Prod.Lex (· < ·) fun left right : Check => left.rank < right.rank)
      (Rule.Defect grammar rule) (grammar.resolveRule rule) := by
  rw [resolveRule]
  by_cases vacant : rule.alternatives = []
  · rw [if_pos (by simp [vacant])]
    refine Reports.of_error ⟨(0, .presence), .vacant vacant, ?_⟩
    intro earlier less
    simp [Prod.lex_def, Check.rank] at less
  rw [if_neg (by simpa using vacant)]
  have same : Rule.Defect grammar rule =
      Among (Alternative.Defect grammar rule.head) rule.alternatives := by
    funext place reason
    refine propext ⟨?_, ?_⟩
    · rintro (absent | ⟨found, defect⟩)
      · exact absurd absent vacant
      · exact ⟨_, found, defect⟩
    · rintro ⟨alternative, found, defect⟩
      exact .alternative found defect
  rw [same]
  exact Reports.mapM fun alternative _ => reports_resolveAlternative rule.head alternative

theorem reports_rules :
    Reports Place.Before grammar.DefectAt (grammar.rules.mapM grammar.resolveRule) :=
  Reports.mapM fun rule _ => reports_resolveRule rule

/-! ### The first defect is what resolving reports -/

theorem DefectAt.eq {place : Place} {left right : GrammarError}
    (here : grammar.DefectAt place left) (there : grammar.DefectAt place right) :
    left = right := by
  obtain ⟨rule, found, defect⟩ := here
  obtain ⟨other, otherFound, otherDefect⟩ := there
  obtain rfl := Option.some.inj (found.symm.trans otherFound)
  exact defect.eq otherDefect

theorem mapM_resolveRule_eq_error_iff {reason : GrammarError} :
    grammar.rules.mapM grammar.resolveRule = .error reason ↔
      First Place.Before grammar.DefectAt reason :=
  reports_rules.error_iff Place.before_or_eq_or_before (fun _ _ _ => DefectAt.eq) reason

theorem duplicateHead?_eq_some_iff {seen : List String} {rules : List Rule} {head : String} :
    duplicateHead? seen rules = some head ↔
      ∃ front rule back, rules = front ++ rule :: back ∧ duplicateHead? seen front = none ∧
        (rule.head ∈ seen ∨ rule.head ∈ front.map Rule.head) ∧ rule.head = head := by
  induction rules generalizing seen with
  | nil => simp [duplicateHead?]
  | cons first rest ih =>
      rw [duplicateHead?]
      split
      · rename_i repeated
        have met : first.head ∈ seen := by simpa using repeated
        constructor
        · intro same
          exact ⟨[], first, rest, rfl, rfl, .inl met, Option.some.inj same⟩
        · rintro ⟨front, rule, back, split, fresh, _, same⟩
          cases front with
          | nil =>
              obtain ⟨rfl, _⟩ := List.cons.inj split
              rw [same]
          | cons other front =>
              obtain ⟨rfl, _⟩ := List.cons.inj split
              simp [duplicateHead?, met] at fresh
      · rename_i unmet
        have new : first.head ∉ seen := by simpa using unmet
        rw [ih]
        constructor
        · rintro ⟨front, rule, back, rfl, fresh, occurred, same⟩
          refine ⟨first :: front, rule, back, rfl, by simp [duplicateHead?, new, fresh], ?_, same⟩
          simp only [List.mem_cons, List.map_cons] at occurred ⊢
          tauto
        · rintro ⟨front, rule, back, split, fresh, occurred, same⟩
          cases front with
          | nil =>
              obtain ⟨rfl, _⟩ := List.cons.inj split
              simp [new] at occurred
          | cons other front =>
              obtain ⟨rfl, rfl⟩ := List.cons.inj split
              refine ⟨front, rule, back, rfl, by simpa [duplicateHead?, new] using fresh, ?_, same⟩
              simp only [List.mem_cons, List.map_cons] at occurred ⊢
              tauto

theorem resolve_eq_error_iff {reason : GrammarError} :
    grammar.resolve = .error reason ↔ grammar.FirstDefect reason := by
  have none := duplicateHead?_eq_none_iff [] grammar.rules
  have some (head : String) := @duplicateHead?_eq_some_iff [] grammar.rules head
  simp only [List.not_mem_nil, not_false_eq_true, implies_true, and_true] at none
  simp only [duplicateHead?_eq_none_iff, List.not_mem_nil, not_false_eq_true, implies_true,
    and_true, false_or] at some
  rw [resolve]
  split
  · rename_i head repeated
    constructor
    · intro failed
      obtain rfl := Except.error.inj failed
      obtain ⟨front, rule, back, split, distinct, occurred, rfl⟩ := (some head).mp repeated
      exact .repeated split distinct occurred
    · rintro (⟨split, distinct, occurred⟩ | ⟨distinct, _⟩)
      · have same := (some _).mpr ⟨_, _, _, split, distinct, occurred, rfl⟩
        rw [Option.some.inj (repeated.symm.trans same)]
      · simp [none.mpr distinct] at repeated
  · rename_i unrepeated
    constructor
    · intro failed
      refine .placed (none.mp unrepeated) (mapM_resolveRule_eq_error_iff.mp ?_)
      split at failed
      · rename_i defect found
        rw [found, Except.error.inj failed]
      · cases failed
    · rintro (⟨split, distinct, occurred⟩ | ⟨_, first⟩)
      · simp [(some _).mpr ⟨_, _, _, split, distinct, occurred, rfl⟩] at unrepeated
      · have failed := mapM_resolveRule_eq_error_iff.mpr first
        split
        · rename_i defect found
          rw [Except.error.inj (found.symm.trans failed)]
        · rename_i rules found
          simp [found] at failed

theorem Malformed.of_defect {rule : Rule} {place : Nat × Check} {reason : GrammarError}
    (member : rule ∈ grammar.rules) (defect : rule.Defect grammar place reason) :
    grammar.Malformed := by
  cases defect with
  | vacant absent => exact .noAlternatives member absent
  | alternative chosen inner =>
      have among := List.mem_of_getElem? chosen
      cases inner with
      | vacant absent => exact .noSymbols member (absent ▸ among)
      | mixed empty several => exact .emptyBesideOthers member among empty several
      | symbol present wrong =>
          have within := List.mem_of_getElem? present
          cases wrong with
          | terminal improper => exact .badTerminal member among within improper
          | nonTerminal unknown other => exact .undefined member among within unknown other

theorem exists_defectAt {rule : Rule} {place : Nat × Check} {reason : GrammarError}
    (member : rule ∈ grammar.rules) (defect : rule.Defect grammar place reason) :
    ∃ place reason, grammar.DefectAt place reason := by
  obtain ⟨index, found⟩ := List.getElem?_of_mem member
  exact ⟨(index, place), reason, rule, found, defect⟩

theorem Malformed.repeated_or_defectAt (malformed : grammar.Malformed) :
    ¬ (grammar.rules.map Rule.head).Nodup ∨ ∃ place reason, grammar.DefectAt place reason := by
  have inside {rule : Rule} {alternative : Alternative} {check : Check} {reason : GrammarError}
      (member : rule ∈ grammar.rules) (chosen : alternative ∈ rule.alternatives)
      (defect : alternative.Defect grammar rule.head check reason) :
      ∃ place reason, grammar.DefectAt place reason := by
    obtain ⟨index, found⟩ := List.getElem?_of_mem chosen
    exact exists_defectAt member (.alternative found defect)
  cases malformed with
  | repeatedHead twice => exact .inl twice
  | noAlternatives member absent => exact .inr (exists_defectAt member (.vacant absent))
  | noSymbols member chosen => exact .inr (inside member chosen (.vacant rfl))
  | emptyBesideOthers member chosen empty several =>
      exact .inr (inside member chosen (.mixed empty several))
  | badTerminal member chosen within improper =>
      obtain ⟨index, found⟩ := List.getElem?_of_mem within
      exact .inr (inside member chosen (.symbol found (.terminal improper)))
  | undefined member chosen within unknown other =>
      obtain ⟨index, found⟩ := List.getElem?_of_mem within
      exact .inr (inside member chosen (.symbol found (.nonTerminal unknown other)))

theorem exists_firstDefect_iff :
    (∃ reason, grammar.FirstDefect reason) ↔ grammar.Malformed := by
  constructor
  · rintro ⟨reason, ⟨split, _, occurred⟩ | ⟨_, _, ⟨rule, found, defect⟩, _⟩⟩
    · refine .repeatedHead fun distinct => ?_
      rw [split, List.map_append, List.map_cons, List.nodup_append] at distinct
      exact distinct.2.2 _ occurred _ List.mem_cons_self rfl
    · exact .of_defect (List.mem_of_getElem? found) defect
  · intro malformed
    cases outcome : grammar.resolve with
    | error reason => exact ⟨reason, resolve_eq_error_iff.mp outcome⟩
    | ok resolved =>
        have resolves := resolves_of_resolve_eq_ok outcome
        obtain ⟨rules, success⟩ := exists_mapM_eq_ok_iff.mpr
          fun rule (member : rule ∈ grammar.rules) => by
            obtain ⟨index, rfl⟩ := List.get_of_mem member
            exact ⟨_, resolves.rule_get index⟩
        rcases malformed.repeated_or_defectAt with twice | ⟨place, reason, defective⟩
        · exact absurd resolves.heads_nodup twice
        · exact absurd defective (reports_rules.sound rules success place reason)

end Grammar

/-! ### The errors of generation -/

def GrammarError.OfValidation : GrammarError → Prop
  | leftRecursion _ | ambiguousCell .. => False
  | undefinedNonTerminal _ | emptySequenceInAlternation _ | emptyAlternative _
  | invalidTerminal _ | duplicateRule _ => True

theorem Rule.Defect.ofValidation {grammar : Grammar} {rule : Rule} {place : Nat × Check}
    {reason : GrammarError} (defect : rule.Defect grammar place reason) : reason.OfValidation := by
  cases defect with
  | vacant => trivial
  | alternative _ inner =>
      cases inner with
      | vacant | mixed => trivial
      | symbol _ wrong => cases wrong <;> trivial

theorem Resolved.not_ofValidation_of_checkLeftRecursion {n : Nat} {grammar : Resolved n}
    {nullable : Vector Bool n} {reason : GrammarError}
    (failed : grammar.checkLeftRecursion nullable = .error reason) : ¬ reason.OfValidation := by
  rw [checkLeftRecursion] at failed
  split at failed
  · obtain rfl := Except.error.inj failed
    exact id
  · cases failed

theorem Analysis.not_ofValidation_of_table {n : Nat} {analysis : Analysis n}
    {reason : GrammarError} (failed : analysis.table = .error reason) : ¬ reason.OfValidation := by
  obtain ⟨_, ⟨_, rfl, _⟩, _⟩ := exists_of_table_eq_error failed
  exact id

namespace Grammar

variable {grammar : Grammar} {reason : GrammarError}

theorem FirstDefect.ofValidation (first : grammar.FirstDefect reason) : reason.OfValidation := by
  rcases first with _ | ⟨_, _, ⟨_, _, defect⟩, _⟩
  · trivial
  · exact defect.ofValidation

theorem analyze_eq_error_iff :
    grammar.analyze = .error reason ∧ reason.OfValidation ↔ grammar.FirstDefect reason := by
  constructor
  · rintro ⟨failed, kind⟩
    rcases bind_eq_error_iff.mp failed with refused | ⟨resolved, _, later⟩
    · exact resolve_eq_error_iff.mp refused
    · rcases bind_eq_error_iff.mp later with recursive | ⟨_, _, impossible⟩
      · exact absurd kind (Resolved.not_ofValidation_of_checkLeftRecursion recursive)
      · cases impossible
  · intro first
    exact ⟨bind_eq_error_iff.mpr (.inl (resolve_eq_error_iff.mpr first)), first.ofValidation⟩

theorem generate_eq_error_iff :
    grammar.generate = .error reason ∧ reason.OfValidation ↔ grammar.FirstDefect reason := by
  constructor
  · rintro ⟨failed, kind⟩
    rcases bind_eq_error_iff.mp failed with refused | ⟨analysis, _, later⟩
    · exact analyze_eq_error_iff.mp ⟨refused, kind⟩
    · rcases bind_eq_error_iff.mp later with conflict | ⟨_, _, impossible⟩
      · exact absurd kind (Analysis.not_ofValidation_of_table conflict)
      · cases impossible
  · intro first
    exact ⟨bind_eq_error_iff.mpr (.inl (analyze_eq_error_iff.mpr first).1), first.ofValidation⟩

/-- Validation accepts exactly the grammars that are not malformed.  Every other grammar is refused
for its first defect, by the analysis and by the generation of a table, also where its rules are
left recursive or in conflict. -/
theorem validation_reports_first_defect (grammar : Grammar) :
    (∀ reason, grammar.generate = .error reason ∧ reason.OfValidation ↔
      grammar.FirstDefect reason) ∧
    ((∃ reason, grammar.generate = .error reason ∧ reason.OfValidation) ↔ grammar.Malformed) ∧
    ((∃ reason, grammar.FirstDefect reason ∧ grammar.resolve = .error reason ∧
      grammar.analyze = .error reason ∧ grammar.generate = .error reason) ↔ grammar.Malformed) := by
  refine ⟨fun reason => generate_eq_error_iff, ?_, ?_⟩
  · rw [← exists_firstDefect_iff]
    exact exists_congr fun reason => generate_eq_error_iff
  · rw [← exists_firstDefect_iff]
    refine exists_congr fun reason => ⟨And.left, fun first => ?_⟩
    exact ⟨first, resolve_eq_error_iff.mpr first, (analyze_eq_error_iff.mpr first).1,
      (generate_eq_error_iff.mpr first).1⟩

-- Several defects in one alternative and in the rules after it, beside a left recursion.
example : generate ⟨[⟨"list", [[.nonTerminal "list"], [.empty, .terminal [], .nonTerminal "item"]]⟩,
    ⟨"none", []⟩, ⟨"vacant", [[]]⟩]⟩ = .error (.emptySequenceInAlternation "list") := rfl

end Grammar

end Lookahead
