import Lookahead.Proofs.Generation
import Lookahead.Proofs.Leastness
import Lookahead.Proofs.Lockstep
import Lookahead.Proofs.Naming
import Mathlib.Logic.Equiv.Defs

/-!
What the analysis finds does not depend on how the rules are numbered, nor on the order of the
alternatives.  The sets are least, so each of two numberings bounds what is found under the other.
-/

namespace Lookahead

def ResolvedSymbol.map {n m : Nat} (move : Fin n → Fin m) : ResolvedSymbol n → ResolvedSymbol m
  | .terminal bytes => .terminal bytes
  | .rule index => .rule (move index)
  | .endOfLine => .endOfLine
  | .empty => .empty

@[simp] theorem ResolvedSymbol.map_symm_map {n m : Nat} (move : Fin n ≃ Fin m)
    (symbol : ResolvedSymbol n) : (symbol.map move).map move.symm = symbol := by
  cases symbol <;> simp [map]

namespace Resolved

variable {n m : Nat}

def pulled {α : Type} (move : Fin n → Fin m) (values : Vector α m) : Vector α n :=
  Vector.ofFn fun index => values.get (move index)

theorem get_pulled {α : Type} (move : Fin n → Fin m) (values : Vector α m) (index : Fin n) :
    values.get (move index) = (pulled move values).get index := by
  change _ = (Vector.ofFn _)[index.val]
  rw [Vector.getElem_ofFn]

/-! ### Symbols under other numbers -/

section Symbols

variable {move : Fin n → Fin m}

theorem allNullable_map {marked : Vector Bool n} {others : Vector Bool m}
    (same : ∀ index, others.get (move index) = marked.get index)
    (symbols : List (ResolvedSymbol n)) :
    allNullable others (symbols.map (ResolvedSymbol.map move)) = allNullable marked symbols := by
  rw [allNullable, List.all_map, allNullable]
  congr 1
  funext symbol
  cases symbol with
  | rule index => exact same index
  | _ => rfl

theorem leadingRules_map {marked : Vector Bool n} {others : Vector Bool m}
    (same : ∀ index, others.get (move index) = marked.get index)
    (symbols : List (ResolvedSymbol n)) :
    leadingRules others (symbols.map (ResolvedSymbol.map move)) =
      (leadingRules marked symbols).map move := by
  induction symbols with
  | nil => rfl
  | cons symbol rest ih =>
      cases symbol with
      | rule index =>
          simp only [List.map_cons, ResolvedSymbol.map, leadingRules, same, ih]
          split <;> rfl
      | _ => rfl

theorem firstOf_map {first : Vector ByteSet n} {others : Vector ByteSet m}
    (same : ∀ index, others.get (move index) = first.get index)
    (symbols : List (ResolvedSymbol n)) :
    firstOf others (symbols.map (ResolvedSymbol.map move)) = firstOf first symbols := by
  induction symbols with
  | nil => rfl
  | cons symbol rest ih =>
      cases symbol with
      | rule index => simp only [List.map_cons, ResolvedSymbol.map, firstOf, same, ih]
      | _ => rfl

theorem followed_map_iff {first follow : Vector ByteSet n} {others otherFollow : Vector ByteSet m}
    (same : ∀ index, others.get (move index) = first.get index)
    (sameFollow : ∀ index, otherFollow.get (move index) = follow.get index) (after : ByteSet)
    (symbols : List (ResolvedSymbol n)) :
    Followed others otherFollow after (symbols.map (ResolvedSymbol.map move)) ↔
      Followed first follow after symbols := by
  induction symbols with
  | nil => exact Iff.rfl
  | cons symbol rest ih =>
      cases symbol with
      | rule index =>
          simp only [List.map_cons, ResolvedSymbol.map, Followed, Predicts, firstOf_map same,
            sameFollow, ih]
      | _ => exact ih

end Symbols

/-! ### Grammars under other numbers -/

/-- The same grammar, where the rules have other numbers, except for the start rule, and the
alternatives of each rule come in any order. -/
structure Renumbers (move : Fin n ≃ Fin m) (grammar : Resolved n) (other : Resolved m) : Prop where
  head_get : ∀ index, other.heads.get (move index) = grammar.heads.get index
  rules_perm : ∀ index, (other.rules.get (move index)).Perm
    ((grammar.rules.get index).map (List.map (ResolvedSymbol.map move)))
  start_iff : ∀ index, (move index).val = 0 ↔ index.val = 0

namespace Renumbers

variable {move : Fin n ≃ Fin m} {grammar : Resolved n} {other : Resolved m}

theorem symm (renumbers : grammar.Renumbers move other) : other.Renumbers move.symm grammar where
  head_get := by
    intro index
    rw [← renumbers.head_get, move.apply_symm_apply]
  rules_perm := by
    intro index
    have back := (renumbers.rules_perm (move.symm index)).map
      (List.map (ResolvedSymbol.map move.symm))
    rw [move.apply_symm_apply, List.map_map] at back
    simpa [Function.comp_def] using back.symm
  start_iff := by
    intro index
    rw [← renumbers.start_iff, move.apply_symm_apply]

variable (renumbers : grammar.Renumbers move other)
include renumbers

theorem mem_rules {index : Fin n}
    {symbols : List (ResolvedSymbol n)} (chosen : symbols ∈ grammar.rules.get index) :
    symbols.map (ResolvedSymbol.map move) ∈ other.rules.get (move index) :=
  (renumbers.rules_perm index).mem_iff.mpr (List.mem_map_of_mem chosen)

theorem nullable_of_nullable (index : Fin n)
    (marked : grammar.nullableRules.get index = true) :
    other.nullableRules.get (move index) = true := by
  have same := get_pulled move other.nullableRules
  set bound := pulled move other.nullableRules
  have closed : grammar.NullableClosed bound := by
    intro index symbols chosen all
    rw [← same]
    exact other.nullableRules_closed (renumbers.mem_rules chosen)
      ((allNullable_map same symbols).trans all)
  rw [same]
  exact nullableRules_least closed index marked

theorem nullable_get (index : Fin n) :
    other.nullableRules.get (move index) = grammar.nullableRules.get index := by
  -- Leastness gives one direction; the other one is the same fact read backwards.
  refine Bool.eq_iff_iff.mpr ⟨fun marked => ?_, renumbers.nullable_of_nullable index⟩
  simpa using renumbers.symm.nullable_of_nullable (move index) marked

theorem first_of_first (index : Fin n) (byte : UInt8)
    (member : (grammar.analysis.first.get index).contains byte = true) :
    (other.analysis.first.get (move index)).contains byte = true := by
  have same := get_pulled move other.analysis.first
  have otherClosed : other.FirstClosed other.analysis.first := other.firstClosed_firstSets _
  set bound := pulled move other.analysis.first
  have seeded : ∀ index, grammar.nullableRules.get index = true →
      (bound.get index).contains endOfInputByte = true := by
    intro index marked
    rw [← same]
    exact other.firstSets_seeded ((renumbers.nullable_get index).trans marked)
  have closed : grammar.FirstClosed bound := by
    intro index symbols chosen byte begins
    rw [← same]
    refine otherClosed _ _ (renumbers.mem_rules chosen) byte ?_
    rwa [firstOf_map same]
  rw [same]
  exact firstSets_least seeded closed index byte member

theorem first_get (index : Fin n) :
    other.analysis.first.get (move index) = grammar.analysis.first.get index := by
  refine ByteSet.ext_contains fun byte => Bool.eq_iff_iff.mpr
    ⟨fun member => ?_, renumbers.first_of_first index byte⟩
  simpa using renumbers.symm.first_of_first (move index) byte member

theorem follow_of_follow (index : Fin n) (byte : UInt8)
    (member : (grammar.analysis.follow.get index).contains byte = true) :
    (other.analysis.follow.get (move index)).contains byte = true := by
  have same := get_pulled move other.analysis.follow
  set bound := pulled move other.analysis.follow
  have seeded : ∀ index : Fin n, index.val = 0 →
      (bound.get index).contains endOfInputByte = true := by
    intro index start
    rw [← same]
    exact other.followSets_start _ ((renumbers.start_iff index).mpr start)
  have closed : grammar.FollowClosed grammar.analysis.first bound := by
    intro index symbols chosen
    rw [← same, ← followed_map_iff renumbers.first_get same]
    exact other.followClosed_followSets _ _ _ (renumbers.mem_rules chosen)
  rw [same]
  exact followSets_least seeded closed index byte member

theorem follow_get (index : Fin n) :
    other.analysis.follow.get (move index) = grammar.analysis.follow.get index := by
  refine ByteSet.ext_contains fun byte => Bool.eq_iff_iff.mpr
    ⟨fun member => ?_, renumbers.follow_of_follow index byte⟩
  simpa using renumbers.symm.follow_of_follow (move index) byte member

theorem leftCorner_of_leftCorner (wellFormed : grammar.WellFormed)
    (otherWellFormed : other.WellFormed) {rule next : Fin n}
    (leads : grammar.LeftCorner rule next) : other.LeftCorner (move rule) (move next) := by
  have leading := (mem_leftCorners_iff wellFormed rule next).mpr leads
  obtain ⟨symbols, chosen, found⟩ := List.mem_flatMap.mp leading
  refine (mem_leftCorners_iff otherWellFormed _ _).mp ?_
  refine List.mem_flatMap.mpr ⟨_, renumbers.mem_rules chosen, ?_⟩
  rw [leadingRules_map renumbers.nullable_get]
  exact List.mem_map_of_mem found

theorem checkLeftRecursion_eq_ok (wellFormed : grammar.WellFormed)
    (otherWellFormed : other.WellFormed)
    (checked : grammar.checkLeftRecursion grammar.nullableRules = .ok ()) :
    other.checkLeftRecursion other.nullableRules = .ok () := by
  rw [checkLeftRecursion_eq_ok_iff wellFormed] at checked
  rw [checkLeftRecursion_eq_ok_iff otherWellFormed]
  intro rule cycle
  refine checked (move.symm rule) (cycle.lift move.symm fun rule next leads => ?_)
  exact renumbers.symm.leftCorner_of_leftCorner otherWellFormed wellFormed leads

end Renumbers

end Resolved

/-! ### Tables of analyses under other numbers -/

section Operations

variable {n m : Nat} {move : Fin n → Fin m} {number : Nat → Nat}
  (agrees : ∀ index, number (index : Fin n).val = (move index).val)
include agrees

theorem ResolvedSymbol.operation?_map (symbol : ResolvedSymbol n) :
    (symbol.map move).operation? = symbol.operation?.map (Operation.renumber number) := by
  cases symbol with
  | rule index => simp [map, operation?, Operation.renumber, Callee.renumber, agrees]
  | _ => rfl

theorem Resolved.operations_map (symbols : List (ResolvedSymbol n)) :
    (symbols.map (ResolvedSymbol.map move)).filterMap ResolvedSymbol.operation? =
      (symbols.filterMap ResolvedSymbol.operation?).map (Operation.renumber number) := by
  rw [List.filterMap_map, List.map_filterMap]
  congr 1
  funext symbol
  exact ResolvedSymbol.operation?_map agrees symbol

end Operations

namespace Analysis

variable {n m : Nat}

theorem ruleNamed?_eq_some_iff {analysis : Analysis n}
    (distinct : Function.Injective analysis.grammar.heads.get) {head : String} {rule : Fin n} :
    analysis.ruleNamed? head = some rule ↔ analysis.grammar.heads.get rule = head := by
  rw [ruleNamed?]
  constructor
  · intro found
    simpa using List.find?_some found
  · rintro rfl
    cases found : (List.finRange n).find? fun other =>
        analysis.grammar.heads.get other == analysis.grammar.heads.get rule with
    | none =>
        have fails := List.find?_eq_none.mp found rule (List.mem_finRange rule)
        simp at fails
    | some other =>
        have same := List.find?_some found
        exact congrArg some (distinct (by simpa using same))

structure Renumbers (move : Fin n ≃ Fin m) (analysis : Analysis n) (other : Analysis m) :
    Prop where
  grammar : analysis.grammar.Renumbers move other.grammar
  first_get : ∀ index, other.first.get (move index) = analysis.first.get index
  follow_get : ∀ index, other.follow.get (move index) = analysis.follow.get index

namespace Renumbers

variable {move : Fin n ≃ Fin m} {analysis : Analysis n} {other : Analysis m}
  {number : Nat → Nat} (renumbers : analysis.Renumbers move other)
include renumbers

theorem ruleNamed?_eq (distinct : Function.Injective analysis.grammar.heads.get) (head : String) :
    other.ruleNamed? head = (analysis.ruleNamed? head).map move := by
  have otherDistinct : Function.Injective other.grammar.heads.get := by
    intro left right same
    obtain ⟨left, rfl⟩ := move.surjective left
    obtain ⟨right, rfl⟩ := move.surjective right
    rw [renumbers.grammar.head_get, renumbers.grammar.head_get] at same
    exact congrArg move (distinct same)
  refine Option.ext fun rule => ?_
  obtain ⟨rule, rfl⟩ := move.surjective rule
  simp [ruleNamed?_eq_some_iff otherDistinct, ruleNamed?_eq_some_iff distinct,
    renumbers.grammar.head_get]

theorem setsNamed?_eq (distinct : Function.Injective analysis.grammar.heads.get) (head : String) :
    other.setsNamed? head = analysis.setsNamed? head := by
  rw [setsNamed?, renumbers.ruleNamed?_eq distinct, setsNamed?, Option.map_map]
  congr 1
  funext rule
  simp only [Function.comp_apply, renumbers.first_get, renumbers.follow_get]

variable (agrees : ∀ index, number (index : Fin n).val = (move index).val)
include agrees

theorem alternativeClaims_map (rule : Fin n) (symbols : List (ResolvedSymbol n)) :
    RowDraft.alternativeClaims other (move rule) (symbols.map (ResolvedSymbol.map move)) =
      (RowDraft.alternativeClaims analysis rule symbols).map
        (Prod.map id (List.map (Operation.renumber number))) := by
  simp only [RowDraft.alternativeClaims, Resolved.firstOf_map renumbers.first_get,
    Resolved.operations_map agrees, renumbers.follow_get]
  split <;> rfl

theorem claims_perm (rule : Fin n) :
    (other.claims (move rule)).Perm
      ((analysis.claims rule).map (Prod.map id (List.map (Operation.renumber number)))) := by
  have perm := (renumbers.grammar.rules_perm rule).flatMap_right
    (RowDraft.alternativeClaims other (move rule))
  rw [List.flatMap_map] at perm
  rw [claims, claims, List.map_flatMap]
  simpa only [renumbers.alternativeClaims_map agrees] using perm

theorem exists_table (tabulated : ∃ table, analysis.table = .ok table) :
    ∃ table, other.table = .ok table := by
  rw [exists_table_iff] at tabulated ⊢
  intro rule
  obtain ⟨rule, rfl⟩ := move.surjective rule
  -- Being apart is symmetric, so the order of the claims does not matter.
  rw [(renumbers.claims_perm agrees rule).pairwise_iff fun apart => apart.symm,
    List.pairwise_map]
  exact tabulated rule

theorem table_renumbers (outside : ∀ id, n ≤ id → m ≤ number id) {table otherTable : Table}
    (realizes : table.Realizes analysis) (otherRealizes : otherTable.Realizes other) :
    table.Renumbers number otherTable where
  absent := by
    intro id missing
    refine otherRealizes.absent _ (outside id ?_)
    by_contra inside
    obtain ⟨row, present, _⟩ := realizes.present ⟨id, Nat.lt_of_not_le inside⟩
    simp [missing] at present
  present := by
    intro id row present
    have bound := realizes.lt_of_row? present
    obtain ⟨known, found, cells⟩ := realizes.present ⟨id, bound⟩
    obtain rfl := Option.some.inj (found.symm.trans present)
    obtain ⟨otherRow, otherPresent, otherCells⟩ := otherRealizes.present (move ⟨id, bound⟩)
    refine ⟨otherRow, by rw [agrees ⟨id, bound⟩]; exact otherPresent, fun byte => ?_⟩
    refine Option.ext fun operations => ?_
    simp only [otherCells, (renumbers.claims_perm agrees _).mem_iff, List.mem_map,
      Option.map_eq_some_iff, cells]
    constructor
    · rintro ⟨_, ⟨⟨set, old⟩, member, same⟩, contains⟩
      obtain ⟨rfl, rfl⟩ := Prod.mk.inj same
      exact ⟨old, ⟨set, member, contains⟩, rfl⟩
    · rintro ⟨old, ⟨set, member, contains⟩, rfl⟩
      exact ⟨set, ⟨(set, old), member, rfl⟩, contains⟩

theorem get?_names (injective : Function.Injective number) (id : Nat) :
    other.names.get? (.rule (number id)) = analysis.names.get? (.rule id) := by
  refine Option.ext fun name => ?_
  simp only [NameMap.get?_eq_some_iff, entries_names, nameEntries, List.mem_map,
    List.mem_finRange, true_and, Prod.mk.injEq, NodeKind.rule.injEq]
  constructor
  · rintro ⟨rule, same, rfl⟩
    obtain ⟨rule, rfl⟩ := move.surjective rule
    rw [← agrees] at same
    exact ⟨rule, injective same, (renumbers.grammar.head_get rule).symm⟩
  · rintro ⟨rule, rfl, rfl⟩
    exact ⟨move rule, (agrees rule).symm, renumbers.grammar.head_get rule⟩

theorem nameOf_names (injective : Function.Injective number)
    (fixed : ∀ id, n ≤ id → number id = id) (id : Nat) :
    other.names.withBuiltins.nameOf (.rule (number id)) =
      analysis.names.withBuiltins.nameOf (.rule id) := by
  have same := renumbers.get?_names agrees injective id
  simp only [NameMap.nameOf, NameMap.withBuiltins, NameMap.get?_insert, reduceCtorEq, if_false,
    same]
  by_cases inside : id < n
  · have named : analysis.names.get? (.rule id) =
        some (analysis.grammar.heads.get ⟨id, inside⟩) := by
      rw [NameMap.get?_eq_some_iff, entries_names]
      exact List.mem_map.mpr ⟨⟨id, inside⟩, List.mem_finRange _, rfl⟩
    rw [named, Option.getD_some, Option.getD_some]
  · -- A kind without a name is shown by its number, which must be the same here.
    rw [fixed id (Nat.le_of_not_lt inside)]

end Renumbers

end Analysis

end Lookahead
