import Lookahead.Proofs.Successors

/-!
A generated table is the predictive table of its grammar: an alternative is found under the bytes
that its forms begin with, and nothing at all where an alternative may be empty and the byte can
follow the rule.  There is no table exactly if a rule has a byte for which two of these hold.
-/

namespace Lookahead

namespace Grammar

def operation? (grammar : Grammar) : Symbol → Option Operation
  | .terminal bytes => some (.matchLiteral bytes)
  | .nonTerminal name =>
      match grammar.rules.findIdx? (·.head == name) with
      | some id => some (.invoke (.rule id))
      | none => some (.invoke .endOfLine)
  | .empty => none

/-- An alternative claims a byte because it can begin with it, or because it may be empty and the
byte can follow its rule. -/
inductive Reason
  | begins
  | follows
deriving DecidableEq

/-- The alternative at a place of the rule claims the byte, for a reason, and asks for operations
under it. -/
inductive Claims (grammar : Grammar) (rule : Rule) (byte : UInt8) :
    Nat × Reason → List Operation → Prop
  | begins {place alternative} : rule.alternatives[place]? = some alternative →
      byte ≠ endOfInputByte → grammar.Begins (alternative.flatMap Symbol.form) byte →
      Claims grammar rule byte (place, .begins) (alternative.filterMap grammar.operation?)
  | follows {place alternative} : rule.alternatives[place]? = some alternative →
      grammar.Rewrites (alternative.flatMap Symbol.form) [] → grammar.HasFollow rule.head byte →
      Claims grammar rule byte (place, .follows) []

/-- Two alternatives claim the byte, or one for both reasons. -/
def ClaimedTwice (grammar : Grammar) (rule : Rule) (byte : UInt8) : Prop :=
  ∃ one two operations others, one ≠ two ∧ grammar.Claims rule byte one operations ∧
    grammar.Claims rule byte two others

end Grammar

open Grammar (Reason)

namespace Analysis

variable {n : Nat} {analysis : Analysis n} {rule : Fin n}

def claimFor (analysis : Analysis n) (rule : Fin n) (symbols : List (ResolvedSymbol n)) :
    Reason → Option (ByteSet × List Operation)
  | .begins => some ((Resolved.firstOf analysis.first symbols).erase endOfInputByte,
      symbols.filterMap ResolvedSymbol.operation?)
  | .follows =>
      if (Resolved.firstOf analysis.first symbols).contains endOfInputByte then
        some (analysis.follow.get rule, [])
      else none

theorem alternativeClaims_eq (symbols : List (ResolvedSymbol n)) :
    RowDraft.alternativeClaims analysis rule symbols =
      [.begins, .follows].filterMap (analysis.claimFor rule symbols) := by
  rw [RowDraft.alternativeClaims]
  split
  · rename_i nullable
    simp [claimFor, nullable]
  · rename_i solid
    simp [claimFor, solid]

theorem mem_alternativeClaims_iff {symbols : List (ResolvedSymbol n)}
    {claim : ByteSet × List Operation} :
    claim ∈ RowDraft.alternativeClaims analysis rule symbols ↔
      ∃ reason, analysis.claimFor rule symbols reason = some claim := by
  rw [alternativeClaims_eq, List.mem_filterMap]
  constructor
  · rintro ⟨reason, _, made⟩
    exact ⟨reason, made⟩
  · rintro ⟨reason, made⟩
    exact ⟨reason, by cases reason <;> simp, made⟩

def Takes (analysis : Analysis n) (rule : Fin n) (byte : UInt8) (key : Nat × Reason)
    (operations : List Operation) : Prop :=
  ∃ symbols set, (analysis.grammar.rules.get rule)[key.1]? = some symbols ∧
    analysis.claimFor rule symbols key.2 = some (set, operations) ∧ set.contains byte = true

theorem exists_mem_claims_iff {byte : UInt8} {operations : List Operation} :
    (∃ set, (set, operations) ∈ analysis.claims rule ∧ set.contains byte = true) ↔
      ∃ key, analysis.Takes rule byte key operations := by
  constructor
  · rintro ⟨set, member, contains⟩
    obtain ⟨symbols, chosen, claimed⟩ := List.mem_flatMap.mp member
    obtain ⟨place, found⟩ := List.mem_iff_getElem?.mp chosen
    obtain ⟨reason, made⟩ := mem_alternativeClaims_iff.mp claimed
    exact ⟨(place, reason), symbols, set, found, made, contains⟩
  · rintro ⟨key, symbols, set, found, made, contains⟩
    exact ⟨set, List.mem_flatMap.mpr ⟨symbols, List.mem_of_getElem? found,
      mem_alternativeClaims_iff.mpr ⟨key.2, made⟩⟩, contains⟩

theorem claimedOnce_alternative_iff {symbols : List (ResolvedSymbol n)} {byte : UInt8} :
    ClaimedOnce byte (RowDraft.alternativeClaims analysis rule symbols) ↔
      ∀ begins follows, analysis.claimFor rule symbols .begins = some begins →
        analysis.claimFor rule symbols .follows = some follows →
          ¬ (begins.1.contains byte = true ∧ follows.1.contains byte = true) := by
  rw [ClaimedOnce, alternativeClaims_eq, List.pairwise_filterMap, List.pairwise_pair]
  exact ⟨fun apart begins follows made others => apart begins made follows others,
    fun apart begins made follows others => apart begins follows made others⟩

theorem claimedOnce_iff {byte : UInt8} :
    ClaimedOnce byte (analysis.claims rule) ↔
      ∀ one two operations others, analysis.Takes rule byte one operations →
        analysis.Takes rule byte two others → one = two := by
  rw [ClaimedOnce, claims, List.pairwise_flatMap]
  constructor
  · rintro ⟨inside, across⟩
    have apart {one two : Nat × Reason} (less : one.1 < two.1) {operations others}
        (takes : analysis.Takes rule byte one operations) :
        ¬ analysis.Takes rule byte two others := by
      rintro ⟨_, other, otherFound, otherMade, otherContains⟩
      obtain ⟨_, set, found, made, contains⟩ := takes
      obtain ⟨bound, rfl⟩ := List.getElem?_eq_some_iff.mp found
      obtain ⟨otherBound, rfl⟩ := List.getElem?_eq_some_iff.mp otherFound
      exact List.pairwise_iff_getElem.mp across _ _ bound otherBound less
        _ (mem_alternativeClaims_iff.mpr ⟨_, made⟩)
        _ (mem_alternativeClaims_iff.mpr ⟨_, otherMade⟩) ⟨contains, otherContains⟩
    rintro ⟨place, reason⟩ ⟨other, otherReason⟩ operations others takes otherTakes
    -- Different alternatives share no byte, so only the two reasons of one are left to compare.
    rcases Nat.lt_trichotomy place other with less | rfl | greater
    · exact absurd otherTakes (apart less takes)
    · obtain ⟨symbols, set, found, made, contains⟩ := takes
      obtain ⟨_, otherSet, otherFound, otherMade, otherContains⟩ := otherTakes
      obtain rfl := Option.some.inj (found.symm.trans otherFound)
      have alone := claimedOnce_alternative_iff.mp (inside symbols (List.mem_of_getElem? found))
      cases reason <;> cases otherReason
      · rfl
      · exact absurd ⟨contains, otherContains⟩ (alone _ _ made otherMade)
      · exact absurd ⟨otherContains, contains⟩ (alone _ _ otherMade made)
      · rfl
    · exact absurd takes (apart greater otherTakes)
  · intro unique
    refine ⟨fun symbols chosen => claimedOnce_alternative_iff.mpr ?_,
      List.pairwise_iff_getElem.mpr ?_⟩
    · obtain ⟨place, found⟩ := List.mem_iff_getElem?.mp chosen
      rintro begins follows made otherMade ⟨contains, otherContains⟩
      have same := unique (place, .begins) (place, .follows) _ _
        ⟨symbols, begins.1, found, made, contains⟩
        ⟨symbols, follows.1, found, otherMade, otherContains⟩
      simp at same
    · rintro place other bound otherBound less claim member otherClaim otherMember
        ⟨contains, otherContains⟩
      obtain ⟨reason, made⟩ := mem_alternativeClaims_iff.mp member
      obtain ⟨otherReason, otherMade⟩ := mem_alternativeClaims_iff.mp otherMember
      have same := unique (place, reason) (other, otherReason) _ _
        ⟨_, claim.1, List.getElem?_eq_getElem bound, made, contains⟩
        ⟨_, otherClaim.1, List.getElem?_eq_getElem otherBound, otherMade, otherContains⟩
      exact absurd (Prod.mk.inj same).1 (Nat.ne_of_lt less)

end Analysis

namespace Grammar

variable {grammar : Grammar} {resolved : Resolved grammar.rules.length}

theorem filterMap_operation?_eq (distinct : (grammar.rules.map Rule.head).Nodup)
    {alternative : Alternative} {symbols : List (ResolvedSymbol grammar.rules.length)}
    (symbolwise : List.Forall₂ grammar.ResolvesTo alternative symbols) :
    alternative.filterMap grammar.operation? = symbols.filterMap ResolvedSymbol.operation? := by
  induction symbolwise with
  | nil => rfl
  | @cons symbol resolvedSymbol _ _ here _ ih =>
      have same : grammar.operation? symbol = resolvedSymbol.operation? := by
        cases here with
        | terminal _ _ => rfl
        | rule index =>
            have found : grammar.rules.findFinIdx? (·.head == (grammar.rules.get index).head) =
                some index := (findFinIdx?_head_eq_some_iff distinct).mpr rfl
            simp only [operation?, ResolvedSymbol.operation?, List.findIdx?_eq_map_findFinIdx?_val,
              found, Option.map_some]
        | endOfLine builtin =>
            have absent : grammar.rules.findIdx? (·.head == endOfLineName) = none := by
              simpa [rule?] using builtin
            simp only [operation?, ResolvedSymbol.operation?, absent]
        | empty => rfl
      rw [List.filterMap_cons, List.filterMap_cons, same, ih]

theorem Resolves.claims_iff (resolves : grammar.Resolves resolved)
    (index : Fin grammar.rules.length) {byte : UInt8} {key : Nat × Reason}
    {operations : List Operation} :
    grammar.Claims (grammar.rules.get index) byte key operations ↔
      resolved.analysis.Takes index byte key operations := by
  have alternatives := (resolves.forall₂_alternatives index)
  constructor
  · rintro (⟨found, different, begins⟩ | ⟨found, vanishes, follows⟩)
    · obtain ⟨symbols, among, symbolwise, _⟩ := exists_getElem?_of_forall₂ alternatives found
      have proper := resolves.wellFormed index symbols (List.mem_of_getElem? among)
      have contains := (resolves.contains_firstOf_iff symbolwise proper byte).mpr
        (Or.inl ⟨different, begins⟩)
      rw [filterMap_operation?_eq resolves.heads_nodup symbolwise]
      exact ⟨symbols, _, among, rfl, by simp [contains, Ne.symm different]⟩
    · obtain ⟨symbols, among, symbolwise, _⟩ := exists_getElem?_of_forall₂ alternatives found
      have proper := resolves.wellFormed index symbols (List.mem_of_getElem? among)
      have nullable := (resolves.contains_firstOf_iff symbolwise proper _).mpr
        (Or.inr ⟨rfl, vanishes⟩)
      exact ⟨symbols, _, among, by simp [Analysis.claimFor, nullable],
        (resolves.contains_follow_iff index byte).mpr follows⟩
  · rcases key with ⟨place, reason⟩
    rintro ⟨symbols, set, found, made, contains⟩
    obtain ⟨alternative, among, symbolwise, _⟩ := exists_getElem?_of_forall₂ alternatives.flip found
    have proper := resolves.wellFormed index symbols (List.mem_of_getElem? found)
    cases reason with
    | begins =>
        obtain ⟨rfl, rfl⟩ := Prod.mk.inj (Option.some.inj made)
        rw [← filterMap_operation?_eq resolves.heads_nodup symbolwise]
        simp only [ByteSet.contains_erase, Bool.and_eq_true, Bool.not_eq_true',
          beq_eq_false_iff_ne] at contains
        rcases (resolves.contains_firstOf_iff symbolwise proper byte).mp contains.1 with
          ⟨different, begins⟩ | ⟨same, _⟩
        · exact .begins among different begins
        · exact absurd same.symm contains.2
    | follows =>
        rw [Analysis.claimFor] at made
        split at made
        · rename_i nullable
          obtain ⟨rfl, rfl⟩ := Prod.mk.inj (Option.some.inj made)
          rcases (resolves.contains_firstOf_iff symbolwise proper _).mp nullable with
            ⟨different, _⟩ | ⟨_, vanishes⟩
          · exact absurd rfl different
          · exact .follows among vanishes ((resolves.contains_follow_iff index byte).mp contains)
        · simp at made

theorem Resolves.not_claimedTwice_iff (resolves : grammar.Resolves resolved)
    (index : Fin grammar.rules.length) (byte : UInt8) :
    ¬ grammar.ClaimedTwice (grammar.rules.get index) byte ↔
      ClaimedOnce byte (resolved.analysis.claims index) := by
  simp only [ClaimedTwice, Analysis.claimedOnce_iff, resolves.claims_iff index, not_exists]
  constructor
  · intro clear one two operations others takes otherTakes
    by_contra different
    exact clear one two operations others ⟨different, takes, otherTakes⟩
  · rintro once one two operations others ⟨different, takes, otherTakes⟩
    exact different (once one two operations others takes otherTakes)

section Analyzed

variable {analysis : Analysis grammar.rules.length}

theorem exists_generate_iff (analyzed : grammar.analyze = .ok analysis) :
    (∃ generated, grammar.generate = .ok generated) ↔
      ∀ rule ∈ grammar.rules, ∀ byte, ¬ grammar.ClaimedTwice rule byte := by
  obtain ⟨resolved, resolution, _, rfl⟩ := analyze_eq_ok_iff.mp analyzed
  have clear := (resolves_of_resolve_eq_ok resolution).not_claimedTwice_iff
  constructor
  · rintro ⟨⟨table, names⟩, generated⟩ rule member byte
    obtain ⟨_, same, tabulated, _⟩ := generate_eq_ok_iff.mp generated
    obtain rfl := Except.ok.inj (analyzed.symm.trans same)
    obtain ⟨index, rfl⟩ := List.mem_iff_get.mp member
    have apart := Analysis.exists_table_iff.mp ⟨table, tabulated⟩ index
    exact (clear index byte).mpr (pairwise_apart_iff.mp apart byte)
  · intro unclaimed
    obtain ⟨table, tabulated⟩ := Analysis.exists_table_iff.mpr fun index =>
      pairwise_apart_iff.mpr fun byte =>
        (clear index byte).mp (unclaimed _ (List.get_mem _ index) byte)
    exact ⟨_, generate_eq_ok_iff.mpr ⟨_, analyzed, tabulated, rfl⟩⟩

theorem lookup_generated_iff {table : Table} {names : NameMap}
    (generated : grammar.generate = .ok (table, names)) {index : Fin grammar.rules.length}
    {row : Row} (present : table.row? index.val = some row) (byte : UInt8)
    (operations : List Operation) :
    row.lookup byte = some operations ↔
      ∃ claim, grammar.Claims (grammar.rules.get index) byte claim operations := by
  obtain ⟨_, analyzed, tabulated, _⟩ := generate_eq_ok_iff.mp generated
  obtain ⟨resolved, resolution, _, rfl⟩ := analyze_eq_ok_iff.mp analyzed
  have resolves := resolves_of_resolve_eq_ok resolution
  obtain ⟨_, found, cells⟩ := (Analysis.realizes_of_table tabulated).present index
  obtain rfl := Option.some.inj (present.symm.trans found)
  rw [cells, Analysis.exists_mem_claims_iff]
  exact exists_congr fun claim => (resolves.claims_iff index).symm

theorem exists_claimedTwice_of_generate_eq_error (analyzed : grammar.analyze = .ok analysis)
    {error : GrammarError} (failed : grammar.generate = .error error) :
    ∃ (index : Fin grammar.rules.length) (byte : UInt8),
      error = .ambiguousCell (grammar.rules.get index).head byte ∧
      grammar.ClaimedTwice (grammar.rules.get index) byte ∧
      ∀ earlier < index, ∀ other,
        ¬ grammar.ClaimedTwice (grammar.rules.get earlier) other := by
  obtain ⟨resolved, resolution, _, rfl⟩ := analyze_eq_ok_iff.mp analyzed
  have resolves := resolves_of_resolve_eq_ok resolution
  have refused : resolved.analysis.table = .error error := by
    rcases bind_eq_error_iff.mp failed with unanalyzed | ⟨_, same, rest⟩
    · simp [analyzed] at unanalyzed
    · obtain rfl := Except.ok.inj (analyzed.symm.trans same)
      rcases bind_eq_error_iff.mp rest with tabulated | ⟨_, _, impossible⟩
      · exact tabulated
      · simp [pure, Except.pure] at impossible
  obtain ⟨index, ⟨byte, named, twice⟩, before⟩ := Analysis.exists_of_table_eq_error refused
  have claimedTwice : grammar.ClaimedTwice (grammar.rules.get index) byte := by
    by_contra clear
    exact twice ((resolves.not_claimedTwice_iff index byte).mp clear)
  exact ⟨index, byte, resolves.head_get index ▸ named, claimedTwice, fun earlier less other =>
    (resolves.not_claimedTwice_iff earlier other).mpr (before earlier less other)⟩

/-- There is a table exactly if no rule has a byte that is claimed twice; it has a row for each
rule, in which a byte finds the operations that are claimed under it; and where there is none, the
error names the first rule with a byte that is claimed twice, and such a byte of it. -/
theorem table_is_predictive (analyzed : grammar.analyze = .ok analysis) :
    ((∃ generated, grammar.generate = .ok generated) ↔
      ∀ rule ∈ grammar.rules, ∀ byte, ¬ grammar.ClaimedTwice rule byte) ∧
    (∀ table names, grammar.generate = .ok (table, names) →
      (∀ id, (∃ row, table.row? id = some row) ↔ id < grammar.rules.length) ∧
      ∀ (index : Fin grammar.rules.length) row, table.row? index.val = some row →
        ∀ byte operations, row.lookup byte = some operations ↔
          ∃ claim, grammar.Claims (grammar.rules.get index) byte claim operations) ∧
    (∀ error, grammar.generate = .error error →
      ∃ (index : Fin grammar.rules.length) (byte : UInt8),
        error = .ambiguousCell (grammar.rules.get index).head byte ∧
        grammar.ClaimedTwice (grammar.rules.get index) byte ∧
        ∀ earlier < index, ∀ other,
          ¬ grammar.ClaimedTwice (grammar.rules.get earlier) other) := by
  refine ⟨exists_generate_iff analyzed, fun table names generated => ⟨fun id => ⟨?_, ?_⟩, ?_⟩,
    fun error => exists_claimedTwice_of_generate_eq_error analyzed⟩
  · rintro ⟨row, present⟩
    obtain ⟨_, _, _, realizes⟩ := realizes_of_generate generated
    exact realizes.lt_of_row? present
  · intro bound
    obtain ⟨_, _, _, realizes⟩ := realizes_of_generate generated
    obtain ⟨row, present, _⟩ := realizes.present ⟨id, bound⟩
    exact ⟨row, present⟩
  · exact fun index row present => lookup_generated_iff generated present

theorem letterLines_table :
    ∃ analysis table names, Parser.letterLines.analyze = .ok analysis ∧
      Parser.letterLines.generate = .ok (table, names) ∧
      (∀ rule ∈ Parser.letterLines.rules, ∀ byte,
        ¬ Parser.letterLines.ClaimedTwice rule byte) ∧
      ∃ row, table.row? 1 = some row ∧
        row.lookup 10 = some [.invoke .endOfLine, .invoke (.rule 0)] ∧
        row.lookup endOfInputByte = some [] := by
  obtain ⟨table, names, generated⟩ := Parser.exists_generate_letterLines
  obtain ⟨analysis, analyzed, _⟩ := generate_eq_ok_iff.mp generated
  obtain ⟨made, cells, _⟩ := table_is_predictive analyzed
  obtain ⟨rows, found⟩ := cells table names generated
  obtain ⟨row, present⟩ := (rows 1).mpr (by decide)
  have operations : [.nonTerminal endOfLineName, .nonTerminal "lines"].filterMap
      Parser.letterLines.operation? = [.invoke .endOfLine, .invoke (.rule 0)] := rfl
  have breaks : Parser.letterLines.Claims Parser.letterLines.rules[1] 10 (0, .begins)
      [.invoke .endOfLine, .invoke (.rule 0)] := by
    rw [← operations]
    exact .begins rfl (by decide) ⟨_, _, .refl _, .lineFeed rfl⟩
  have ends : Parser.letterLines.Claims Parser.letterLines.rules[1] endOfInputByte (1, .follows)
      [] :=
    .follows rfl (.refl _) (Or.inr ⟨rfl, _, rfl, [.terminal 97], rewrites_of_mem (by decide)⟩)
  exact ⟨analysis, table, names, analyzed, generated, made.mp ⟨_, generated⟩, row, present,
    (found ⟨1, by decide⟩ row present _ _).mpr ⟨_, breaks⟩,
    (found ⟨1, by decide⟩ row present _ _).mpr ⟨_, ends⟩⟩

end Analyzed

end Grammar

end Lookahead
