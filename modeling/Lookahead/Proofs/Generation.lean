import Lookahead.Engine.Parser
import Lookahead.Proofs.Claims
import Lookahead.Proofs.LeftCorner
import Lookahead.Proofs.Prediction
import Mathlib.Data.List.Pairwise

/-!
What a generated table relies on: the analysis is sound, no rule reaches itself by left corners,
and no byte is claimed twice in a row.
-/

namespace Lookahead

variable {n : Nat}

structure Analysis.Sound (analysis : Analysis n) : Prop where
  wellFormed : analysis.grammar.WellFormed
  first_closed : analysis.grammar.FirstClosed analysis.first
  first_marks : analysis.grammar.FirstMarksNullable analysis.first
  follow_closed : analysis.grammar.FollowClosed analysis.first analysis.follow
  follow_start : ∀ index : Fin n, index.val = 0 →
    (analysis.follow.get index).contains endOfInputByte = true
  acyclic : ∀ rule, ¬ Relation.TransGen analysis.grammar.LeftCorner rule rule

/-- The table has a row for each rule, whose cells are the claims of the rule, and no other. -/
structure Table.Realizes (table : Table) (analysis : Analysis n) : Prop where
  apart : ∀ rule, (analysis.claims rule).Pairwise fun left right => left.1.Apart right.1
  present : ∀ rule : Fin n, ∃ row, table.row? rule.val = some row ∧
    ∀ byte operations, row.lookup byte = some operations ↔
      ∃ set, (set, operations) ∈ analysis.claims rule ∧ set.contains byte = true
  absent : ∀ id, n ≤ id → table.row? id = none

def Resolved.analysis (grammar : Resolved n) : Analysis n where
  grammar := grammar
  first := grammar.firstSets grammar.nullableRules
  follow := grammar.followSets (grammar.firstSets grammar.nullableRules)

theorem Grammar.analyze_eq_ok_iff {grammar : Grammar}
    {analysis : Analysis grammar.rules.length} :
    grammar.analyze = .ok analysis ↔
      ∃ resolved, grammar.resolve = .ok resolved ∧
        resolved.checkLeftRecursion resolved.nullableRules = .ok () ∧
        analysis = resolved.analysis := by
  constructor
  · intro analyzed
    obtain ⟨resolved, resolution, rest⟩ := bind_eq_ok_iff.mp analyzed
    obtain ⟨_, checked, result⟩ := bind_eq_ok_iff.mp rest
    exact ⟨resolved, resolution, checked, (Except.ok.inj result).symm⟩
  · rintro ⟨resolved, resolution, checked, rfl⟩
    exact bind_eq_ok_iff.mpr ⟨resolved, resolution, bind_eq_ok_iff.mpr ⟨(), checked, rfl⟩⟩

theorem Grammar.sound_of_analyze {grammar : Grammar} {analysis : Analysis grammar.rules.length}
    (success : grammar.analyze = .ok analysis) :
    analysis.Sound ∧ grammar.Resolves analysis.grammar := by
  obtain ⟨resolved, resolution, checked, rfl⟩ := analyze_eq_ok_iff.mp success
  have resolves := resolves_of_resolve_eq_ok resolution
  have wellFormed := resolves.wellFormed
  exact
    ⟨{ wellFormed
       first_closed := resolved.firstClosed_firstSets _
       first_marks := Resolved.firstMarksNullable_firstSets wellFormed
       follow_closed := resolved.followClosed_followSets _
       follow_start := fun index start => resolved.followSets_start _ start
       acyclic := (Resolved.checkLeftRecursion_eq_ok_iff wellFormed).mp checked },
      resolves⟩

theorem Analysis.realizes_of_table {analysis : Analysis n} {table : Table}
    (success : analysis.table = .ok table) : table.Realizes analysis := by
  rw [Analysis.table_eq] at success
  obtain ⟨rows, converted, result⟩ := bind_eq_ok_iff.mp success
  obtain rfl : Table.ofRows rows = table := Except.ok.inj result
  have each := mapM_eq_ok_iff.mp converted
  have lengths : rows.length = n := by simpa using each.length_eq.symm
  have rowAt (rule : Fin n) : ∃ row, rows[rule.val]? = some row ∧ analysis.row rule = .ok row := by
    have bound : rule.val < rows.length := by omega
    have here := (List.forall₂_iff_get.mp each).2 rule.val (by simp) bound
    exact ⟨rows[rule.val], List.getElem?_eq_getElem bound, by simpa using here⟩
  refine ⟨?_, ?_, ?_⟩
  · intro rule
    obtain ⟨row, _, made⟩ := rowAt rule
    exact (exists_row_iff rule).mp ⟨row, made⟩
  · intro rule
    obtain ⟨row, found, made⟩ := rowAt rule
    refine ⟨row, by simp [found], fun byte operations => ?_⟩
    exact lookup_row_iff made byte operations
  · intro id beyond
    have missing : rows[id]? = none := List.getElem?_eq_none (by omega)
    simp [missing]

theorem Analysis.exists_table_iff {analysis : Analysis n} :
    (∃ table, analysis.table = .ok table) ↔
      ∀ rule, (analysis.claims rule).Pairwise fun left right => left.1.Apart right.1 := by
  constructor
  · rintro ⟨table, success⟩
    exact (realizes_of_table success).apart
  · intro apart
    obtain ⟨rows, converted⟩ := exists_mapM_eq_ok_iff.mpr fun rule (_ : rule ∈ List.finRange n) =>
      (exists_row_iff rule).mpr (apart rule)
    exact ⟨.ofRows rows, analysis.table_eq.trans (bind_eq_ok_iff.mpr ⟨rows, converted, rfl⟩)⟩

theorem Grammar.generate_eq_ok_iff {grammar : Grammar} {table : Table} {names : NameMap} :
    grammar.generate = .ok (table, names) ↔
      ∃ analysis : Analysis grammar.rules.length, grammar.analyze = .ok analysis ∧
        analysis.table = .ok table ∧ names = analysis.names := by
  constructor
  · intro generated
    obtain ⟨analysis, analyzed, rest⟩ := bind_eq_ok_iff.mp generated
    obtain ⟨made, tabulated, same⟩ := bind_eq_ok_iff.mp rest
    obtain ⟨rfl, rfl⟩ := Prod.mk.inj (Except.ok.inj same)
    exact ⟨analysis, analyzed, tabulated, rfl⟩
  · rintro ⟨analysis, analyzed, tabulated, rfl⟩
    exact bind_eq_ok_iff.mpr ⟨analysis, analyzed, bind_eq_ok_iff.mpr ⟨table, tabulated, rfl⟩⟩

theorem Grammar.realizes_of_generate {grammar : Grammar} {table : Table} {names : NameMap}
    (generated : grammar.generate = .ok (table, names)) :
    ∃ analysis : Analysis grammar.rules.length,
      analysis.Sound ∧ grammar.Resolves analysis.grammar ∧ table.Realizes analysis := by
  obtain ⟨analysis, analyzed, tabulated, _⟩ := generate_eq_ok_iff.mp generated
  obtain ⟨sound, resolves⟩ := sound_of_analyze analyzed
  exact ⟨analysis, sound, resolves, Analysis.realizes_of_table tabulated⟩

theorem Parser.realizes_of_ofGrammar {grammar : Grammar} {parser : Parser}
    (success : Parser.ofGrammar grammar = .ok parser) :
    ∃ analysis : Analysis grammar.rules.length,
      analysis.Sound ∧ grammar.Resolves analysis.grammar ∧ parser.table.Realizes analysis := by
  obtain ⟨⟨table, names⟩, generated, result⟩ := bind_eq_ok_iff.mp success
  obtain rfl := Except.ok.inj result
  exact Grammar.realizes_of_generate generated

def Grammar.ruleNames (grammar : Grammar) : NameMap :=
  (List.finRange grammar.rules.length).foldl
    (fun names rule => names.insert (.rule rule.val) (grammar.rules.get rule).head) NameMap.empty

theorem Parser.names_of_ofGrammar {grammar : Grammar} {parser : Parser}
    (success : Parser.ofGrammar grammar = .ok parser) :
    parser.names = grammar.ruleNames.withBuiltins := by
  obtain ⟨⟨table, names⟩, generated, result⟩ := bind_eq_ok_iff.mp success
  obtain rfl := Except.ok.inj result
  obtain ⟨analysis, analyzed, _, rfl⟩ := Grammar.generate_eq_ok_iff.mp generated
  obtain ⟨_, resolves⟩ := Grammar.sound_of_analyze analyzed
  simp only [ofTable, Analysis.names, Grammar.ruleNames, resolves.head_get]

namespace Table.Realizes

variable {table : Table} {analysis : Analysis n} {rule : Fin n}

theorem lt_of_row? (realizes : table.Realizes analysis) {id : Nat} {row : Row}
    (present : table.row? id = some row) : id < n := by
  by_contra beyond
  simp [realizes.absent id (Nat.le_of_not_lt beyond)] at present

/-- What a lookahead selects: an alternative that begins with it, or no operations at all where
it follows the rule and some alternative may be empty. -/
theorem lookup_iff (realizes : table.Realizes analysis) (rule : Fin n) {row : Row}
    (present : table.row? rule.val = some row) {byte : UInt8} {operations : List Operation} :
    row.lookup byte = some operations ↔
      ∃ symbols ∈ analysis.grammar.rules.get rule,
        ((Resolved.firstOf analysis.first symbols).contains byte = true ∧
            byte ≠ endOfInputByte ∧
            operations = symbols.filterMap ResolvedSymbol.operation?) ∨
          ((Resolved.firstOf analysis.first symbols).contains endOfInputByte = true ∧
            (analysis.follow.get rule).contains byte = true ∧ operations = []) := by
  obtain ⟨other, found, cells⟩ := realizes.present rule
  obtain rfl := Option.some.inj (found.symm.trans present)
  rw [cells]
  constructor
  · rintro ⟨set, member, contains⟩
    obtain ⟨symbols, chosen, claimed⟩ := List.mem_flatMap.mp member
    refine ⟨symbols, chosen, ?_⟩
    rcases List.mem_cons.mp claimed with begins | follows
    · obtain ⟨rfl, rfl⟩ := Prod.mk.inj begins
      simp only [ByteSet.contains_erase, Bool.and_eq_true, Bool.not_eq_true',
        beq_eq_false_iff_ne] at contains
      exact Or.inl ⟨contains.1, Ne.symm contains.2, rfl⟩
    · split at follows
      · rename_i nullable
        obtain ⟨rfl, rfl⟩ := Prod.mk.inj (List.mem_singleton.mp follows)
        exact Or.inr ⟨nullable, contains, rfl⟩
      · simp at follows
  · rintro ⟨symbols, chosen, ⟨begins, different, rfl⟩ | ⟨nullable, follows, rfl⟩⟩
    · refine ⟨_, List.mem_flatMap.mpr ⟨symbols, chosen, List.mem_cons_self⟩, ?_⟩
      simp [begins, Ne.symm different]
    · refine ⟨analysis.follow.get rule, List.mem_flatMap.mpr ⟨symbols, chosen, ?_⟩, follows⟩
      simp [RowDraft.alternativeClaims, nullable]

theorem eq_of_predicts (realizes : table.Realizes analysis)
    {left right : List (ResolvedSymbol n)}
    (leftChosen : left ∈ analysis.grammar.rules.get rule)
    (rightChosen : right ∈ analysis.grammar.rules.get rule) {byte : UInt8}
    (leftPredicts : Resolved.Predicts analysis.first (analysis.follow.get rule) left byte)
    (rightPredicts : Resolved.Predicts analysis.first (analysis.follow.get rule) right byte) :
    left = right := by
  have claimed {symbols : List (ResolvedSymbol n)}
      (predicts : Resolved.Predicts analysis.first (analysis.follow.get rule) symbols byte) :
      ∃ claim ∈ RowDraft.alternativeClaims analysis rule symbols,
        claim.1.contains byte = true := by
    rcases predicts with ⟨begins, different⟩ | ⟨nullable, follows⟩
    · exact ⟨_, List.mem_cons_self, by simp [begins, Ne.symm different]⟩
    · exact ⟨(analysis.follow.get rule, []), by simp [RowDraft.alternativeClaims, nullable],
        follows⟩
  obtain ⟨_, across⟩ := List.pairwise_flatMap.mp (realizes.apart rule)
  obtain ⟨leftClaim, leftMember, leftContains⟩ := claimed leftPredicts
  obtain ⟨rightClaim, rightMember, rightContains⟩ := claimed rightPredicts
  by_contra different
  have : Std.Symm fun left right =>
      ∀ claim ∈ RowDraft.alternativeClaims analysis rule left,
        ∀ other ∈ RowDraft.alternativeClaims analysis rule right, claim.1.Apart other.1 :=
    ⟨fun left right apart claim member other otherMember =>
      (apart other otherMember claim member).symm⟩
  have apart := across.forall leftChosen rightChosen different leftClaim leftMember rightClaim
    rightMember byte leftContains
  simp [rightContains] at apart

end Table.Realizes

end Lookahead
