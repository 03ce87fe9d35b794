import Lookahead.Proofs.Correctness
import Lookahead.Proofs.Reordering

/-!
Grammars that differ in the order of their alternatives and of the rules after the start rule are
accepted alike, and their parsers answer alike on every input.
-/

namespace Lookahead.Grammar

open Lookahead.Symbol (terminal nonTerminal empty)

variable {grammar other : Grammar}

namespace Reordered

theorem exists_analyze (reordered : grammar.Reordered other)
    (distinct : (grammar.rules.map Rule.head).Nodup) {analysis : Analysis grammar.rules.length}
    (analyzed : grammar.analyze = .ok analysis) :
    ∃ otherAnalysis, other.analyze = .ok otherAnalysis ∧
      analysis.Renumbers (reordered.move distinct) otherAnalysis := by
  obtain ⟨resolved, resolution, checked, rfl⟩ := analyze_eq_ok_iff.mp analyzed
  obtain ⟨otherResolved, otherResolution, renumbers⟩ :=
    reordered.resolve_renumbers distinct resolution
  have otherChecked := renumbers.checkLeftRecursion_eq_ok
    (resolves_of_resolve_eq_ok resolution).wellFormed
    (resolves_of_resolve_eq_ok otherResolution).wellFormed checked
  exact ⟨otherResolved.analysis,
    analyze_eq_ok_iff.mpr ⟨otherResolved, otherResolution, otherChecked, rfl⟩,
    ⟨renumbers, renumbers.first_get, renumbers.follow_get⟩⟩

theorem renumbers_of_analyze (reordered : grammar.Reordered other)
    {analysis : Analysis grammar.rules.length} {otherAnalysis : Analysis other.rules.length}
    (analyzed : grammar.analyze = .ok analysis)
    (otherAnalyzed : other.analyze = .ok otherAnalysis) :
    ∃ distinct, analysis.Renumbers (reordered.move distinct) otherAnalysis := by
  have distinct := (sound_of_analyze analyzed).2.heads_nodup
  obtain ⟨found, success, renumbers⟩ := reordered.exists_analyze distinct analyzed
  obtain rfl := Except.ok.inj (success.symm.trans otherAnalyzed)
  exact ⟨distinct, renumbers⟩

theorem analyze_ok (reordered : grammar.Reordered other)
    (accepted : ∃ analysis, grammar.analyze = .ok analysis) :
    ∃ analysis, other.analyze = .ok analysis := by
  obtain ⟨analysis, analyzed⟩ := accepted
  have distinct := (sound_of_analyze analyzed).2.heads_nodup
  obtain ⟨otherAnalysis, success, _⟩ := reordered.exists_analyze distinct analyzed
  exact ⟨otherAnalysis, success⟩

theorem setsNamed?_eq (reordered : grammar.Reordered other)
    {analysis : Analysis grammar.rules.length} {otherAnalysis : Analysis other.rules.length}
    (analyzed : grammar.analyze = .ok analysis) (otherAnalyzed : other.analyze = .ok otherAnalysis)
    (head : String) : otherAnalysis.setsNamed? head = analysis.setsNamed? head := by
  obtain ⟨distinct, renumbers⟩ := reordered.renumbers_of_analyze analyzed otherAnalyzed
  have resolves := (sound_of_analyze analyzed).2
  refine renumbers.setsNamed?_eq (fun left right same => ?_) head
  rw [resolves.head_get, resolves.head_get] at same
  exact index_eq_of_head_eq distinct same

theorem generate_ok (reordered : grammar.Reordered other)
    (accepted : ∃ generated, grammar.generate = .ok generated) :
    ∃ generated, other.generate = .ok generated := by
  obtain ⟨⟨table, names⟩, generated⟩ := accepted
  obtain ⟨analysis, analyzed, tabulated, _⟩ := generate_eq_ok_iff.mp generated
  obtain ⟨otherAnalysis, otherAnalyzed⟩ := reordered.analyze_ok ⟨analysis, analyzed⟩
  obtain ⟨distinct, renumbers⟩ := reordered.renumbers_of_analyze analyzed otherAnalyzed
  obtain ⟨otherTable, otherTabulated⟩ :=
    renumbers.exists_table (reordered.idIn_eq_move distinct) ⟨table, tabulated⟩
  exact ⟨_, generate_eq_ok_iff.mpr ⟨otherAnalysis, otherAnalyzed, otherTabulated, rfl⟩⟩

theorem machine_renumbers (reordered : grammar.Reordered other) {parser otherParser : Parser}
    (generated : Parser.ofGrammar grammar = .ok parser)
    (otherGenerated : Parser.ofGrammar other = .ok otherParser) (input : Array UInt8) :
    Machine.Renumbers (grammar.idIn other) ⟨parser.table, parser.names, input⟩
      ⟨otherParser.table, otherParser.names, input⟩ := by
  obtain ⟨⟨table, names⟩, made, result⟩ := bind_eq_ok_iff.mp generated
  obtain rfl := Except.ok.inj result
  obtain ⟨⟨otherTable, otherNames⟩, otherMade, otherResult⟩ := bind_eq_ok_iff.mp otherGenerated
  obtain rfl := Except.ok.inj otherResult
  obtain ⟨analysis, analyzed, tabulated, rfl⟩ := generate_eq_ok_iff.mp made
  obtain ⟨otherAnalysis, otherAnalyzed, otherTabulated, rfl⟩ := generate_eq_ok_iff.mp otherMade
  obtain ⟨distinct, renumbers⟩ := reordered.renumbers_of_analyze analyzed otherAnalyzed
  have agrees := reordered.idIn_eq_move distinct
  have bijective := reordered.idIn_bijective distinct
  have fixed (id : Nat) (beyond : grammar.rules.length ≤ id) : grammar.idIn other id = id :=
    idIn_of_le grammar other beyond
  have outside (id : Nat) (beyond : grammar.rules.length ≤ id) :
      other.rules.length ≤ grammar.idIn other id := by
    rw [fixed id beyond, ← reordered.length_eq]
    exact beyond
  refine ⟨bijective, ?_, ?_, renumbers.nameOf_names agrees bijective.1 fixed, rfl⟩
  · by_cases positive : 0 < grammar.rules.length
    · exact (agrees ⟨0, positive⟩).trans ((reordered.move_start_iff distinct _).mpr rfl)
    · exact fixed 0 (Nat.le_of_not_lt positive)
  · exact renumbers.table_renumbers agrees outside (Analysis.realizes_of_table tabulated)
      (Analysis.realizes_of_table otherTabulated)

end Reordered

/-- Neither the order of the alternatives of a rule nor that of the rules after the start rule
means anything, except for the ids of the rules. -/
theorem order_is_immaterial (reordered : grammar.Reordered other) :
    ((∃ analysis, grammar.analyze = .ok analysis) ↔
      ∃ analysis, other.analyze = .ok analysis) ∧
    (∀ analysis otherAnalysis, grammar.analyze = .ok analysis →
      other.analyze = .ok otherAnalysis →
        ∀ head, otherAnalysis.setsNamed? head = analysis.setsNamed? head) ∧
    ((∃ generated, grammar.generate = .ok generated) ↔
      ∃ generated, other.generate = .ok generated) ∧
    ∀ parser otherParser, Parser.ofGrammar grammar = .ok parser →
      Parser.ofGrammar other = .ok otherParser →
        Function.Bijective (grammar.idIn other) ∧
        (∀ id, otherParser.names.nameOf (.rule (grammar.idIn other id)) =
          parser.names.nameOf (.rule id)) ∧
        ∀ input,
          (∃ error, parser.parse input = some (.error error) ∧
            otherParser.parse input = some (.error error)) ∨
          ∃ tree, parser.parse input = some (.ok tree) ∧
            otherParser.parse input = some (.ok (tree.renumber (grammar.idIn other))) := by
  refine ⟨⟨reordered.analyze_ok, reordered.symm.analyze_ok⟩,
    fun _ _ => reordered.setsNamed?_eq, ⟨reordered.generate_ok, reordered.symm.generate_ok⟩, ?_⟩
  intro parser otherParser generated otherGenerated
  have renumbers := reordered.machine_renumbers generated otherGenerated
  refine ⟨(renumbers #[]).bijective, (renumbers #[]).names, fun input => ?_⟩
  obtain ⟨analysis, sound, _, realizes⟩ := Parser.realizes_of_ofGrammar generated
  obtain ⟨result, parsed⟩ :=
    Machine.exists_parse ⟨parser.table, parser.names, input⟩ sound realizes
  have same := (renumbers input).parse_renumber
  rw [parsed] at same
  cases result with
  | error error => exact Or.inl ⟨error, parsed, same⟩
  | ok tree => exact Or.inr ⟨tree, parsed, same⟩

def letterPairs : Grammar :=
  ⟨[⟨"pair", [[nonTerminal "front", nonTerminal "back"]]⟩,
    ⟨"front", [[terminal [97]], [empty]]⟩,
    ⟨"back", [[terminal [98]], [terminal [99]]]⟩]⟩

def letterPairsTurned : Grammar :=
  ⟨[⟨"pair", [[nonTerminal "front", nonTerminal "back"]]⟩,
    ⟨"back", [[terminal [99]], [terminal [98]]]⟩,
    ⟨"front", [[empty], [terminal [97]]]⟩]⟩

theorem letterPairs_reordered : letterPairs.Reordered letterPairsTurned :=
  .rules ⟨rfl, .refl _⟩ (.swap _ _ _) (.cons ⟨rfl, .swap _ _ _⟩ (.cons ⟨rfl, .swap _ _ _⟩ .nil))

def letterPairsBounds : Resolved.Bounds letterPairs.rules.length where
  nullable := #v[false, true, false]
  first := #v[ByteSet.ofList [97, 98, 99], ByteSet.ofList [endOfInputByte, 97],
    ByteSet.ofList [98, 99]]
  follow := #v[ByteSet.ofList [endOfInputByte], ByteSet.ofList [98, 99],
    ByteSet.ofList [endOfInputByte]]
  rank := #v[1, 0, 0]

theorem exists_ofGrammar_letterPairs : ∃ parser, Parser.ofGrammar letterPairs = .ok parser := by
  have fits : letterPairsBounds.fit = true := by decide +kernel
  exact Resolved.Bounds.exists_ofGrammar fits

theorem letterPairs_derives :
    letterPairs.Derives [.nonTerminal "pair"]
      [.rule 0 [.rule 1 [.terminal [97]], .rule 2 [.terminal [99]]]] [97, 99] := by
  have pair : letterPairs.rules[0]? = some letterPairs.rules[0] := rfl
  have front : letterPairs.rules[1]? = some letterPairs.rules[1] := rfl
  have back : letterPairs.rules[2]? = some letterPairs.rules[2] := rfl
  have last : letterPairs.Derives [.nonTerminal "back"] [.rule 2 [.terminal [99]]] [99] :=
    .rule back (by decide) (.terminal [99] .nil) .nil
  exact .rule pair (by decide) (.rule front (by decide) (.terminal [97] .nil) last) .nil

theorem letterPairs_parse_alike :
    ∃ parser otherParser tree, Parser.ofGrammar letterPairs = .ok parser ∧
      Parser.ofGrammar letterPairsTurned = .ok otherParser ∧
      parser.parse #[97, 99] = some (.ok tree) ∧
      otherParser.parse #[97, 99] =
        some (.ok (tree.renumber (letterPairs.idIn letterPairsTurned))) := by
  obtain ⟨_, _, generates, parses⟩ := order_is_immaterial letterPairs_reordered
  obtain ⟨parser, success⟩ := exists_ofGrammar_letterPairs
  obtain ⟨made, generated, _⟩ := bind_eq_ok_iff.mp success
  obtain ⟨other, otherGenerated⟩ := generates.mp ⟨made, generated⟩
  have otherSuccess : Parser.ofGrammar letterPairsTurned = .ok (.ofTable other.1 other.2) :=
    bind_eq_ok_iff.mpr ⟨other, otherGenerated, rfl⟩
  have derives : letterPairs.Derives [.nonTerminal "pair"] [_]
      (#[97, 99] : Array UInt8).toList := letterPairs_derives
  obtain ⟨root, _, accepted⟩ := Parser.parse_of_derives rfl success derives
  obtain ⟨_, _, alike⟩ := parses _ _ success otherSuccess
  rcases alike #[97, 99] with ⟨error, failed, _⟩ | ⟨tree, parsed, same⟩
  · simp [accepted] at failed
  · exact ⟨parser, _, tree, success, otherSuccess, parsed, same⟩

end Lookahead.Grammar
