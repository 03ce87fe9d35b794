import Lookahead.Proofs.Bounds
import Lookahead.Proofs.Language
import Lookahead.Proofs.Outcomes
import Lookahead.Proofs.Recognition

/-!
A generated parser decides the language of its grammar, and the tree that it returns is the only
derivation of the input.
-/

namespace Lookahead

namespace Parser

variable {grammar : Grammar} {start : Rule} {parser : Parser}

theorem parse_eq_run {n : Nat} {analysis : Analysis n} (realizes : parser.table.Realizes analysis)
    (positive : 0 < n) {input : Array UInt8} (unreserved : endOfInputByte ∉ input.toList) :
    parser.parse input = Machine.run ⟨parser.table, parser.names, input⟩ Machine.initial := by
  obtain ⟨row, present, _⟩ := realizes.present ⟨0, positive⟩
  exact Machine.parse_eq_run ⟨parser.table, parser.names, input⟩ present unreserved

section Generated

variable (first : grammar.startRule? = some start)
  (generated : Parser.ofGrammar grammar = .ok parser)
include first generated

theorem exists_analysis : ∃ (analysis : Analysis grammar.rules.length)
    (positive : 0 < grammar.rules.length), analysis.Sound ∧ parser.table.Realizes analysis ∧
      ∀ trees text, grammar.Derives [.nonTerminal start.head] trees text ↔
        analysis.grammar.Derives [.rule ⟨0, positive⟩] trees text := by
  obtain ⟨analysis, sound, resolves, realizes⟩ := realizes_of_ofGrammar generated
  have found : grammar.rules[0]? = some start := by
    rw [← List.head?_eq_getElem?]
    exact first
  obtain ⟨positive, same⟩ := List.getElem?_eq_some_iff.mp found
  refine ⟨analysis, positive, sound, realizes, fun trees text => ?_⟩
  rw [← same]
  exact resolves.derives_name_iff ⟨0, positive⟩

theorem exists_parse (input : Array UInt8) :
    ∃ result, parser.parse input = some result ∧ ∀ error position,
      result = .error error → error.position? = some position → position ≤ input.size := by
  obtain ⟨analysis, positive, sound, realizes, _⟩ := exists_analysis first generated
  by_cases unreserved : endOfInputByte ∉ input.toList
  · rw [parse_eq_run realizes positive unreserved]
    exact Machine.exists_run ⟨parser.table, parser.names, input⟩ sound realizes positive
  · obtain ⟨row, present, _⟩ := realizes.present ⟨0, positive⟩
    simp only at present
    cases free : input.findIdx? (· == endOfInputByte) with
    | none =>
        rw [Array.findIdx?_eq_none_iff] at free
        refine absurd (fun member => ?_) unreserved
        simpa using free _ (Array.mem_toList_iff.mp member)
    | some offset =>
        refine ⟨.error (.parse (.reservedByte offset)), ?_, ?_⟩
        · simp [parse, Machine.parse, Table.isEmpty_eq_false present, present, free]
        · rintro error position same placed
          obtain rfl := Except.error.inj same
          obtain rfl := Option.some.inj placed
          exact Nat.le_of_lt (Array.findIdx?_eq_some_iff_getElem.mp free).1

theorem derives_of_parse {input : Array UInt8} {tree : ParseTree}
    (accepted : parser.parse input = some (.ok tree)) :
    ∃ derivation, grammar.Derives [.nonTerminal start.head] [derivation] input.toList := by
  obtain ⟨analysis, positive, sound, realizes, same⟩ := exists_analysis first generated
  have unreserved := (Machine.exists_steps_of_parse accepted).1
  rw [parse_eq_run realizes positive unreserved] at accepted
  obtain ⟨derivation, derives⟩ := Machine.derives_of_run ⟨parser.table, parser.names, input⟩
    sound realizes positive unreserved accepted
  exact ⟨derivation, (same _ _).mpr derives⟩

theorem parse_of_derives {input : Array UInt8} {derivation : Derivation}
    (derives : grammar.Derives [.nonTerminal start.head] [derivation] input.toList) :
    ∃ root, derivation.depict 0 0 = [root] ∧
      parser.parse input = some (.ok ⟨root, root.size⟩) := by
  obtain ⟨analysis, positive, sound, realizes, same⟩ := exists_analysis first generated
  have resolved := (same _ _).mp derives
  have unreserved := resolved.reserved_not_mem sound.wellFormed trivial
  rw [parse_eq_run realizes positive unreserved]
  exact Machine.run_of_derives ⟨parser.table, parser.names, input⟩ sound realizes positive
    resolved

theorem derivation_unique {text : List UInt8} {left right : Derivation}
    (leftDerives : grammar.Derives [.nonTerminal start.head] [left] text)
    (rightDerives : grammar.Derives [.nonTerminal start.head] [right] text) : left = right := by
  obtain ⟨analysis, positive, sound, realizes, same⟩ := exists_analysis first generated
  exact sound.derives_start_unique realizes rfl ((same _ _).mp leftDerives)
    ((same _ _).mp rightDerives)

end Generated

def letterLines : Grammar :=
  ⟨[⟨"lines", [[.terminal [97], .nonTerminal "more"]]⟩,
    ⟨"more", [[.nonTerminal endOfLineName, .nonTerminal "lines"], [.empty]]⟩]⟩

def letterLinesBounds : Resolved.Bounds letterLines.rules.length where
  nullable := .ofFn fun rule => rule.val == 1
  first := #v[ByteSet.ofList [97], ByteSet.ofList [endOfInputByte, 10, 13]]
  follow := .replicate _ (ByteSet.ofList [endOfInputByte])
  rank := .replicate _ 0

theorem exists_ofGrammar_letterLines : ∃ parser, ofGrammar letterLines = .ok parser := by
  have fits : letterLinesBounds.fit = true := by decide +kernel
  exact Resolved.Bounds.exists_ofGrammar fits

theorem exists_generate_letterLines :
    ∃ table names, letterLines.generate = .ok (table, names) := by
  obtain ⟨parser, success⟩ := exists_ofGrammar_letterLines
  obtain ⟨⟨table, names⟩, generated, _⟩ := bind_eq_ok_iff.mp success
  exact ⟨table, names, generated⟩

theorem letterLines_derives :
    letterLines.Derives [.nonTerminal "lines"]
      [.rule 0 [.terminal [97],
        .rule 1 [.carriageReturn, .rule 0 [.terminal [97], .rule 1 [.empty]]]]]
      [97, 13, 10, 97] := by
  have lines : letterLines.rules[0]? = some letterLines.rules[0] := rfl
  have more : letterLines.rules[1]? = some letterLines.rules[1] := rfl
  have last : letterLines.Derives [.nonTerminal "more"] [.rule 1 [.empty]] [] :=
    .rule more (by decide) (.empty .nil) .nil
  have second : letterLines.Derives [.nonTerminal "lines"]
      [.rule 0 [.terminal [97], .rule 1 [.empty]]] [97] :=
    .rule lines (by decide) (.terminal [97] last) .nil
  have rest : letterLines.Derives [.nonTerminal "more"]
      [.rule 1 [.carriageReturn, .rule 0 [.terminal [97], .rule 1 [.empty]]]] [13, 10, 97] :=
    .rule more (by decide) (.carriageReturn rfl second) .nil
  exact .rule lines (by decide) (.terminal [97] rest) .nil

/-- A parser accepts exactly the inputs that its grammar derives from the start rule. -/
theorem parse_succeeds_iff_mem_language (first : grammar.startRule? = some start)
    (generated : Parser.ofGrammar grammar = .ok parser) (input : Array UInt8) :
    (∃ tree, parser.parse input = some (.ok tree)) ↔
      input.toList ∈ grammar.language start.head := by
  rw [Grammar.mem_language_iff]
  constructor
  · rintro ⟨tree, accepted⟩
    exact derives_of_parse first generated accepted
  · rintro ⟨derivation, derives⟩
    obtain ⟨root, _, accepted⟩ := parse_of_derives first generated derives
    exact ⟨_, accepted⟩

theorem letterLines_parse_succeeds_iff :
    ∃ parser, ofGrammar letterLines = .ok parser ∧
      ((∃ tree, parser.parse #[97, 13, 10, 97] = some (.ok tree)) ↔
        [97, 13, 10, 97] ∈ letterLines.language "lines") := by
  obtain ⟨parser, generated⟩ := exists_ofGrammar_letterLines
  exact ⟨parser, generated,
    parse_succeeds_iff_mem_language rfl generated #[97, 13, 10, 97]⟩

/-- An input of the language has one derivation, and the tree that a parser returns for it shows
that derivation: node by node it has the symbols of an alternative below each rule, or a
placeholder where the rule derives the empty text. -/
theorem parse_shows_the_derivation (first : grammar.startRule? = some start)
    (generated : Parser.ofGrammar grammar = .ok parser) (input : Array UInt8)
    (member : input.toList ∈ grammar.language start.head) :
    ∃ derivation,
      (∀ other, grammar.Derives [.nonTerminal start.head] [other] input.toList ↔
        other = derivation) ∧
      ∃ tree, parser.parse input = some (.ok tree) ∧
        derivation.depict 0 0 = [tree.root] ∧ tree.nodeCount = tree.root.size ∧
        tree.root.kind = .rule 0 ∧ tree.root.span = ⟨0, input.size⟩ ∧
        grammar.Shows input [.nonTerminal start.head] [tree.root] := by
  obtain ⟨derivation, derives⟩ := Grammar.mem_language_iff.mp member
  obtain ⟨root, shown, accepted⟩ := parse_of_derives first generated derives
  obtain ⟨analysis, positive, _, _, same⟩ := exists_analysis first generated
  obtain ⟨_, _, resolves, _⟩ := realizes_of_ofGrammar generated
  have whole : input.toList = [] ++ input.toList ++ [] := by simp
  have shows := derives.shows resolves.emptyAlone (by simp) [] [] whole 0
  have nodes : Derivation.depictAll 0 0 [derivation] = [root] := by
    simp [Derivation.depictAll, shown]
  rw [List.length_nil, nodes] at shows
  have rootIs : root.kind = .rule 0 ∧ root.span = ⟨0, input.size⟩ := by
    have resolved := (same _ _).mp derives
    have extent : derivation.yield.length = input.size := by
      have yields := congrArg List.length derives.yields_eq
      simpa [Derivation.yields] using yields
    generalize input.toList = text at resolved
    cases resolved with
    | rule =>
        obtain rfl := (List.cons.inj shown).1
        simpa [Tree.kind, Tree.span, Derivation.yield] using extent
  refine ⟨derivation, fun other => ⟨fun others => ?_, fun same => same ▸ derives⟩,
    ⟨root, root.size⟩, accepted, shown, rfl, rootIs.1, rootIs.2, shows⟩
  exact derivation_unique first generated others derives

theorem letterLines_parse_shows :
    ∃ parser, ofGrammar letterLines = .ok parser ∧
      [97, 13, 10, 97] ∈ letterLines.language "lines" ∧
      ∃ tree, parser.parse #[97, 13, 10, 97] = some (.ok tree) ∧
        letterLines.Shows #[97, 13, 10, 97] [.nonTerminal "lines"] [tree.root] := by
  obtain ⟨parser, generated⟩ := exists_ofGrammar_letterLines
  have member : [97, 13, 10, 97] ∈ letterLines.language "lines" :=
    Grammar.mem_language_iff.mpr ⟨_, letterLines_derives⟩
  obtain ⟨_, _, tree, accepted, _, _, _, _, shows⟩ :=
    parse_shows_the_derivation rfl generated #[97, 13, 10, 97] member
  exact ⟨parser, generated, member, tree, accepted, shows⟩

end Parser

end Lookahead
