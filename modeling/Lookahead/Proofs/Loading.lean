import Lookahead.Proofs.Correctness
import Lookahead.Proofs.Extents
import Lookahead.Proofs.Lines

/-!
Loading a grammar from text is reading the text directly.  The generated parser, the search of its
trees and the conversion of what is found never fail on a text that reads, and a text that does not
read is refused by the parser.
-/

namespace Lookahead

def RefersWithin (input : Array UInt8) : Except Error ParseTree → Prop
  | .error error => ∀ position ∈ error.position?, position ≤ input.size
  | .ok tree => ∀ node ∈ tree.root.nodes, (node.text? input).isSome

theorem Parser.exists_parse_within {grammar : Grammar} {start : Rule} {parser : Parser}
    (first : grammar.startRule? = some start) (generated : Parser.ofGrammar grammar = .ok parser)
    (input : Array UInt8) :
    ∃ result, parser.parse input = some result ∧ RefersWithin input result := by
  obtain ⟨result, ends, placed⟩ := exists_parse first generated input
  refine ⟨result, ends, ?_⟩
  cases result with
  | error error => exact fun position => placed error position rfl
  | ok tree =>
      obtain ⟨derivation, derives⟩ := derives_of_parse first generated ends
      obtain ⟨root, shown, accepted⟩ := parse_of_derives first generated derives
      obtain rfl := Except.ok.inj (Option.some.inj (ends.symm.trans accepted))
      intro node inside
      have within := derivation.within_depict 0 0
      rw [shown] at within
      obtain ⟨_, ordered, high⟩ := within root (List.mem_singleton_self root) node inside
      have extent : derivation.yield.length = input.size := by
        simpa [Derivation.yields] using congrArg List.length derives.yields_eq
      have covered : node.span.start ≤ node.span.stop ∧ node.span.stop ≤ input.size :=
        ⟨ordered, by omega⟩
      simp [Tree.text?, Span.text?, covered]

open Bnf Grammar

theorem Bnf.loadWith_of_reads {result : Parser} (generated : parser = .ok result)
    {input : Array UInt8} {rules : List (Option Rule)} (reads : Reads input.toList rules) :
    loadWith (.ok result) input =
      if rules.reduceOption = [] then .error ⟨.noRules, none⟩ else .ok ⟨rules.reduceOption⟩ := by
  have first : grammar.startRule? = some syntaxRule := rfl
  obtain ⟨derivation, derives, converts⟩ := exists_derives_of_reads reads
  obtain ⟨root, shown, accepted⟩ := Parser.parse_of_derives first generated derives
  have yields : derivation.yield = input.toList := by
    simpa [Derivation.yields] using derives.yields_eq
  have converted := converts input 0 0 root ⟨[], by simp [yields]⟩ shown
  have grammarIs : bindings.toGrammar input ⟨root, root.size⟩ = .ok ⟨rules.reduceOption⟩ :=
    congrArg (Except.map Grammar.mk) converted
  simp only [loadWith, accepted, ofNames_eq_ok generated]
  change (bindings.toGrammar input ⟨root, root.size⟩).bind _ = _
  rw [grammarIs]
  by_cases none : rules.reduceOption = []
  · rw [if_pos none, none]
    rfl
  · rw [if_neg none]
    exact if_neg (by simpa using none)

theorem Bnf.loadWith_of_not_reads {result : Parser} (generated : parser = .ok result)
    {input : Array UInt8} (unread : ¬ ∃ rules, Reads input.toList rules) :
    ∃ detail, loadWith (.ok result) input = .error ⟨.parse, some detail⟩ := by
  have first : grammar.startRule? = some syntaxRule := rfl
  obtain ⟨parsed, ends, _⟩ := Parser.exists_parse first generated input
  cases parsed with
  | ok tree =>
      obtain ⟨derivation, derives⟩ := Parser.derives_of_parse first generated ends
      exact absurd (exists_reads_of_derives derives) unread
  | error error =>
      simp only [loadWith, ends, parseFailure]
      split
      · exact ⟨_, rfl⟩
      · exact ⟨_, rfl⟩

namespace Grammar

theorem load_of_reads {text : String} {rules : List (Option Rule)} (reads : ReadsText text rules) :
    load text =
      if rules.reduceOption = [] then .error ⟨.noRules, none⟩ else .ok ⟨rules.reduceOption⟩ := by
  obtain ⟨result, generated⟩ := exists_ofGrammar
  rw [load, loadBytes, generated]
  exact loadWith_of_reads generated reads

theorem load_of_not_reads {text : String} (unread : ¬ ∃ rules, ReadsText text rules) :
    ∃ detail, load text = .error ⟨.parse, some detail⟩ := by
  obtain ⟨result, generated⟩ := exists_ofGrammar
  rw [load, loadBytes, generated]
  exact loadWith_of_not_reads generated unread

theorem load_eq_ok_iff {text : String} {grammar : Grammar} :
    load text = .ok grammar ↔
      ∃ rules, ReadsText text rules ∧ rules.reduceOption ≠ [] ∧
        grammar = ⟨rules.reduceOption⟩ := by
  constructor
  · intro loaded
    by_cases read : ∃ rules, ReadsText text rules
    · obtain ⟨rules, reads⟩ := read
      rw [load_of_reads reads] at loaded
      by_cases none : rules.reduceOption = []
      · rw [if_pos none] at loaded
        cases loaded
      · rw [if_neg none] at loaded
        exact ⟨rules, reads, none, (Except.ok.inj loaded).symm⟩
    · obtain ⟨detail, refused⟩ := load_of_not_reads read
      rw [refused] at loaded
      cases loaded
  · rintro ⟨rules, reads, present, rfl⟩
    rw [load_of_reads reads, if_neg present]

theorem load_eq_noRules_iff {text : String} :
    load text = .error ⟨.noRules, none⟩ ↔
      ∃ rules, ReadsText text rules ∧ rules.reduceOption = [] := by
  constructor
  · intro refused
    by_cases read : ∃ rules, ReadsText text rules
    · obtain ⟨rules, reads⟩ := read
      refine ⟨rules, reads, ?_⟩
      by_contra present
      rw [load_of_reads reads, if_neg present] at refused
      cases refused
    · obtain ⟨detail, other⟩ := load_of_not_reads read
      rw [other] at refused
      cases refused
  · rintro ⟨rules, reads, none⟩
    rw [load_of_reads reads, if_pos none]

theorem load_eq_parse_iff {text : String} :
    (∃ detail, load text = .error ⟨.parse, some detail⟩) ↔ ¬ ∃ rules, ReadsText text rules := by
  constructor
  · rintro ⟨detail, refused⟩ ⟨rules, reads⟩
    rw [load_of_reads reads] at refused
    split at refused
    · cases refused
    · cases refused
  · exact load_of_not_reads

/-- A text is loaded exactly as it reads.  It is read for its rules, refused where all of its lines
are blank, or refused by the parser where a line does not read; nothing else happens, and no
answer of the parser refers to anything outside the text. -/
theorem load_agrees_with_reading (text : String) :
    (∀ grammar, load text = .ok grammar ↔
      ∃ rules, ReadsText text rules ∧ rules.reduceOption ≠ [] ∧ grammar = ⟨rules.reduceOption⟩) ∧
    (load text = .error ⟨.noRules, none⟩ ↔
      ∃ rules, ReadsText text rules ∧ rules.reduceOption = []) ∧
    ((∃ detail, load text = .error ⟨.parse, some detail⟩) ↔ ¬ ∃ rules, ReadsText text rules) ∧
    ((∃ grammar, load text = .ok grammar) ∨ load text = .error ⟨.noRules, none⟩ ∨
      ∃ detail, load text = .error ⟨.parse, some detail⟩) ∧
    ∃ parser result, Bnf.parser = .ok parser ∧ Bindings.ofNames parser.names = .ok bindings ∧
      parser.parse text.toUTF8.data = some result ∧ RefersWithin text.toUTF8.data result := by
  refine ⟨fun grammar => load_eq_ok_iff, load_eq_noRules_iff, load_eq_parse_iff, ?_, ?_⟩
  · by_cases read : ∃ rules, ReadsText text rules
    · obtain ⟨rules, reads⟩ := read
      rw [load_of_reads reads]
      split
      · exact Or.inr (Or.inl rfl)
      · exact Or.inl ⟨_, rfl⟩
    · exact Or.inr (Or.inr (load_of_not_reads read))
  · obtain ⟨parser, generated⟩ := exists_ofGrammar
    have first : Bnf.grammar.startRule? = some syntaxRule := rfl
    obtain ⟨result, ends, within⟩ := Parser.exists_parse_within first generated text.toUTF8.data
    exact ⟨parser, result, generated, ofNames_eq_ok generated, ends, within⟩

end Grammar

end Lookahead
