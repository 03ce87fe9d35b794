import Lookahead.Proofs.Joining

/-!
Rendering and loading.  The grammars that loading gives are those that rendering keeps.
-/

namespace Lookahead.Grammar

open Bnf

theorem load_render_of_readable {grammar : Grammar} (readable : grammar.Readable) :
    load grammar.render = .ok grammar := by
  refine load_intercalate (by simpa using readable.present) ?_
  rw [List.forall₂_map_left_iff, List.forall₂_same]
  exact fun rule member => reads_renderedLine (readable.rules rule member)

theorem readable_of_load {text : String} {grammar : Grammar} (loaded : load text = .ok grammar) :
    grammar.Readable := by
  obtain ⟨rules, reads, present, rfl⟩ := load_eq_ok_iff.mp loaded
  refine ⟨present, fun rule member => reads.readable rule ?_⟩
  exact List.reduceOption_mem_iff.mp member

/-- A grammar is readable exactly if its text loads as itself, and exactly if any text loads as
it.  So the text of a grammar that was loaded loads as the same grammar. -/
theorem load_render_eq_ok_iff (grammar : Grammar) :
    (grammar.Readable ↔ load grammar.render = .ok grammar) ∧
      (grammar.Readable ↔ ∃ text, load text = .ok grammar) :=
  ⟨⟨load_render_of_readable, readable_of_load⟩,
    ⟨fun readable => ⟨_, load_render_of_readable readable⟩,
      fun ⟨_, loaded⟩ => readable_of_load loaded⟩⟩

def mixedQuotes : Grammar :=
  ⟨[⟨"a-1", [[.terminal [34, 92, 10], .empty, .nonTerminal "b_"], [.terminal [39, 34, 124, 60]]]⟩]⟩

theorem mixedQuotes_load_render :
    mixedQuotes.Readable ∧ load mixedQuotes.render = .ok mixedQuotes := by
  have readable : mixedQuotes.Readable := by decide
  exact ⟨readable, (load_render_eq_ok_iff mixedQuotes).1.mp readable⟩

end Lookahead.Grammar
