import Lookahead.Proofs.ErrorPosition

/-!
Grammars in which every rule derives some text.  What a generated parser has read is then the
beginning of a text of the language and not only of a sentential form, so a parse fails behind the
longest part of the input that can still be gone on with.
-/

namespace Lookahead

namespace Grammar

def Completes (grammar : Grammar) (form : List ByteSymbol) : Prop :=
  ∃ text : List UInt8, grammar.Rewrites form (text.map .terminal)

def Productive (grammar : Grammar) : Prop :=
  ∀ rule ∈ grammar.rules, grammar.Completes [.nonterminal rule.head]

/-- Every rule has an alternative with names of later rules only. -/
def bottomsOut : List Rule → Bool
  | [] => true
  | rule :: later =>
    (rule.alternatives.any fun alternative => alternative.all fun
      | .nonTerminal name => later.any (·.head == name)
      | .terminal _ | .empty => true) && bottomsOut later

variable {grammar : Grammar}

theorem completes_terminals (bytes : List UInt8) : grammar.Completes (bytes.map .terminal) :=
  ⟨bytes, .refl _⟩

theorem Completes.of_rewrites {before after : List ByteSymbol}
    (rewrites : grammar.Rewrites before after) (completes : grammar.Completes after) :
    grammar.Completes before := by
  obtain ⟨text, later⟩ := completes
  exact ⟨text, rewrites.trans later⟩

theorem Completes.append {left right : List ByteSymbol} (one : grammar.Completes left)
    (two : grammar.Completes right) : grammar.Completes (left ++ right) := by
  obtain ⟨leftText, leftRewrites⟩ := one
  obtain ⟨rightText, rightRewrites⟩ := two
  refine ⟨leftText ++ rightText, ?_⟩
  rw [List.map_append]
  have first := leftRewrites.within [] right
  have second := rightRewrites.within (leftText.map .terminal) []
  simp only [List.nil_append, List.append_nil] at first second
  exact first.trans second

theorem completes_flatMap {α : Type} {form : α → List ByteSymbol} {items : List α}
    (each : ∀ item ∈ items, grammar.Completes (form item)) :
    grammar.Completes (items.flatMap form) := by
  induction items with
  | nil => exact completes_terminals []
  | cons item rest ih =>
      obtain ⟨here, later⟩ := List.forall_mem_cons.mp each
      exact here.append (ih later)

theorem completes_endOfLine (builtin : grammar.rule? endOfLineName = none) :
    grammar.Completes [.nonterminal endOfLineName] := by
  have production := mem_productions.mpr (Or.inr ⟨builtin, List.mem_cons_self⟩)
  exact ⟨[10], rewrites_of_mem production⟩

theorem completes_of_bottomsOut {rules : List Rule} (checked : bottomsOut rules = true)
    (inside : ∀ rule ∈ rules, rule ∈ grammar.rules) :
    ∀ rule ∈ rules, grammar.Completes [.nonterminal rule.head] := by
  -- From the last rule on, whose chosen alternative has no names at all.
  induction rules with
  | nil => simp
  | cons rule later ih =>
      obtain ⟨here, others⟩ := List.forall_mem_cons.mp inside
      rw [bottomsOut, Bool.and_eq_true] at checked
      have known := ih checked.2 others
      refine List.forall_mem_cons.mpr ⟨?_, known⟩
      obtain ⟨alternative, chosen, closed⟩ := List.any_eq_true.mp checked.1
      have production := mem_productions.mpr (Or.inl ⟨rule, here, alternative, chosen, rfl⟩)
      refine Completes.of_rewrites (rewrites_of_mem production) (completes_flatMap ?_)
      intro symbol among
      have settled := List.all_eq_true.mp closed symbol among
      cases symbol with
      | terminal bytes => exact completes_terminals bytes
      | empty => exact completes_terminals []
      | nonTerminal name =>
          obtain ⟨other, member, same⟩ := List.any_eq_true.mp settled
          rw [← eq_of_beq same]
          exact known other member

theorem productive_of_bottomsOut (checked : bottomsOut grammar.rules = true) :
    grammar.Productive :=
  completes_of_bottomsOut checked fun _ member => member

theorem Productive.completes_operand (productive : grammar.Productive) {operand : Operand}
    (builtin : operand = .invoke .endOfLine → grammar.rule? endOfLineName = none) :
    grammar.Completes (operand.form grammar) := by
  cases operand with
  | invoke callee =>
      cases callee with
      | endOfLine => exact completes_endOfLine (builtin rfl)
      | rule id =>
          cases found : grammar.rules[id]? with
          | none => simpa [Operand.form, found] using completes_terminals []
          | some rule =>
              simpa [Operand.form, found] using productive rule (List.mem_of_getElem? found)
  | matchLiteral bytes => exact completes_terminals bytes
  | matchByte byte => exact completes_terminals [byte]
  | endOfInput | reduce => exact completes_terminals []

end Grammar

namespace Parser

variable {grammar : Grammar} {start : Rule} {parser : Parser}
  (first : grammar.startRule? = some start) (generated : Parser.ofGrammar grammar = .ok parser)
include first generated

/-- A parse fails behind the longest beginning of the input that some text of the language has. -/
theorem error_behind_longest_prefix (productive : grammar.Productive) {input : Array UInt8}
    (unreserved : endOfInputByte ∉ input.toList)
    (foreign : input.toList ∉ grammar.language start.head) :
    ∃ error, parser.parse input = some (.error (.parse error)) ∧ error.position ≤ input.size ∧
      (∃ text ∈ grammar.language start.head, input.toList.take error.position <+: text) ∧
      (error.position < input.size → ∀ text ∈ grammar.language start.head,
        ¬ input.toList.take (error.position + 1) <+: text) := by
  obtain ⟨analysis, sound, resolves, realizes⟩ := realizes_of_ofGrammar generated
  obtain ⟨_, positive, _⟩ := exists_analysis first generated
  let machine : Machine := ⟨parser.table, parser.names, input⟩
  have ran : parser.parse input = machine.run Machine.initial :=
    parse_eq_run realizes positive unreserved
  obtain ⟨error, failed⟩ : ∃ error, machine.run Machine.initial = some (.error (.parse error)) := by
    refine (Machine.run_ok_or_parse_error machine sound realizes positive).resolve_left ?_
    rintro ⟨tree, accepted⟩
    exact foreign (Grammar.mem_language_iff.mpr (derives_of_parse first generated (ran ▸ accepted)))
  obtain ⟨last, steps, stopped⟩ := Machine.exists_steps_of_run failed
  have healthy := (Machine.healthy_initial positive machine).steps sound realizes steps
  have place : error.position = last.offset := (Machine.stops_of_step stopped).position_eq rfl
  refine ⟨error, ran.trans failed, place ▸ healthy.within, ?_, ?_⟩
  · have viable := Machine.Steps.viable sound resolves realizes first steps
    have builtin := Machine.Steps.builtin resolves realizes steps
    obtain ⟨later, rewrites⟩ := Grammar.completes_flatMap fun operand member =>
      productive.completes_operand (builtin operand member)
    have onward := rewrites.within ((input.toList.take last.offset).map .terminal) []
    refine ⟨input.toList.take last.offset ++ later, ?_, ?_⟩
    · simp only [List.append_nil] at onward
      have whole := viable.trans onward
      rw [← List.map_append] at whole
      exact whole
    · rw [place]
      exact List.prefix_append _ _
  · intro inside text member
    rw [place] at inside ⊢
    exact not_isPrefix_of_stops first generated steps stopped inside member

end Parser

end Lookahead
