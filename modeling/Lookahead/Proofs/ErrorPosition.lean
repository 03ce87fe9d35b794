import Lookahead.Proofs.Inversion
import Lookahead.Proofs.SharedPrefix
import Lookahead.Proofs.TableErrors
import Lookahead.Proofs.ViablePrefix

/-!
Where a generated parser reports an error.  What was read until then begins a sentential form, and
no text of the language goes on with the byte that was found.
-/

namespace Lookahead

namespace ParseError

def got? : ParseError → Option UInt8
  | unexpectedByte _ got _ | trailingInput got _ => some got
  | unexpectedEndOfInput .. | reservedByte _ => none

structure Shows (error : ParseError) (input : Array UInt8) : Prop where
  position_le : error.position ≤ input.size
  ends_iff : (∃ expected, error = .unexpectedEndOfInput expected error.position) ↔
    error.position = input.size
  got_eq : error.got? = input[error.position]?

end ParseError

namespace Machine

variable {machine : Machine}

theorem shows_of_unexpected {offset : Nat} {expected : Expected} {error : ParseError}
    (within : offset ≤ machine.input.size)
    (same : machine.unexpected offset expected = .parse error) :
    error.position = offset ∧ error.Shows machine.input ∧
      ∀ got place, error ≠ .trailingInput got place := by
  rcases machine.unexpected_cases offset expected with ⟨inside, here⟩ | ⟨beyond, here⟩
  · obtain rfl := Error.parse.inj (same.symm.trans here)
    refine ⟨rfl, ⟨within, ?_, ?_⟩, by simp⟩
    · constructor
      · simp
      · intro ends
        exact absurd inside (Nat.not_lt_of_le (Nat.le_of_eq ends.symm))
    · exact (Array.getElem?_eq_getElem inside).symm
  · obtain rfl := Error.parse.inj (same.symm.trans here)
    refine ⟨rfl, ⟨within, ?_, ?_⟩, by simp⟩
    · constructor
      · intro _
        exact Nat.le_antisymm within beyond
      · intro _
        exact ⟨expected, rfl⟩
    · exact (Array.getElem?_eq_none beyond).symm

theorem Stops.shows {state : MachineState} {error : ParseError}
    (stops : machine.Stops state (.error (.parse error)))
    (within : state.offset ≤ machine.input.size) :
    error.position = state.offset ∧ error.Shows machine.input ∧
      ((∃ got place, error = .trailingInput got place) →
        ∃ below, state.operands = .endOfInput :: below) := by
  generalize outcome : Except.error (Error.parse error) = result at stops
  cases stops with
  | accepted | noRow | vacant | unreduced | rootless => simp at outcome
  | @trailing offset below productions made ahead =>
      obtain rfl := Error.parse.inj (Except.error.inj outcome)
      have inside : offset < machine.input.size := lt_size_of_lookahead rfl ahead
      refine ⟨rfl, ⟨within, ?_, ?_⟩, fun _ => ⟨below, rfl⟩⟩
      · constructor
        · simp
        · intro ends
          exact absurd inside (Nat.not_lt_of_le (Nat.le_of_eq ends.symm))
      · simp [ParseError.got?, ParseError.position, lookahead, inside]
  | noLineEnd | noCell | otherByte =>
      obtain ⟨place, shows, other⟩ :=
        shows_of_unexpected within (Except.error.inj outcome).symm
      refine ⟨place, shows, ?_⟩
      rintro ⟨got, place, same⟩
      exact absurd same (other got place)

end Machine

namespace Parser

variable {grammar : Grammar} {start : Rule} {parser : Parser}
  (first : grammar.startRule? = some start) (generated : Parser.ofGrammar grammar = .ok parser)
include first generated

theorem not_isPrefix_of_stops {input : Array UInt8} {last : MachineState} {error : Error}
    (steps : Machine.Steps ⟨parser.table, parser.names, input⟩ Machine.initial last)
    (stopped : Machine.step ⟨parser.table, parser.names, input⟩ last = .stop (.error error))
    (inside : last.offset < input.size) {text : List UInt8}
    (member : text ∈ grammar.language start.head) :
    ¬ input.toList.take (last.offset + 1) <+: text := by
  rintro ⟨later, rfl⟩
  obtain ⟨tree, derives⟩ := Grammar.mem_language_iff.mp member
  obtain ⟨analysis, positive, _, realizes, _⟩ := exists_analysis first generated
  let whole : Array UInt8 := (input.toList.take (last.offset + 1) ++ later).toArray
  have derived : grammar.Derives [.nonTerminal start.head] [tree] whole.toList := derives
  obtain ⟨root, _, accepted⟩ := parse_of_derives first generated derived
  have unreserved := (Machine.exists_steps_of_parse accepted).1
  rw [parse_eq_run realizes positive unreserved] at accepted
  -- The run over such a text would fail in the same way.
  have agree : ∀ offset ≤ last.offset, input[offset]? = whole[offset]? := by
    intro offset early
    have short : offset < (input.toList.take (last.offset + 1)).length := by
      rw [List.length_take, Array.length_toList]
      omega
    have shared : whole[offset]? = (input.toList.take (last.offset + 1) ++ later)[offset]? :=
      List.getElem?_toArray
    rw [shared, List.getElem?_append_left short, List.getElem?_take,
      if_pos (Nat.lt_succ_of_le early), Array.getElem?_toList]
  have failed := Machine.run_eq_of_agree agree steps stopped (Nat.le_refl _)
  simp [accepted] at failed

/-- A parse that fails does so at the first byte that no text of the language has there, or at the
end of the input.  What comes before can be the beginning of a sentential form, and it is itself a
text of the language where the rest of the input is all that is wrong. -/
theorem parse_error_pinpoints {input : Array UInt8}
    (unreserved : endOfInputByte ∉ input.toList) :
    (∃ tree, parser.parse input = some (.ok tree)) ∨
      ∃ error, parser.parse input = some (.error (.parse error)) ∧ error.Shows input ∧
        (∃ form, (grammar.contextFree start.head).Derives [.nonterminal start.head]
          ((input.toList.take error.position).map .terminal ++ form)) ∧
        (error.position < input.size → ∀ text ∈ grammar.language start.head,
          ¬ input.toList.take (error.position + 1) <+: text) ∧
        ((∃ got, error = .trailingInput got error.position) →
          input.toList.take error.position ∈ grammar.language start.head ∧
            ∃ tree, parser.parse (input.extract 0 error.position) = some (.ok tree)) := by
  obtain ⟨analysis, sound, resolves, realizes⟩ := realizes_of_ofGrammar generated
  obtain ⟨_, positive, _⟩ := exists_analysis first generated
  let machine : Machine := ⟨parser.table, parser.names, input⟩
  have ran : parser.parse input = machine.run Machine.initial :=
    parse_eq_run realizes positive unreserved
  rw [ran]
  rcases Machine.run_ok_or_parse_error machine sound realizes positive with
    accepted | ⟨error, failed⟩
  · exact Or.inl accepted
  right
  obtain ⟨last, steps, stopped⟩ := Machine.exists_steps_of_run failed
  have healthy := (Machine.healthy_initial positive machine).steps sound realizes steps
  obtain ⟨place, shows, trails⟩ := (Machine.stops_of_step stopped).shows healthy.within
  have viable := Machine.Steps.viable sound resolves realizes first steps
  refine ⟨error, failed, shows, ?_, ?_, ?_⟩
  · rw [place]
    exact ⟨_, viable⟩
  · intro inside text member
    rw [place] at inside ⊢
    exact not_isPrefix_of_stops first generated steps stopped inside member
  · rintro ⟨got, same⟩
    obtain ⟨below, operandsIs⟩ := trails ⟨got, _, same⟩
    have ends := steps.endsOnce realizes.not_offers_endOfInput Machine.endsOnce_initial
    rw [operandsIs] at ends
    have bottom := ends.below_eq_nil
    rw [operandsIs, bottom, ← place] at viable
    have nothing : [Operand.endOfInput].flatMap (Operand.form grammar) = [] := rfl
    rw [nothing, List.append_nil] at viable
    have member : input.toList.take error.position ∈ grammar.language start.head := viable
    refine ⟨member, ?_⟩
    obtain ⟨tree, derives⟩ := Grammar.mem_language_iff.mp member
    have extracted :
        (input.extract 0 error.position).toList = input.toList.take error.position := by
      simp
    rw [← extracted] at derives
    obtain ⟨root, _, accepted⟩ := parse_of_derives first generated derives
    exact ⟨_, accepted⟩

omit first generated

theorem letterLines_error_pinpoints :
    ∃ parser, ofGrammar letterLines = .ok parser ∧
      ∃ error, parser.parse #[98] = some (.error (.parse error)) ∧ error.Shows #[98] ∧
        (error.position < 1 → ∀ text ∈ letterLines.language "lines",
          ¬ [98].take (error.position + 1) <+: text) := by
  obtain ⟨parser, generated⟩ := exists_ofGrammar_letterLines
  have unreserved : endOfInputByte ∉ (#[98] : Array UInt8).toList := by decide
  rcases parse_error_pinpoints rfl generated unreserved with ⟨tree, accepted⟩ | failed
  · obtain ⟨derivation, derives⟩ := derives_of_parse rfl generated accepted
    have lines : letterLines.rules[0]? = some letterLines.rules[0] := rfl
    obtain ⟨alternative, chosen, children, _, below⟩ :=
      (Grammar.derives_rule_iff (by decide) lines).mp derives
    obtain rfl := List.mem_singleton.mp chosen
    obtain ⟨_, _, inner, later, _, same, letter, _⟩ := Grammar.derives_cons_iff.mp below
    obtain ⟨_, rfl⟩ := Grammar.derives_terminal_iff.mp letter
    simp at same
  · obtain ⟨error, parsed, shows, _, dead, _⟩ := failed
    exact ⟨parser, generated, error, parsed, shows, dead⟩

end Parser

end Lookahead
