import Lookahead.Proofs.Quotations

/-!
Terms and the alternatives that are made of them.  What the grammar derives as one reads as one,
and what reads as one has a derivation whose nodes are converted to what was read.
-/

namespace Lookahead.Bnf

open Lookahead.Grammar Lookahead.Derivation

variable {trees : List Derivation} {text : List UInt8}

/-! ### Names as text -/

theorem IsName.decode_eq (name : IsName text) : Utf8.decodeString text = asciiText text := by
  have ascii : ∀ byte ∈ text, byte < 0x80 :=
    fun byte member => lt_of_isNameByte (name.isNameByte byte member)
  rw [Utf8.decodeString, Utf8.decode_ascii text ascii, asciiText]

theorem converts_name {children : List Derivation} {id : Nat} (name : IsName (yields children)) :
    Converts (fun input node => (.ok (Bindings.text input node) : Except LoadError String))
      (.rule id children) (asciiText (yields children)) := by
  intro input offset made node places shown
  have same := converts_bytes LoadError id children input offset made node places shown
  change Except.ok (Utf8.decodeString (Bindings.bytes input node)) = _
  rw [Except.ok.inj same, name.decode_eq]

/-! ### Terms -/

def termRule : Rule :=
  ⟨"term", [[.nonTerminal "literal"], [.terminal [60], .nonTerminal "rule-name", .terminal [62]]]⟩

theorem found_termRule : grammar.rules[9]? = some termRule := rfl

theorem lexemes_closed : grammar.ClosedUnder [18, 19, 20, 21, 22, 24] := by
  decide

theorem exists_reads_of_term (derives : grammar.Derives [.nonTerminal "term"] trees text) :
    ∃ symbol, ReadsTerm text symbol := by
  obtain ⟨alternative, chosen, children, rfl, inside⟩ :=
    (derives_rule_iff heads_nodup found_termRule).mp derives
  simp only [termRule, List.mem_cons, List.not_mem_nil, or_false] at chosen
  rcases chosen with rfl | rfl
  · exact exists_reads_of_literal inside
  · obtain ⟨_, _, opening, later, _, rfl, opens, rest⟩ := derives_cons_iff.mp inside
    obtain ⟨_, _, name, closing, _, rfl, named, closes⟩ := derives_cons_iff.mp rest
    obtain ⟨_, rfl⟩ := derives_terminal_iff.mp opens
    obtain ⟨_, rfl⟩ := derives_terminal_iff.mp closes
    exact ⟨_, .name (name_of_derives named)⟩

/-- A name in angle brackets has a derivation that no search passes into but one for names. -/
theorem exists_derives_bracketed (name : IsName text) :
    ∃ children, grammar.Derives [.terminal [60], .nonTerminal "rule-name", .terminal [62]]
        [.terminal [60], .rule 18 children, .terminal [62]] (60 :: text ++ [62]) ∧
      Converts (fun input node => (.ok (Bindings.text input node) : Except LoadError String))
        (.rule 18 children) (asciiText text) := by
  obtain ⟨children, derives⟩ := exists_derives_name name
  have same : yields children = text := by simpa [yields, yield] using derives.yields_eq
  subst same
  exact ⟨children, .terminal [60] (derives.append (derives_terminal [62])), converts_name name⟩

theorem exists_derives_term {symbol : Symbol} (reads : ReadsTerm text symbol) :
    ∃ children, grammar.Derives [.nonTerminal "term"] [.rule 9 children] text ∧
      Converts bindings.toSymbol (.rule 9 children) symbol := by
  cases reads with
  | quoted either reads =>
      obtain ⟨children, derives, converts⟩ := exists_derives_literal either reads
      have solid : yields ([.rule 10 children] ++ []) ≠ [] := by
        rw [List.append_nil, derives.yields_eq]
        simp
      have finds : Finds bindings.literal _ (.rule 9 ([.rule 10 children] ++ [])) _ :=
        finds_of_gathers (by decide) (gathers_hit (by decide) converts) solid
      refine ⟨_, derives.of_alternative found_termRule (by simp [termRule]), ?_⟩
      intro input offset made node places shown
      obtain ⟨found, first, converted⟩ := finds input offset made node places shown
      rw [Bindings.toSymbol, first]
      exact converted
  | @name name named =>
      obtain ⟨children, derives, converts⟩ := exists_derives_bracketed named
      have chosen : [.terminal [60], .nonTerminal "rule-name", .terminal [62]] ∈
          termRule.alternatives := by simp [termRule]
      have refers : grammar.RefersTo [18, 19, 20, 21, 22, 24]
          [.terminal [60], .nonTerminal "rule-name", .terminal [62]] := by decide
      have none : Gathers (· == bindings.literal) bindings.toTerminal [.rule 9 _] [] :=
        (derives.gathers_nil lexemes_closed rfl rfl rfl (by decide) refers).inside rfl rfl
          fun _ => rfl
      have finds : Finds bindings.ruleName _ (.rule 9 ([.terminal [60]] ++ [.rule 18 children] ++
          [.terminal [62]])) _ :=
        finds_of_gathers (by decide)
          ((gathers_terminal rfl [60]).append (gathers_hit (by decide) converts))
          (by simp [yields, yield])
      refine ⟨_, derives.of_alternative found_termRule chosen, ?_⟩
      intro input offset made node places shown
      have absent := not_found_of_gathers none input offset made node places shown
      obtain ⟨found, first, converted⟩ := finds input offset made node places shown
      rw [Bindings.toSymbol, absent]
      simp only [first]
      exact congrArg (Except.ok ∘ Symbol.nonTerminal) (Except.ok.inj converted)

/-! ### Alternatives -/

def listRule : Rule :=
  ⟨"list", [[.nonTerminal "term", .nonTerminal "opt-whitespace", .nonTerminal "list-tail"]]⟩

def listTailRule : Rule :=
  ⟨"list-tail",
    [[.empty], [.nonTerminal "term", .nonTerminal "opt-whitespace", .nonTerminal "list-tail"]]⟩

theorem found_listRule : grammar.rules[7]? = some listRule := rfl

theorem found_listTailRule : grammar.rules[8]? = some listTailRule := rfl

theorem blank_closed : grammar.ClosedUnder [24] := by
  decide

theorem exists_derives_gap {ε α : Type} (convert : Array UInt8 → Tree → Except ε α)
    (kind : NodeKind) (other : kind ≠ .literal ∧ kind ≠ .endOfLine ∧ kind ≠ .nothing ∧
      kind ≠ .rule 24) (blank : Blank text) :
    ∃ tree, grammar.Derives [.nonTerminal "opt-whitespace"] [tree] text ∧
      Gathers (· == kind) convert [tree] [] := by
  obtain ⟨children, derives⟩ := exists_derives_blank blank
  have refers : grammar.RefersTo [24] [.nonTerminal "opt-whitespace"] := by decide
  obtain ⟨literal, endOfLine, nothing, same⟩ := other
  refine ⟨_, derives, derives.gathers_nil blank_closed ?_ ?_ ?_ ?_ refers⟩
  · exact beq_eq_false_iff_ne.mpr literal.symm
  · exact beq_eq_false_iff_ne.mpr endOfLine.symm
  · exact beq_eq_false_iff_ne.mpr nothing.symm
  · intro id member
    obtain rfl := List.mem_singleton.mp member
    exact beq_eq_false_iff_ne.mpr same.symm

theorem ReadsTerm.ne_nil {symbol : Symbol} (reads : ReadsTerm text symbol) : text ≠ [] := by
  cases reads with
  | name | quoted => simp

theorem ReadsAlternative.ne_nil {alternative : Alternative}
    (reads : ReadsAlternative text alternative) : text ≠ [] := by
  cases reads with
  | last reads | cons reads => simp [reads.ne_nil]

def ReadsStep (text : List UInt8) (symbol : Symbol) : Prop :=
  ∃ term gap, text = term ++ gap ∧ ReadsTerm term symbol ∧ Blank gap

theorem exists_readsStep_of_derives
    (derives : grammar.Derives [.nonTerminal "term", .nonTerminal "opt-whitespace"] trees text) :
    ∃ symbol, ReadsStep text symbol := by
  obtain ⟨_, others, term, gap, rfl, rfl, here, rest⟩ := derives_cons_iff.mp derives
  obtain ⟨symbol, reads⟩ := exists_reads_of_term here
  obtain ⟨_, _, _, _, rfl, rfl, _, ends⟩ := derives_cons_iff.mp rest
  obtain ⟨rfl, rfl⟩ := derives_nil_iff.mp ends
  exact ⟨symbol, term, _, rfl, reads, blank_of_derives rest⟩

theorem exists_readsAlternative_of_segments {segments : List (List UInt8)} {symbol : Symbol}
    (first : ReadsStep text symbol) (each : ∀ segment ∈ segments, ∃ symbol,
      ReadsStep segment symbol) :
    ∃ symbols, ReadsAlternative (text ++ segments.flatten) symbols := by
  induction segments generalizing text symbol with
  | nil =>
      obtain ⟨term, gap, rfl, reads, blank⟩ := first
      exact ⟨[symbol], by simpa using ReadsAlternative.last reads blank⟩
  | cons segment rest ih =>
      obtain ⟨⟨next, nextReads⟩, later⟩ := List.forall_mem_cons.mp each
      obtain ⟨symbols, readsRest⟩ := ih nextReads later
      obtain ⟨term, gap, rfl, reads, blank⟩ := first
      exact ⟨symbol :: symbols, .cons reads blank readsRest⟩

theorem exists_reads_of_list (derives : grammar.Derives [.nonTerminal "list"] trees text) :
    ∃ alternative, ReadsAlternative text alternative := by
  obtain ⟨alternative, chosen, children, rfl, inside⟩ :=
    (derives_rule_iff heads_nodup found_listRule).mp derives
  obtain rfl := List.mem_singleton.mp chosen
  have parts : grammar.Derives ([.nonTerminal "term", .nonTerminal "opt-whitespace"] ++
    [.nonTerminal listTailRule.head]) children text := inside
  obtain ⟨_, _, first, later, _, rfl, here, rest⟩ := derives_append_iff.mp parts
  obtain ⟨tail, _, _, _, rfl, rfl, _, ends⟩ := derives_cons_iff.mp rest
  obtain ⟨rfl, rfl⟩ := derives_nil_iff.mp ends
  have repeats : ∀ alternative ∈ listTailRule.alternatives, alternative = [.empty] ∨
      alternative = [.nonTerminal "term", .nonTerminal "opt-whitespace"] ++
        [.nonTerminal listTailRule.head] := by
    simp [listTailRule]
  obtain ⟨segments, same, each⟩ :=
    exists_segments_of_derives heads_nodup found_listTailRule repeats rest
  obtain ⟨symbol, step⟩ := exists_readsStep_of_derives here
  rw [same]
  exact exists_readsAlternative_of_segments step fun segment member =>
    (each segment member).elim fun _ => exists_readsStep_of_derives

theorem exists_derives_terms {symbols : List Symbol} (reads : ReadsAlternative text symbols) :
    ∃ children, grammar.Derives
        [.nonTerminal "term", .nonTerminal "opt-whitespace", .nonTerminal "list-tail"]
        children text ∧
      Gathers (· == bindings.term) bindings.toSymbol children symbols := by
  have step {term gap rest : List UInt8} {symbol : Symbol} {symbols : List Symbol}
      (reads : ReadsTerm term symbol) (blank : Blank gap)
      (remaining : ∃ tail, grammar.Derives [.nonTerminal "list-tail"] [tail] rest ∧
        Gathers (· == bindings.term) bindings.toSymbol [tail] symbols) :
      ∃ children, grammar.Derives
          [.nonTerminal "term", .nonTerminal "opt-whitespace", .nonTerminal "list-tail"]
          children (term ++ gap ++ rest) ∧
        Gathers (· == bindings.term) bindings.toSymbol children (symbol :: symbols) := by
    obtain ⟨children, derives, converts⟩ := exists_derives_term reads
    obtain ⟨space, spaceDerives, skipped⟩ :=
      exists_derives_gap bindings.toSymbol bindings.term (by decide) blank
    obtain ⟨tail, tailDerives, gathers⟩ := remaining
    exact ⟨_, (derives.append spaceDerives).append tailDerives,
      ((gathers_hit (by decide) converts).append skipped).append gathers⟩
  induction reads with
  | last reads blank =>
      have ends : [.empty] ∈ listTailRule.alternatives := by simp [listTailRule]
      have tail := (Derives.empty .nil).of_alternative found_listTailRule ends
      simpa using step reads blank ⟨_, tail, gathers_empty.inside rfl rfl fun _ => rfl⟩
  | cons reads blank later ih =>
      obtain ⟨children, derives, gathers⟩ := ih
      have again : [.nonTerminal "term", .nonTerminal "opt-whitespace", .nonTerminal "list-tail"] ∈
          listTailRule.alternatives := by simp [listTailRule]
      refine step reads blank ⟨_, derives.of_alternative found_listTailRule again,
        gathers.inside rfl rfl fun none => ?_⟩
      exact absurd (derives.yields_eq.symm.trans none) later.ne_nil

theorem exists_derives_list {alternative : Alternative}
    (reads : ReadsAlternative text alternative) :
    ∃ children, grammar.Derives [.nonTerminal "list"] [.rule 7 children] text ∧
      Converts bindings.toAlternative (.rule 7 children) alternative := by
  obtain ⟨children, derives, gathers⟩ := exists_derives_terms reads
  have solid : yields children ≠ [] := derives.yields_eq ▸ reads.ne_nil
  exact ⟨children, derives.of_alternative found_listRule (by simp [listRule]),
    converts_of_gathers (gathers.inside rfl rfl fun none => absurd none solid)⟩

end Lookahead.Bnf
