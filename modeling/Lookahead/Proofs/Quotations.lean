import Lookahead.Proofs.Lexemes

/-!
Quoted text.  The grammar derives between quotes what reads as quoted, and the nodes below give
back the bytes that it stands for.
-/

namespace Lookahead.Bnf

open Lookahead.Grammar Lookahead.Derivation

variable {trees : List Derivation} {text : List UInt8}

/-! ### Single characters -/

def characterRule : Rule :=
  ⟨"character",
    [[.nonTerminal "letter"], [.nonTerminal "digit"], [.nonTerminal "symbol"],
      [.nonTerminal "escape-sequence"]]⟩

def escapeRule : Rule :=
  ⟨"escape-sequence", [[.terminal [92], .nonTerminal "escaped-char"]]⟩

theorem found_characterRule : grammar.rules[15]? = some characterRule := rfl

theorem found_escapeRule : grammar.rules[16]? = some escapeRule := rfl

def isPiece (kind : NodeKind) : Bool :=
  kind == .literal || kind == bindings.escapeSequence

def Spells (trees : List Derivation) (bytes : List UInt8) : Prop :=
  ∃ pieces, Gathers isPiece bindings.pieceBytes trees pieces ∧ pieces.flatten = bytes

theorem Spells.append {left right : List Derivation} {bytes others : List UInt8}
    (one : Spells left bytes) (two : Spells right others) :
    Spells (left ++ right) (bytes ++ others) := by
  obtain ⟨pieces, gathers, rfl⟩ := one
  obtain ⟨more, gathersMore, rfl⟩ := two
  exact ⟨pieces ++ more, gathers.append gathersMore, by simp⟩

theorem Spells.inside {id : Nat} (other : id ≠ 16) {children : List Derivation}
    {bytes : List UInt8} (spells : Spells children bytes) (solid : yields children ≠ []) :
    Spells [.rule id children] bytes := by
  obtain ⟨pieces, gathers, same⟩ := spells
  have passed : isPiece (.rule id) = false := by simpa [isPiece, bindings] using other
  exact ⟨pieces, gathers.inside passed rfl fun none => absurd none solid, same⟩

theorem spells_terminal (byte : UInt8) : Spells [.terminal [byte]] [byte] := by
  refine ⟨[[byte]], gathers_literal rfl ?_, rfl⟩
  intro input offset made node places shown
  obtain rfl := (List.cons.inj shown).1
  rw [Bindings.pieceBytes, Tree.kind, if_pos rfl]
  exact congrArg Except.ok (places.bytes_eq made .literal [])

theorem unescape_of_mem {char byte : UInt8} (escaped : (char, byte) ∈ escapes) :
    unescape [char] = some byte := by
  simp only [escapes, List.mem_cons, Prod.mk.injEq, List.not_mem_nil, or_false] at escaped
  rcases escaped with ⟨rfl, rfl⟩ | ⟨rfl, rfl⟩ | ⟨rfl, rfl⟩ | ⟨rfl, rfl⟩ | ⟨rfl, rfl⟩ | ⟨rfl, rfl⟩
  all_goals rfl

theorem converts_bytes (ε : Type) (id : Nat) (children : List Derivation) :
    Converts (fun input node => (.ok (Bindings.bytes input node) : Except ε (List UInt8)))
      (.rule id children) (yields children) := by
  intro input offset made node places shown
  rw [depict] at shown
  obtain rfl := (List.cons.inj shown).1
  exact congrArg Except.ok (places.bytes_eq _ _ _)

theorem kind_of_depict {id offset made : Nat} {children : List Derivation} {node : Tree}
    (shown : depict offset made (.rule id children) = [node]) : node.kind = .rule id := by
  rw [depict] at shown
  exact (List.cons.inj shown).1 ▸ rfl

theorem spells_escape {char byte : UInt8} (escaped : (char, byte) ∈ escapes) :
    Spells [.rule 16 [.terminal [92], .rule 17 [.terminal [char]]]] [byte] := by
  refine ⟨[[byte]], gathers_hit rfl ?_, rfl⟩
  have gathers : Gathers (· == bindings.escapedChar)
      (fun input node => (.ok (Bindings.bytes input node) : Except Unit (List UInt8)))
      ([.terminal [92]] ++ [.rule 17 [.terminal [char]]]) [[char]] :=
    (gathers_terminal rfl [92]).append (gathers_hit rfl (converts_bytes Unit 17 [.terminal [char]]))
  have finds : Finds bindings.escapedChar _
      (.rule 16 ([.terminal [92]] ++ [.rule 17 [.terminal [char]]] ++ [])) [char] :=
    finds_of_gathers (by decide) gathers (by simp [yields, yield])
  intro input offset made node places shown
  obtain ⟨found, first, same⟩ := finds input offset made node places shown
  have other : node.kind ≠ .literal := by simp [kind_of_depict shown]
  rw [Bindings.pieceBytes, if_neg other]
  simp only [first, Option.map_some, Option.getD_some, Except.ok.inj same,
    unescape_of_mem escaped]

inductive ReadsCharacter (quote : UInt8) : List UInt8 → UInt8 → Prop
  | plain {byte} : isPrintable byte = true → byte ≠ quote → byte ≠ 92 →
      ReadsCharacter quote [byte] byte
  | escape {char byte} : (char, byte) ∈ escapes → ReadsCharacter quote [92, char] byte

theorem ReadsCharacter.cons {quote byte : UInt8} {text rest bytes : List UInt8}
    (reads : ReadsCharacter quote text byte) (later : ReadsQuoted quote rest bytes) :
    ReadsQuoted quote (text ++ rest) (byte :: bytes) := by
  cases reads with
  | plain printable unquoted unescaped => exact .plain printable unquoted unescaped later
  | escape escaped => exact .escape escaped later

theorem exists_mem_escapes {char : UInt8} (escapable : isEscapable char = true) :
    ∃ byte, (char, byte) ∈ escapes := by
  obtain ⟨pair, member, same⟩ := List.any_eq_true.mp escapable
  exact ⟨pair.2, eq_of_beq same ▸ member⟩

theorem isEscapable_of_mem {char byte : UInt8} (escaped : (char, byte) ∈ escapes) :
    isEscapable char = true :=
  List.any_eq_true.mpr ⟨_, escaped, beq_self_eq_true char⟩

theorem isPlain_iff {byte : UInt8} : isPlain byte = true ↔
    isPrintable byte = true ∧ byte ≠ 34 ∧ byte ≠ 39 ∧ byte ≠ 92 := by
  simp [isPlain, and_assoc]

theorem isPlain_of_isLetter {byte : UInt8} (letter : isLetter byte = true) :
    isPlain byte = true := by
  grind [isLetter, isPlain, isPrintable]

theorem isPlain_of_isDigit {byte : UInt8} (digit : isDigit byte = true) :
    isPlain byte = true := by
  grind [isDigit, isPlain, isPrintable]

/-! ### The two quotes -/

inductive QuoteStyle
  | double
  | single

namespace QuoteStyle

def quote : QuoteStyle → UInt8
  | double => 34
  | single => 39

def other : QuoteStyle → UInt8
  | double => 39
  | single => 34

def textId : QuoteStyle → Nat
  | double => 11
  | single => 12

def characterId : QuoteStyle → Nat
  | double => 13
  | single => 14

def textRule : QuoteStyle → Rule
  | double => ⟨"text1", [[.empty], [.nonTerminal "character1", .nonTerminal "text1"]]⟩
  | single => ⟨"text2", [[.empty], [.nonTerminal "character2", .nonTerminal "text2"]]⟩

def characterRule : QuoteStyle → Rule
  | double => ⟨"character1", [[.terminal [39]], [.nonTerminal "character"]]⟩
  | single => ⟨"character2", [[.terminal [34]], [.nonTerminal "character"]]⟩

variable (style : QuoteStyle)

theorem found_textRule : grammar.rules[style.textId]? = some style.textRule := by
  cases style <;> rfl

theorem found_characterRule : grammar.rules[style.characterId]? = some style.characterRule := by
  cases style <;> rfl

theorem textRule_alternatives : style.textRule.alternatives =
    [[.empty], [.nonTerminal style.characterRule.head, .nonTerminal style.textRule.head]] := by
  cases style <;> rfl

theorem characterRule_alternatives : style.characterRule.alternatives =
    [[.terminal [style.other]], [.nonTerminal "character"]] := by
  cases style <;> rfl

end QuoteStyle

/-! ### From derivations to readings -/

variable {style : QuoteStyle}

theorem ReadsCharacter.of_isPlain {byte : UInt8} (plain : isPlain byte = true) :
    ReadsCharacter style.quote [byte] byte := by
  obtain ⟨printable, notDouble, notSingle, unescaped⟩ := isPlain_iff.mp plain
  cases style with
  | double => exact .plain printable notDouble unescaped
  | single => exact .plain printable notSingle unescaped

theorem exists_reads_of_character
    (derives : grammar.Derives [.nonTerminal "character"] trees text) :
    ∃ byte, ReadsCharacter style.quote text byte := by
  obtain ⟨alternative, chosen, children, rfl, inside⟩ :=
    (derives_rule_iff heads_nodup found_characterRule).mp derives
  simp only [characterRule, List.mem_cons, List.not_mem_nil, or_false] at chosen
  rcases chosen with rfl | rfl | rfl | rfl
  · obtain ⟨byte, letter, _, rfl⟩ := derives_letter_iff.mp inside
    exact ⟨byte, .of_isPlain (isPlain_of_isLetter letter)⟩
  · obtain ⟨byte, digit, _, rfl⟩ := derives_digit_iff.mp inside
    exact ⟨byte, .of_isPlain (isPlain_of_isDigit digit)⟩
  · obtain ⟨byte, symbol, _, rfl⟩ := derives_symbol_iff.mp inside
    simp only [isSymbolByte, Bool.and_eq_true] at symbol
    exact ⟨byte, .of_isPlain symbol.1.1⟩
  · obtain ⟨alternative, chosen, children, rfl, escape⟩ :=
      (derives_rule_iff heads_nodup found_escapeRule).mp inside
    obtain rfl := List.mem_singleton.mp chosen
    obtain ⟨_, _, backslash, later, _, rfl, first, rest⟩ := derives_cons_iff.mp escape
    obtain ⟨_, rfl⟩ := derives_terminal_iff.mp first
    obtain ⟨char, escapable, _, rfl⟩ := derives_escapedChar_iff.mp rest
    obtain ⟨byte, escaped⟩ := exists_mem_escapes escapable
    exact ⟨byte, .escape escaped⟩

theorem exists_reads_of_styled
    (derives : grammar.Derives [.nonTerminal style.characterRule.head] trees text) :
    ∃ byte, ReadsCharacter style.quote text byte := by
  obtain ⟨alternative, chosen, children, rfl, inside⟩ :=
    (derives_rule_iff heads_nodup style.found_characterRule).mp derives
  rw [style.characterRule_alternatives, List.mem_pair] at chosen
  rcases chosen with rfl | rfl
  · obtain ⟨_, rfl⟩ := derives_terminal_iff.mp inside
    cases style with
    | double => exact ⟨39, .plain (by decide) (by decide) (by decide)⟩
    | single => exact ⟨34, .plain (by decide) (by decide) (by decide)⟩
  · exact exists_reads_of_character inside

theorem exists_readsQuoted_of_derives {tree : Derivation}
    (derives : grammar.Derives [.nonTerminal style.textRule.head] [tree] text) :
    ∃ bytes, ReadsQuoted style.quote text bytes := by
  have repeats : ∀ alternative ∈ style.textRule.alternatives, alternative = [.empty] ∨
      alternative = [.nonTerminal style.characterRule.head] ++
        [.nonTerminal style.textRule.head] := by
    simp [style.textRule_alternatives]
  obtain ⟨segments, rfl, each⟩ :=
    exists_segments_of_derives heads_nodup style.found_textRule repeats derives
  clear derives
  induction segments with
  | nil => exact ⟨[], .nil⟩
  | cons segment rest ih =>
      obtain ⟨⟨trees, here⟩, later⟩ := List.forall_mem_cons.mp each
      obtain ⟨byte, reads⟩ := exists_reads_of_styled here
      obtain ⟨bytes, readsRest⟩ := ih later
      exact ⟨byte :: bytes, reads.cons readsRest⟩

/-! ### From readings to derivations -/

theorem exists_derives_plain {byte : UInt8} (plain : isPlain byte = true) :
    ∃ tree, grammar.Derives [.nonTerminal "character"] [tree] [byte] ∧ Spells [tree] [byte] := by
  have below (id : Nat) (other : id ≠ 16) :
      Spells [.rule 15 [.rule id [.terminal [byte]]]] [byte] :=
    ((spells_terminal byte).inside other (by simp [yields, yield])).inside (by decide)
      (by simp [yields, yield])
  by_cases letter : isLetter byte = true
  · have inside := derives_letter_iff.mpr ⟨byte, letter, rfl, rfl⟩
    exact ⟨_, inside.of_alternative found_characterRule (by simp [characterRule]),
      below 21 (by decide)⟩
  by_cases digit : isDigit byte = true
  · have inside := derives_digit_iff.mpr ⟨byte, digit, rfl, rfl⟩
    exact ⟨_, inside.of_alternative found_characterRule (by simp [characterRule]),
      below 22 (by decide)⟩
  have symbol : isSymbolByte byte = true := by simp [isSymbolByte, plain, letter, digit]
  have inside := derives_symbol_iff.mpr ⟨byte, symbol, rfl, rfl⟩
  exact ⟨_, inside.of_alternative found_characterRule (by simp [characterRule]),
    below 23 (by decide)⟩

theorem exists_derives_escape {char byte : UInt8} (escaped : (char, byte) ∈ escapes) :
    ∃ tree, grammar.Derives [.nonTerminal "character"] [tree] [92, char] ∧
      Spells [tree] [byte] := by
  have last := derives_escapedChar_iff.mpr ⟨char, isEscapable_of_mem escaped, rfl, rfl⟩
  have escape : grammar.Derives [.nonTerminal "escape-sequence"] _ [92, char] :=
    (Derives.terminal [92] last).of_alternative found_escapeRule (by simp [escapeRule])
  exact ⟨_, escape.of_alternative found_characterRule (by simp [characterRule]),
    (spells_escape escaped).inside (by decide) (by simp [yields, yield])⟩

theorem exists_derives_styled {byte : UInt8} (reads : ReadsCharacter style.quote text byte) :
    ∃ tree, grammar.Derives [.nonTerminal style.characterRule.head] [tree] text ∧
      Spells [tree] [byte] ∧ text ≠ [] := by
  have other : style.characterId ≠ 16 := by cases style <;> decide
  have either : [.nonTerminal "character"] ∈ style.characterRule.alternatives := by
    simp [style.characterRule_alternatives]
  have wrap {text : List UInt8} (solid : text ≠ []) : (∃ tree,
      grammar.Derives [.nonTerminal "character"] [tree] text ∧ Spells [tree] [byte]) →
      ∃ tree, grammar.Derives [.nonTerminal style.characterRule.head] [tree] text ∧
        Spells [tree] [byte] ∧ text ≠ [] := by
    rintro ⟨tree, derives, spells⟩
    exact ⟨_, derives.of_alternative style.found_characterRule either,
      spells.inside other (derives.yields_eq ▸ solid), solid⟩
  cases reads with
  | escape escaped => exact wrap (by simp) (exists_derives_escape escaped)
  | plain printable unquoted unescaped =>
      by_cases itself : byte = style.other
      · subst itself
        have chosen : [.terminal [style.other]] ∈ style.characterRule.alternatives := by
          simp [style.characterRule_alternatives]
        exact ⟨_, (derives_terminal _).of_alternative style.found_characterRule chosen,
          (spells_terminal style.other).inside other (by simp [yields, yield]), by simp⟩
      · have plain : isPlain byte = true := by
          cases style with
          | double => exact isPlain_iff.mpr ⟨printable, unquoted, itself, unescaped⟩
          | single => exact isPlain_iff.mpr ⟨printable, itself, unquoted, unescaped⟩
        exact wrap (by simp) (exists_derives_plain plain)

def Quotes (style : QuoteStyle) (text bytes : List UInt8) : Prop :=
  ∃ children, grammar.Derives [.nonTerminal style.textRule.head] [.rule style.textId children]
    text ∧ Spells [.rule style.textId children] bytes

theorem quotes_nil (style : QuoteStyle) : Quotes style [] [] := by
  have ends : [.empty] ∈ style.textRule.alternatives := by simp [style.textRule_alternatives]
  have passed : isPiece (.rule style.textId) = false := by cases style <;> decide
  refine ⟨_, (Derives.empty .nil).of_alternative style.found_textRule ends, [], ?_, rfl⟩
  exact gathers_empty.inside passed rfl fun _ => rfl

theorem Quotes.cons {byte : UInt8} {rest bytes : List UInt8}
    (reads : ReadsCharacter style.quote text byte) (quotes : Quotes style rest bytes) :
    Quotes style (text ++ rest) (byte :: bytes) := by
  obtain ⟨tree, derives, spells, solid⟩ := exists_derives_styled reads
  obtain ⟨children, derivesRest, spellsRest⟩ := quotes
  have both := derives.append derivesRest
  have again : [.nonTerminal style.characterRule.head] ++ [.nonTerminal style.textRule.head] ∈
      style.textRule.alternatives := by
    simp [style.textRule_alternatives]
  refine ⟨_, both.of_alternative style.found_textRule again,
    (spells.append spellsRest).inside (by cases style <;> decide) ?_⟩
  rw [both.yields_eq]
  exact List.append_ne_nil_of_left_ne_nil solid rest

theorem quotes_of_reads {bytes : List UInt8} (reads : ReadsQuoted style.quote text bytes) :
    Quotes style text bytes := by
  induction reads with
  | nil => exact quotes_nil style
  | plain printable unquoted unescaped _ ih =>
      exact ih.cons (.plain printable unquoted unescaped)
  | escape escaped _ ih => exact ih.cons (.escape escaped)

/-! ### Literals -/

def isText (kind : NodeKind) : Bool :=
  kind == bindings.doubleQuoted || kind == bindings.singleQuoted

def literalRule : Rule :=
  ⟨"literal",
    [[.terminal [34], .nonTerminal "text1", .terminal [34]],
      [.terminal [39], .nonTerminal "text2", .terminal [39]]]⟩

theorem found_literalRule : grammar.rules[10]? = some literalRule := rfl

theorem literalRule_alternatives :
    ∀ alternative, alternative ∈ literalRule.alternatives ↔ ∃ style : QuoteStyle, alternative =
      [.terminal [style.quote]] ++ [.nonTerminal style.textRule.head] ++
        [.terminal [style.quote]] := by
  intro alternative
  rw [literalRule, List.mem_pair]
  constructor
  · rintro (rfl | rfl)
    · exact ⟨.double, rfl⟩
    · exact ⟨.single, rfl⟩
  · rintro ⟨style, rfl⟩
    cases style with
    | double => exact Or.inl rfl
    | single => exact Or.inr rfl

theorem exists_reads_of_literal (derives : grammar.Derives [.nonTerminal "literal"] trees text) :
    ∃ symbol, ReadsTerm text symbol := by
  obtain ⟨alternative, chosen, children, rfl, inside⟩ :=
    (derives_rule_iff heads_nodup found_literalRule).mp derives
  obtain ⟨style, rfl⟩ := (literalRule_alternatives alternative).mp chosen
  obtain ⟨_, _, front, closing, rfl, rfl, opened, closes⟩ := derives_append_iff.mp inside
  obtain ⟨_, others, opening, quoted, rfl, rfl, opens, quotes⟩ := derives_cons_iff.mp opened
  obtain ⟨tree, _, text, _, rfl, rfl, body, ends⟩ := derives_cons_iff.mp quotes
  obtain ⟨rfl, rfl⟩ := derives_nil_iff.mp ends
  obtain ⟨_, rfl⟩ := derives_terminal_iff.mp opens
  obtain ⟨_, rfl⟩ := derives_terminal_iff.mp closes
  obtain ⟨bytes, reads⟩ := exists_readsQuoted_of_derives body
  have either : style.quote = 34 ∨ style.quote = 39 := by cases style <;> decide
  exact ⟨.ofBytes bytes, by simpa using ReadsTerm.quoted either reads⟩

theorem exists_derives_literal {quote : UInt8} (either : quote = 34 ∨ quote = 39)
    {bytes : List UInt8} (reads : ReadsQuoted quote text bytes) :
    ∃ children, grammar.Derives [.nonTerminal "literal"] [.rule 10 children]
        (quote :: text ++ [quote]) ∧
      Converts bindings.toTerminal (.rule 10 children) (.ofBytes bytes) := by
  obtain ⟨style, rfl⟩ : ∃ style : QuoteStyle, style.quote = quote := by
    rcases either with rfl | rfl
    · exact ⟨.double, rfl⟩
    · exact ⟨.single, rfl⟩
  obtain ⟨children, derives, pieces, gathers, rfl⟩ := quotes_of_reads reads
  have inside := ((derives_terminal [style.quote]).append derives).append
    (derives_terminal [style.quote])
  have chosen := (literalRule_alternatives _).mpr ⟨style, rfl⟩
  have accepted : isText (.rule style.textId) = true := by cases style <;> decide
  have below := ((gathers_terminal rfl [style.quote]).append
    (gathers_hit accepted (converts_of_gathers gathers))).append
      (gathers_terminal rfl [style.quote])
  have texts := below.inside (show isText (.rule 10) = false by decide) rfl
    fun none => absurd none (by simp [yields, yield])
  refine ⟨_, inside.of_alternative found_literalRule chosen, ?_⟩
  intro input offset made node places shown
  have found := texts input offset made (by simpa [yields] using places)
  rw [depictAll_singleton, shown, List.flatMap_singleton] at found
  generalize nodesAre : node.outermost isText = nodes at found
  cases found with
  | @cons quoted _ _ _ here rest =>
      have first : node.outermost (fun kind =>
          kind == bindings.doubleQuoted || kind == bindings.singleQuoted) = quoted :: _ := nodesAre
      simp only [Bindings.toTerminal, first]
      exact congrArg (Except.bind · _) here

end Lookahead.Bnf
