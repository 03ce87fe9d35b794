import Lookahead.Grammar.Text
import Lookahead.Proofs.Readability

/-!
A rendered rule of a readable grammar reads as itself, on a line of its own.
-/

namespace Lookahead.Bnf

/-! ### Bytes of texts -/

theorem utf8Bytes_append (left right : String) :
    utf8Bytes (left ++ right) = utf8Bytes left ++ utf8Bytes right := by
  simp [utf8Bytes, String.toByteArray_append]

theorem utf8Bytes_ofList (chars : List Char) :
    utf8Bytes (String.ofList chars) = chars.flatMap String.utf8EncodeChar := by
  rw [utf8Bytes, String.toUTF8_eq_toByteArray, String.toByteArray_ofList, List.utf8Encode,
    List.toList_data_toByteArray]

theorem utf8EncodeChar_ofNat {byte : UInt8} (small : byte < 0x80) :
    String.utf8EncodeChar (Char.ofNat byte.toNat) = [byte] := by
  have all : ∀ byte, byte < 0x80 →
      String.utf8EncodeChar (Char.ofNat byte.toNat) = [byte] := forall_byte (by decide +kernel)
  exact all byte small

theorem utf8Bytes_asciiText {bytes : List UInt8} (ascii : ∀ byte ∈ bytes, byte < 0x80) :
    utf8Bytes (asciiText bytes) = bytes := by
  rw [asciiText, utf8Bytes_ofList, List.flatMap_map]
  induction bytes with
  | nil => rfl
  | cons byte rest ih =>
      obtain ⟨small, later⟩ := List.forall_mem_cons.mp ascii
      rw [List.flatMap_cons, ih later, utf8EncodeChar_ofNat small, List.singleton_append]

theorem utf8Bytes_bracketed (name : String) :
    utf8Bytes (bracketed name) = 60 :: utf8Bytes name ++ [62] := by
  rw [bracketed, utf8Bytes_append, utf8Bytes_append]
  rfl

/-! ### Terminals -/

theorem lt_of_isPrintable {byte : UInt8} (printable : isPrintable byte = true) : byte < 0x80 := by
  grind [isPrintable]

def quoteOf (singleQuoted : Bool) : UInt8 :=
  if singleQuoted then 39 else 34

theorem reads_escapeTerminalByte {singleQuoted : Bool} {byte : UInt8}
    (readable : isReadableByte byte = true) (unquoted : singleQuoted = true → byte ≠ 39)
    {text bytes : List UInt8} (later : ReadsQuoted (quoteOf singleQuoted) text bytes) :
    ReadsQuoted (quoteOf singleQuoted) (escapeTerminalByte singleQuoted byte ++ text)
      (byte :: bytes) := by
  unfold escapeTerminalByte
  split_ifs with backslash tab feed returned doubled
  · exact .escape (by simp_all [escapes]) later
  · exact .escape (by simp_all [escapes]) later
  · exact .escape (by simp_all [escapes]) later
  · exact .escape (by simp_all [escapes]) later
  · exact .escape (by simp_all [escapes]) later
  · refine .plain ?_ ?_ ?_ later
    · simpa [isReadableByte, isPrintable, tab, feed, returned] using readable
    · cases singleQuoted with
      | true => exact unquoted rfl
      | false => simpa [quoteOf] using doubled
    · simpa using backslash

theorem reads_escaped {singleQuoted : Bool} {bytes : List UInt8}
    (readable : ∀ byte ∈ bytes, isReadableByte byte = true)
    (unquoted : singleQuoted = true → 39 ∉ bytes) :
    ReadsQuoted (quoteOf singleQuoted) (bytes.flatMap (escapeTerminalByte singleQuoted)) bytes := by
  induction bytes with
  | nil => exact .nil
  | cons byte rest ih =>
      obtain ⟨here, later⟩ := List.forall_mem_cons.mp readable
      rw [List.flatMap_cons]
      refine reads_escapeTerminalByte here ?_ (ih later ?_)
      · rintro single rfl
        exact unquoted single List.mem_cons_self
      · intro single member
        exact unquoted single (List.mem_cons_of_mem _ member)

theorem reads_quoteTerminal {bytes : List UInt8} (present : bytes ≠ [])
    (readable : ∀ byte ∈ bytes, isReadableByte byte = true) :
    ReadsTerm (quoteTerminal bytes) (.terminal bytes) := by
  have unquoted : prefersSingleQuotes bytes = true → 39 ∉ bytes := by
    simp [prefersSingleQuotes]
  have either : quoteOf (prefersSingleQuotes bytes) = 34 ∨
      quoteOf (prefersSingleQuotes bytes) = 39 := by
    cases prefersSingleQuotes bytes with
    | true => exact Or.inr rfl
    | false => exact Or.inl rfl
  have reads := ReadsTerm.quoted either (reads_escaped readable unquoted)
  cases bytes with
  | nil => exact absurd rfl present
  | cons byte rest => exact reads

/-! ### Symbols, alternatives and rules -/

theorem utf8Bytes_readableName {name : String} (readable : ReadableName name) :
    IsName (utf8Bytes name) ∧ asciiText (utf8Bytes name) = name := by
  obtain ⟨bytes, spelled, rfl⟩ := readableName_iff.mp readable
  rw [utf8Bytes_asciiText fun byte member => lt_of_isNameByte (spelled.isNameByte byte member)]
  exact ⟨spelled, rfl⟩

theorem reads_symbol {symbol : Symbol} (readable : symbol.Readable) :
    ReadsTerm (utf8Bytes symbol.render) symbol := by
  cases symbol with
  | empty => exact .quoted (Or.inl rfl) .nil
  | nonTerminal name =>
      obtain ⟨spelled, same⟩ := utf8Bytes_readableName readable
      rw [Symbol.render, utf8Bytes_bracketed]
      have reads := ReadsTerm.name spelled
      rwa [same] at reads
  | terminal bytes =>
      have reads := reads_quoteTerminal readable.1 readable.2
      have ascii : ∀ byte ∈ quoteTerminal bytes, byte < 0x80 :=
        fun byte member => lt_of_isPrintable (reads.printable byte member)
      rw [Symbol.render, Utf8.decodeString, Utf8.decode_ascii _ ascii, ← asciiText,
        utf8Bytes_asciiText ascii]
      exact reads

theorem blank_space : Blank [32] := by
  simp [Blank]

theorem ReadsAlternative.space {text : List UInt8} {alternative : Alternative}
    (reads : ReadsAlternative text alternative) : ReadsAlternative (text ++ [32]) alternative := by
  have spaced {gap : List UInt8} (blank : Blank gap) : Blank (gap ++ [32]) :=
    List.forall_mem_append.mpr ⟨blank, blank_space⟩
  induction reads with
  | last reads blank =>
      rw [List.append_assoc]
      exact .last reads (spaced blank)
  | cons reads blank _ ih =>
      rw [List.append_assoc]
      exact .cons reads blank ih

theorem reads_alternative {alternative : Alternative} (readable : alternative.Readable) :
    ReadsAlternative (utf8Bytes alternative.render) alternative := by
  obtain ⟨present, each⟩ := readable
  rw [Alternative.render]
  induction alternative with
  | nil => exact absurd rfl present
  | cons symbol rest ih =>
      obtain ⟨here, later⟩ := List.forall_mem_cons.mp each
      cases rest with
      | nil =>
          have reads := ReadsAlternative.last (reads_symbol here) (List.forall_mem_nil _)
          simpa using reads
      | cons next others =>
          have reads := ReadsAlternative.cons (reads_symbol here) blank_space
            (ih (List.cons_ne_nil _ _) later)
          rw [List.map_cons, List.map_cons, String.intercalate_cons_cons, utf8Bytes_append,
            utf8Bytes_append]
          exact reads

theorem reads_alternatives {alternatives : List Alternative} (present : alternatives ≠ [])
    (each : ∀ alternative ∈ alternatives, Alternative.Readable alternative) :
    ReadsAlternatives (utf8Bytes (" | ".intercalate (alternatives.map Alternative.render)))
      alternatives := by
  induction alternatives with
  | nil => exact absurd rfl present
  | cons alternative rest ih =>
      obtain ⟨here, later⟩ := List.forall_mem_cons.mp each
      have first := reads_alternative here
      cases rest with
      | nil => simpa using ReadsAlternatives.last first
      | cons next others =>
          have reads := ReadsAlternatives.cons first.space blank_space
            (ih (List.cons_ne_nil _ _) later)
          have bar : utf8Bytes " | " = [32, 124, 32] := rfl
          rw [List.map_cons, List.map_cons, String.intercalate_cons_cons, utf8Bytes_append,
            utf8Bytes_append, bar]
          simpa using reads

theorem reads_rule {rule : Rule} (readable : rule.Readable) :
    ReadsRule (utf8Bytes rule.render) rule := by
  obtain ⟨spelled, same⟩ := utf8Bytes_readableName readable.head
  have body := reads_alternatives readable.present readable.alternatives
  have reads := ReadsRule.mk spelled blank_space blank_space body
  rw [same] at reads
  have sign : utf8Bytes " ::= " = [32, 58, 58, 61, 32] := rfl
  rw [Rule.render, utf8Bytes_append, utf8Bytes_append, utf8Bytes_bracketed, sign]
  simpa using reads

theorem reads_renderedLine {rule : Rule} (readable : rule.Readable) :
    ReadsLine (utf8Bytes rule.render) (some rule) := by
  simpa using ReadsLine.rule (List.forall_mem_nil _) (reads_rule readable)

end Lookahead.Bnf
