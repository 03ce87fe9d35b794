import Lookahead.Proofs.LineEnds
import Lookahead.Proofs.Sequencing

/-!
Grammars that have a text.  What is read from text is one of them.
-/

namespace Lookahead

def isNameChar (char : Char) : Bool :=
  char.isAlphanum || char == '-' || char == '_'

/-- A letter, followed by letters, digits, hyphens and underscores. -/
def ReadableChars : List Char → Prop
  | [] => False
  | first :: rest => first.isAlpha = true ∧ ∀ char ∈ rest, isNameChar char = true

-- Decided along the list here and below, not by going through all characters or bytes.
instance : DecidablePred ReadableChars
  | [] => inferInstanceAs (Decidable False)
  | _ :: rest =>
      have : Decidable (∀ char ∈ rest, isNameChar char = true) := List.decidableBAll _ rest
      inferInstanceAs (Decidable (_ ∧ _))

def ReadableName (name : String) : Prop :=
  ReadableChars name.toList

instance : DecidablePred ReadableName :=
  fun name => inferInstanceAs (Decidable (ReadableChars name.toList))

/-- A printable byte, or a control byte that has an escape. -/
def isReadableByte (byte : UInt8) : Bool :=
  (0x20 ≤ byte && byte ≤ 0x7e) || byte == 9 || byte == 10 || byte == 13

def Symbol.Readable : Symbol → Prop
  | terminal bytes => bytes ≠ [] ∧ ∀ byte ∈ bytes, isReadableByte byte = true
  | nonTerminal name => ReadableName name
  | empty => True

instance : DecidablePred Symbol.Readable
  | .terminal bytes =>
      have : Decidable (∀ byte ∈ bytes, isReadableByte byte = true) := List.decidableBAll _ bytes
      inferInstanceAs (Decidable (_ ∧ _))
  | .nonTerminal name => inferInstanceAs (Decidable (ReadableName name))
  | .empty => inferInstanceAs (Decidable True)

def Alternative.Readable (alternative : Alternative) : Prop :=
  alternative ≠ [] ∧ ∀ symbol ∈ alternative, symbol.Readable

instance : DecidablePred Alternative.Readable :=
  fun _ => inferInstanceAs (Decidable (_ ∧ _))

structure Rule.Readable (rule : Rule) : Prop where
  head : ReadableName rule.head
  present : rule.alternatives ≠ []
  alternatives : ∀ alternative ∈ rule.alternatives, Alternative.Readable alternative

instance : DecidablePred Rule.Readable := fun rule =>
  decidable_of_iff (ReadableName rule.head ∧ rule.alternatives ≠ [] ∧
      ∀ alternative ∈ rule.alternatives, Alternative.Readable alternative)
    ⟨fun ⟨head, present, each⟩ => ⟨head, present, each⟩,
      fun readable => ⟨readable.head, readable.present, readable.alternatives⟩⟩

structure Grammar.Readable (grammar : Grammar) : Prop where
  present : grammar.rules ≠ []
  rules : ∀ rule ∈ grammar.rules, rule.Readable

instance : DecidablePred Grammar.Readable := fun grammar =>
  decidable_of_iff (grammar.rules ≠ [] ∧ ∀ rule ∈ grammar.rules, rule.Readable)
    ⟨fun ⟨present, each⟩ => ⟨present, each⟩,
      fun readable => ⟨readable.present, readable.rules⟩⟩

namespace Bnf

/-! ### Names -/

theorem lt_of_isNameChar {char : Char} (holds : isNameChar char = true) : char.toNat < 128 := by
  have classes : isNameChar char = (decide ('A'.val ≤ char.val ∧ char.val ≤ 'Z'.val) ||
      ('a'.val ≤ char.val && char.val ≤ 'z'.val) || ('0'.val ≤ char.val && char.val ≤ '9'.val) ||
        char == '-' || char == '_') := rfl
  simp only [classes, UInt32.le_iff_toNat_le, Bool.or_eq_true, Bool.and_eq_true,
    decide_eq_true_eq, beq_iff_eq] at holds
  have upper : 'Z'.val.toNat = 90 := rfl
  have lower : 'z'.val.toNat = 122 := rfl
  have digit : '9'.val.toNat = 57 := rfl
  have code : char.toNat = char.val.toNat := rfl
  rcases holds with (letter | rfl) | rfl
  · omega
  · decide
  · decide

theorem exists_byte_of_lt {char : Char} (small : char.toNat < 128) :
    ∃ byte : UInt8, byte < 0x80 ∧ char = Char.ofNat byte.toNat := by
  refine ⟨UInt8.ofNat char.toNat, ?_, ?_⟩
  · rw [UInt8.lt_iff_toNat_lt, UInt8.toNat_ofNat']
    simp only [UInt8.reduceToNat]
    omega
  · rw [UInt8.toNat_ofNat', Nat.mod_eq_of_lt (by omega), Char.ofNat_toNat]

theorem isAlpha_ofNat {byte : UInt8} (small : byte < 0x80) :
    (Char.ofNat byte.toNat).isAlpha = isLetter byte := by
  have all : ∀ byte, byte < 0x80 →
      (Char.ofNat byte.toNat).isAlpha = isLetter byte := forall_byte (by decide +kernel)
  exact all byte small

theorem isNameChar_ofNat {byte : UInt8} (small : byte < 0x80) :
    isNameChar (Char.ofNat byte.toNat) = isNameByte byte := by
  have all : ∀ byte, byte < 0x80 →
      isNameChar (Char.ofNat byte.toNat) = isNameByte byte := forall_byte (by decide +kernel)
  exact all byte small

theorem exists_bytes_of_chars {chars : List Char} (holds : ∀ char ∈ chars, isNameChar char = true) :
    ∃ bytes : List UInt8, (∀ byte ∈ bytes, isNameByte byte = true) ∧
      chars = bytes.map fun byte => Char.ofNat byte.toNat := by
  induction chars with
  | nil => exact ⟨[], List.forall_mem_nil _, rfl⟩
  | cons char rest ih =>
      obtain ⟨here, later⟩ := List.forall_mem_cons.mp holds
      obtain ⟨bytes, each, rfl⟩ := ih later
      obtain ⟨byte, small, rfl⟩ := exists_byte_of_lt (lt_of_isNameChar here)
      rw [isNameChar_ofNat small] at here
      exact ⟨byte :: bytes, List.forall_mem_cons.mpr ⟨here, each⟩, rfl⟩

theorem readableName_iff {name : String} :
    ReadableName name ↔ ∃ bytes, IsName bytes ∧ asciiText bytes = name := by
  constructor
  · intro readable
    rw [ReadableName] at readable
    cases spelled : name.toList with
    | nil =>
        rw [spelled] at readable
        exact readable.elim
    | cons first rest =>
        rw [spelled] at readable
        obtain ⟨letter, others⟩ := readable
        have named : isNameChar first = true := by simp [isNameChar, Char.isAlphanum, letter]
        obtain ⟨bytes, each, rfl⟩ := exists_bytes_of_chars others
        obtain ⟨byte, small, rfl⟩ := exists_byte_of_lt (lt_of_isNameChar named)
        rw [isAlpha_ofNat small] at letter
        refine ⟨byte :: bytes, ⟨letter, each⟩, ?_⟩
        rw [asciiText, List.map_cons, ← spelled, String.ofList_toList]
  · rintro ⟨bytes, name, rfl⟩
    rw [ReadableName, asciiText, String.toList_ofList]
    cases bytes with
    | nil => exact name.elim
    | cons byte rest =>
        obtain ⟨letter, each⟩ := name
        refine ⟨?_, ?_⟩
        · rwa [isAlpha_ofNat (lt_of_isNameByte (isNameByte_of_isLetter letter))]
        · intro char member
          obtain ⟨other, among, rfl⟩ := List.mem_map.mp member
          rw [isNameChar_ofNat (lt_of_isNameByte (each other among))]
          exact each other among

/-! ### What is read -/

theorem ReadsQuoted.isReadableByte {quote : UInt8} {text bytes : List UInt8}
    (reads : ReadsQuoted quote text bytes) : ∀ byte ∈ bytes, isReadableByte byte = true := by
  induction reads with
  | nil => exact List.forall_mem_nil _
  | plain printable _ _ _ ih =>
      refine List.forall_mem_cons.mpr ⟨?_, ih⟩
      change (isPrintable _ || _ || _ || _) = true
      simp [printable]
  | escape escaped _ ih =>
      have all : (escapes.all fun pair => Lookahead.isReadableByte pair.2) = true := by decide
      exact List.forall_mem_cons.mpr ⟨List.all_eq_true.mp all _ escaped, ih⟩

theorem ReadsTerm.readable {text : List UInt8} {symbol : Symbol} (reads : ReadsTerm text symbol) :
    symbol.Readable := by
  cases reads with
  | name name => exact readableName_iff.mpr ⟨_, name, rfl⟩
  | @quoted _ _ bytes _ quoted =>
      cases bytes with
      | nil => exact trivial
      | cons byte rest => exact ⟨List.cons_ne_nil _ _, quoted.isReadableByte⟩

theorem ReadsAlternative.readable {text : List UInt8} {alternative : Alternative}
    (reads : ReadsAlternative text alternative) : Alternative.Readable alternative := by
  induction reads with
  | last reads => exact ⟨List.cons_ne_nil _ _, List.forall_mem_singleton.mpr reads.readable⟩
  | cons reads _ _ ih =>
      exact ⟨List.cons_ne_nil _ _, List.forall_mem_cons.mpr ⟨reads.readable, ih.2⟩⟩

theorem ReadsAlternatives.readable {text : List UInt8} {alternatives : List Alternative}
    (reads : ReadsAlternatives text alternatives) :
    alternatives ≠ [] ∧ ∀ alternative ∈ alternatives, Alternative.Readable alternative := by
  induction reads with
  | last reads => exact ⟨List.cons_ne_nil _ _, List.forall_mem_singleton.mpr reads.readable⟩
  | cons reads _ _ ih =>
      exact ⟨List.cons_ne_nil _ _, List.forall_mem_cons.mpr ⟨reads.readable, ih.2⟩⟩

theorem ReadsRule.readable {text : List UInt8} {rule : Rule} (reads : ReadsRule text rule) :
    rule.Readable := by
  obtain ⟨name, _, _, body⟩ := reads
  exact ⟨readableName_iff.mpr ⟨_, name, rfl⟩, body.readable.1, body.readable.2⟩

theorem Reads.readable {text : List UInt8} {rules : List (Option Rule)} (reads : Reads text rules) :
    ∀ rule, some rule ∈ rules → rule.Readable := by
  intro rule member
  obtain ⟨line, _, reads⟩ := exists_of_forall₂_left reads.flip member
  cases reads with
  | rule _ reads => exact reads.readable

end Bnf

end Lookahead
