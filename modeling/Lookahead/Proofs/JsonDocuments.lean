import Lookahead.Proofs.JsonGrammar
import Lookahead.Proofs.Lexemes

/-!
JSON documents as prints of values.  A value prints as every text that has its parts in order with
spaces where they are allowed; the grammar derives exactly these texts.
-/

namespace Lookahead.Json

open Bnf (codes isPrintable oneOf)
open Lookahead.Grammar
open Lookahead.Symbol (nonTerminal)

/-! ### Values -/

def isPlain (byte : UInt8) : Bool :=
  isPrintable byte && byte != 34 && byte != 92

def escapeBytes : List UInt8 :=
  [34, 92, 47, 110, 116, 114]

inductive Character
  | plain (byte : UInt8) (itself : isPlain byte = true)
  | escaped (byte : UInt8) (listed : byte ∈ escapeBytes)

def Character.bytes : Character → List UInt8
  | plain byte _ => [byte]
  | escaped byte _ => [92, byte]

def rawText (characters : List Character) : List UInt8 :=
  characters.flatMap Character.bytes

def quoted (characters : List Character) : List UInt8 :=
  34 :: (rawText characters ++ [34])

def digitByte (digit : Fin 10) : UInt8 :=
  UInt8.ofNat (48 + digit.val)

structure Numeral where
  first : Fin 10
  rest : List (Fin 10)

def Numeral.bytes (numeral : Numeral) : List UInt8 :=
  digitByte numeral.first :: numeral.rest.map digitByte

structure Number where
  negative : Bool
  whole : Numeral
  fraction : Option Numeral

def signBytes (negative : Bool) : List UInt8 :=
  if negative then [45] else []

def fractionBytes : Option Numeral → List UInt8
  | none => []
  | some numeral => 46 :: numeral.bytes

def Number.bytes (number : Number) : List UInt8 :=
  signBytes number.negative ++ number.whole.bytes ++ fractionBytes number.fraction

mutual

inductive Value
  | object (members : Members)
  | array (elements : Elements)
  | string (characters : List Character)
  | number (number : Number)
  | true
  | false
  | null

inductive Members
  | nil
  | cons (key : List Character) (value : Value) (rest : Members)

inductive Elements
  | nil
  | cons (value : Value) (rest : Elements)

end

mutual

/-- All keys in a value, each before those in the value of its member. -/
def Value.keys : Value → List (List Character)
  | .object members => members.keys
  | .array elements => elements.keys
  | .string _ | .number _ | .true | .false | .null => []

def Members.keys : Members → List (List Character)
  | .nil => []
  | .cons key value rest => key :: (value.keys ++ rest.keys)

def Elements.keys : Elements → List (List Character)
  | .nil => []
  | .cons value rest => value.keys ++ rest.keys

end

/-! ### Prints -/

inductive Space : List UInt8 → Prop
  | nil : Space []
  | blank {text} : Space text → Space (32 :: text)
  | tab {text} : Space text → Space (9 :: text)
  | lineFeed {text} : Space text → Space (10 :: text)
  | carriageReturn {text} : Space text → Space (13 :: 10 :: text)

mutual

/-- The texts of a value with the spaces behind it. -/
inductive Value.Prints : Value → List UInt8 → Prop
  | object {members gap inner trail} : Space gap → Members.Prints members inner → Space trail →
      Value.Prints (.object members) (123 :: (gap ++ inner ++ 125 :: trail))
  | array {elements gap inner trail} : Space gap → Elements.Prints elements inner → Space trail →
      Value.Prints (.array elements) (91 :: (gap ++ inner ++ 93 :: trail))
  | string {characters trail} : Space trail →
      Value.Prints (.string characters) (quoted characters ++ trail)
  | number {number trail} : Space trail → Value.Prints (.number number) (number.bytes ++ trail)
  | true {trail} : Space trail → Value.Prints .true ([116, 114, 117, 101] ++ trail)
  | false {trail} : Space trail → Value.Prints .false ([102, 97, 108, 115, 101] ++ trail)
  | null {trail} : Space trail → Value.Prints .null ([110, 117, 108, 108] ++ trail)

inductive Members.Prints : Members → List UInt8 → Prop
  | nil : Members.Prints .nil []
  | last {key value text} : Member.Prints key value text →
      Members.Prints (.cons key value .nil) text
  | cons {key value text gap next nextValue rest later} : Member.Prints key value text →
      Space gap → Members.Prints (.cons next nextValue rest) later →
      Members.Prints (.cons key value (.cons next nextValue rest)) (text ++ 44 :: (gap ++ later))

inductive Member.Prints : List Character → Value → List UInt8 → Prop
  | mk {key value gap after text} : Space gap → Space after → Value.Prints value text →
      Member.Prints key value (quoted key ++ (gap ++ 58 :: (after ++ text)))

inductive Elements.Prints : Elements → List UInt8 → Prop
  | nil : Elements.Prints .nil []
  | last {value text} : Value.Prints value text → Elements.Prints (.cons value .nil) text
  | cons {value text gap next rest later} : Value.Prints value text → Space gap →
      Elements.Prints (.cons next rest) later →
      Elements.Prints (.cons value (.cons next rest)) (text ++ 44 :: (gap ++ later))

end

/-- The documents of a value: its texts, with spaces before them. -/
def Value.Document (value : Value) (text : List UInt8) : Prop :=
  ∃ gap body, text = gap ++ body ∧ Space gap ∧ value.Prints body

/-! ### What the grammar derives is a print -/

theorem mem_oneOf_iff {head : String} {members : List Char} {alternative : Alternative} :
    alternative ∈ (oneOf head members).alternatives ↔
      ∃ byte ∈ codes members, alternative = [.terminal [byte]] := by
  simp [oneOf, codes, Bnf.chars, Symbol.ofBytes, eq_comm]

theorem isPlain_iff {byte : UInt8} : isPlain byte = true ↔
    byte ∈ codes letterChars ∨ byte ∈ codes (Bnf.charRange '0' '9') ∨
      byte ∈ codes punctuationChars := by
  have all : (codes letterChars ++ (codes (Bnf.charRange '0' '9') ++
      codes punctuationChars)).isPerm (ByteSet.allBytes.filter isPlain) = true := by decide +kernel
  rw [← List.mem_append, ← List.mem_append, (List.isPerm_iff.mp all).mem_iff, List.mem_filter]
  exact ⟨fun itself => ⟨ByteSet.mem_allBytes byte, itself⟩, fun both => both.2⟩

theorem mem_digits_iff {byte : UInt8} :
    byte ∈ codes (Bnf.charRange '0' '9') ↔ ∃ digit, byte = digitByte digit := by
  have all : ∀ byte, byte ∈ codes (Bnf.charRange '0' '9') ↔ ∃ digit, byte = digitByte digit :=
    Bnf.forall_byte (by decide +kernel)
  exact all byte

def spec (name : String) (text : List UInt8) : Prop :=
  match name with
  | "json" => ∃ value : Value, value.Document text
  | "value" => ∃ value : Value, value.Prints text
  | "object" => ∃ (members : Members) (gap inner : List UInt8), Space gap ∧ members.Prints inner ∧
      text = 123 :: (gap ++ inner ++ [125])
  | "members" => ∃ members : Members, members.Prints text
  | "member" => ∃ (key : List Character) (value : Value), Member.Prints key value text
  | "more-members" => text = [] ∨
      ∃ (gap inner : List UInt8) (key : List Character) (value : Value) (rest : Members),
        Space gap ∧ (Members.cons key value rest).Prints inner ∧ text = 44 :: (gap ++ inner)
  | "array" => ∃ (elements : Elements) (gap inner : List UInt8), Space gap ∧
      elements.Prints inner ∧ text = 91 :: (gap ++ inner ++ [93])
  | "elements" => ∃ elements : Elements, elements.Prints text
  | "more-elements" => text = [] ∨
      ∃ (gap inner : List UInt8) (value : Value) (rest : Elements),
        Space gap ∧ (Elements.cons value rest).Prints inner ∧ text = 44 :: (gap ++ inner)
  | "string" => ∃ characters, text = quoted characters
  | "chars" => ∃ characters, text = rawText characters
  | "char" => ∃ character : Character, text = character.bytes
  | "escape" => ∃ byte ∈ escapeBytes, text = [byte]
  | "number" => ∃ number : Number, text = number.bytes
  | "sign" => ∃ negative, text = signBytes negative
  | "digits" => ∃ digits : List (Fin 10), text = digits.map digitByte
  | "fraction" => ∃ fraction, text = fractionBytes fraction
  | "digit" => ∃ digit, text = [digitByte digit]
  | "letter" => ∃ byte ∈ codes letterChars, text = [byte]
  | "punct" => ∃ byte ∈ codes punctuationChars, text = [byte]
  | "ws" => Space text
  | _ => text = [10] ∨ text = [13, 10]

def Keeps (rule : Rule) : Prop :=
  ∀ alternative ∈ rule.alternatives, ∀ text, Conforms spec alternative text → spec rule.head text

theorem keeps_json : Keeps jsonRule := by
  refine List.forall_mem_singleton.mpr ?_
  rintro _ ⟨gap, _, rfl, space, body, _, rfl, ⟨value, prints⟩, rfl⟩
  exact ⟨value, gap, body, by simp, space, prints⟩

theorem keeps_value : Keeps valueRule := by
  intro alternative chosen text conforms
  simp only [valueRule, List.mem_cons, List.not_mem_nil, or_false] at chosen
  rcases chosen with rfl | rfl | rfl | rfl | rfl | rfl | rfl
  · obtain ⟨_, _, rfl, ⟨members, gap, inner, space, prints, rfl⟩, trail, _, rfl, trails, rfl⟩ :=
      conforms
    exact ⟨.object members, by simpa using Value.Prints.object space prints trails⟩
  · obtain ⟨_, _, rfl, ⟨elements, gap, inner, space, prints, rfl⟩, trail, _, rfl, trails, rfl⟩ :=
      conforms
    exact ⟨.array elements, by simpa using Value.Prints.array space prints trails⟩
  · obtain ⟨_, _, rfl, ⟨characters, rfl⟩, trail, _, rfl, trails, rfl⟩ := conforms
    exact ⟨.string characters, by simpa using Value.Prints.string trails⟩
  · obtain ⟨_, _, rfl, ⟨number, rfl⟩, trail, _, rfl, trails, rfl⟩ := conforms
    exact ⟨.number number, by simpa using Value.Prints.number trails⟩
  · obtain ⟨_, rfl, trail, _, rfl, trails, rfl⟩ := conforms
    exact ⟨.true, by rw [List.append_nil]; exact .true trails⟩
  · obtain ⟨_, rfl, trail, _, rfl, trails, rfl⟩ := conforms
    exact ⟨.false, by rw [List.append_nil]; exact .false trails⟩
  · obtain ⟨_, rfl, trail, _, rfl, trails, rfl⟩ := conforms
    exact ⟨.null, by rw [List.append_nil]; exact .null trails⟩

theorem keeps_object : Keeps objectRule := by
  refine List.forall_mem_singleton.mpr ?_
  rintro _ ⟨_, rfl, gap, _, rfl, space, inner, _, rfl, ⟨members, prints⟩, _, rfl, rfl⟩
  exact ⟨members, gap, inner, space, prints, by simp⟩

theorem keeps_members : Keeps membersRule := by
  refine List.forall_mem_cons.mpr ⟨?_, List.forall_mem_singleton.mpr ?_⟩
  · rintro _ rfl
    exact ⟨.nil, .nil⟩
  · rintro _ ⟨first, _, rfl, ⟨key, value, prints⟩, later, _, rfl, more, rfl⟩
    rw [List.append_nil]
    rcases more with rfl | ⟨gap, inner, next, nextValue, rest, space, laterPrints, rfl⟩
    · exact ⟨.cons key value .nil, by simpa using Members.Prints.last prints⟩
    · exact ⟨_, .cons prints space laterPrints⟩

theorem keeps_member : Keeps memberRule := by
  refine List.forall_mem_singleton.mpr ?_
  rintro _ ⟨_, _, rfl, ⟨key, rfl⟩, gap, _, rfl, space, _, rfl, after, _, rfl, spaceAfter, text, _,
    rfl, ⟨value, prints⟩, rfl⟩
  exact ⟨key, value, by simpa using Member.Prints.mk space spaceAfter prints⟩

theorem keeps_moreMembers : Keeps moreMembersRule := by
  refine List.forall_mem_cons.mpr ⟨?_, List.forall_mem_singleton.mpr ?_⟩
  · rintro _ rfl
    exact Or.inl rfl
  · rintro _ ⟨_, rfl, gap, _, rfl, space, first, _, rfl, ⟨key, value, prints⟩, _, _, rfl, more, rfl⟩
    rw [List.append_nil]
    rcases more with rfl | ⟨next, inner, other, otherValue, rest, nextSpace, laterPrints, rfl⟩
    · exact Or.inr ⟨gap, first, key, value, .nil, space, .last prints, by simp⟩
    · exact Or.inr ⟨gap, _, key, value, _, space, .cons prints nextSpace laterPrints, rfl⟩

theorem keeps_array : Keeps arrayRule := by
  refine List.forall_mem_singleton.mpr ?_
  rintro _ ⟨_, rfl, gap, _, rfl, space, inner, _, rfl, ⟨elements, prints⟩, _, rfl, rfl⟩
  exact ⟨elements, gap, inner, space, prints, by simp⟩

theorem keeps_elements : Keeps elementsRule := by
  refine List.forall_mem_cons.mpr ⟨?_, List.forall_mem_singleton.mpr ?_⟩
  · rintro _ rfl
    exact ⟨.nil, .nil⟩
  · rintro _ ⟨first, _, rfl, ⟨value, prints⟩, later, _, rfl, more, rfl⟩
    rw [List.append_nil]
    rcases more with rfl | ⟨gap, inner, next, rest, space, laterPrints, rfl⟩
    · exact ⟨.cons value .nil, by simpa using Elements.Prints.last prints⟩
    · exact ⟨_, .cons prints space laterPrints⟩

theorem keeps_moreElements : Keeps moreElementsRule := by
  refine List.forall_mem_cons.mpr ⟨?_, List.forall_mem_singleton.mpr ?_⟩
  · rintro _ rfl
    exact Or.inl rfl
  · rintro _ ⟨_, rfl, gap, _, rfl, space, first, _, rfl, ⟨value, prints⟩, _, _, rfl, more, rfl⟩
    rw [List.append_nil]
    rcases more with rfl | ⟨next, inner, other, rest, nextSpace, laterPrints, rfl⟩
    · exact Or.inr ⟨gap, first, value, .nil, space, .last prints, by simp⟩
    · exact Or.inr ⟨gap, _, value, _, space, .cons prints nextSpace laterPrints, rfl⟩

theorem keeps_string : Keeps stringRule := by
  refine List.forall_mem_singleton.mpr ?_
  rintro _ ⟨_, rfl, _, _, rfl, ⟨characters, rfl⟩, _, rfl, rfl⟩
  exact ⟨characters, by simp [quoted]⟩

theorem keeps_chars : Keeps charsRule := by
  refine List.forall_mem_cons.mpr ⟨?_, List.forall_mem_singleton.mpr ?_⟩
  · rintro _ rfl
    exact ⟨[], rfl⟩
  · rintro _ ⟨_, _, rfl, ⟨character, rfl⟩, _, _, rfl, ⟨characters, rfl⟩, rfl⟩
    exact ⟨character :: characters, by simp [rawText]⟩

theorem keeps_char : Keeps charRule := by
  intro alternative chosen text conforms
  simp only [charRule, List.mem_cons, List.not_mem_nil, or_false] at chosen
  rcases chosen with rfl | rfl | rfl | rfl
  · obtain ⟨_, _, rfl, ⟨byte, letter, rfl⟩, rfl⟩ := conforms
    exact ⟨.plain byte (isPlain_iff.mpr (Or.inl letter)), rfl⟩
  · obtain ⟨_, _, rfl, ⟨digit, rfl⟩, rfl⟩ := conforms
    have among := mem_digits_iff.mpr ⟨digit, rfl⟩
    exact ⟨.plain _ (isPlain_iff.mpr (Or.inr (Or.inl among))), rfl⟩
  · obtain ⟨_, _, rfl, ⟨byte, punctuation, rfl⟩, rfl⟩ := conforms
    exact ⟨.plain byte (isPlain_iff.mpr (Or.inr (Or.inr punctuation))), rfl⟩
  · obtain ⟨_, rfl, _, _, rfl, ⟨byte, listed, rfl⟩, rfl⟩ := conforms
    exact ⟨.escaped byte listed, rfl⟩

theorem keeps_oneOf {head : String} {members : List Char}
    (suits : ∀ byte ∈ codes members, spec head [byte]) : Keeps (oneOf head members) := by
  intro alternative chosen text conforms
  obtain ⟨byte, member, rfl⟩ := mem_oneOf_iff.mp chosen
  obtain ⟨_, rfl, rfl⟩ := conforms
  exact suits byte member

theorem keeps_number : Keeps numberRule := by
  refine List.forall_mem_singleton.mpr ?_
  rintro _ ⟨_, _, rfl, ⟨negative, rfl⟩, _, _, rfl, ⟨first, rfl⟩, _, _, rfl, ⟨rest, rfl⟩, _, _, rfl,
    ⟨fraction, rfl⟩, rfl⟩
  exact ⟨⟨negative, ⟨first, rest⟩, fraction⟩, by simp [Number.bytes, Numeral.bytes]⟩

theorem keeps_sign : Keeps signRule := by
  refine List.forall_mem_cons.mpr ⟨?_, List.forall_mem_singleton.mpr ?_⟩
  · rintro _ rfl
    exact ⟨false, rfl⟩
  · rintro _ ⟨_, rfl, rfl⟩
    exact ⟨true, rfl⟩

theorem keeps_digits : Keeps digitsRule := by
  refine List.forall_mem_cons.mpr ⟨?_, List.forall_mem_singleton.mpr ?_⟩
  · rintro _ rfl
    exact ⟨[], rfl⟩
  · rintro _ ⟨_, _, rfl, ⟨digit, rfl⟩, _, _, rfl, ⟨digits, rfl⟩, rfl⟩
    exact ⟨digit :: digits, by simp⟩

theorem keeps_fraction : Keeps fractionRule := by
  refine List.forall_mem_cons.mpr ⟨?_, List.forall_mem_singleton.mpr ?_⟩
  · rintro _ rfl
    exact ⟨none, rfl⟩
  · rintro _ ⟨_, rfl, _, _, rfl, ⟨first, rfl⟩, _, _, rfl, ⟨rest, rfl⟩, rfl⟩
    exact ⟨some ⟨first, rest⟩, by simp [fractionBytes, Numeral.bytes]⟩

theorem keeps_space : Keeps spaceRule := by
  intro alternative chosen text conforms
  simp only [spaceRule, List.mem_cons, List.not_mem_nil, or_false] at chosen
  rcases chosen with rfl | rfl | rfl | rfl
  · obtain rfl := conforms
    exact .nil
  · obtain ⟨_, rfl, rest, _, rfl, space, rfl⟩ := conforms
    rw [List.append_nil]
    exact .blank space
  · obtain ⟨_, rfl, rest, _, rfl, space, rfl⟩ := conforms
    rw [List.append_nil]
    exact .tab space
  · obtain ⟨_, _, rfl, ends, rest, _, rfl, space, rfl⟩ := conforms
    rw [List.append_nil]
    rcases ends with rfl | rfl
    · exact .lineFeed space
    · exact .carriageReturn space

theorem keeps_grammar : ∀ rule ∈ grammar.rules, Keeps rule := by
  have digits : Keeps (oneOf "digit" (Bnf.charRange '0' '9')) := keeps_oneOf fun byte member => by
    obtain ⟨digit, rfl⟩ := mem_digits_iff.mp member
    exact ⟨digit, rfl⟩
  have escapes : Keeps (oneOf "escape" escapeChars) :=
    keeps_oneOf fun byte member => ⟨byte, member, rfl⟩
  have letters : Keeps (oneOf "letter" letterChars) :=
    keeps_oneOf fun byte member => ⟨byte, member, rfl⟩
  have punctuation : Keeps (oneOf "punct" punctuationChars) :=
    keeps_oneOf fun byte member => ⟨byte, member, rfl⟩
  simp only [grammar, List.forall_mem_cons]
  exact ⟨keeps_json, keeps_value, keeps_object, keeps_members, keeps_member, keeps_moreMembers,
    keeps_array, keeps_elements, keeps_moreElements, keeps_string, keeps_chars, keeps_char, escapes,
    keeps_number, keeps_sign, keeps_digits, keeps_fraction, digits, letters, punctuation,
    keeps_space, List.forall_mem_nil _⟩

/-- What the grammar derives as a document is the document of a value. -/
theorem exists_document_of_derives {trees : List Derivation} {text : List UInt8}
    (derives : grammar.Derives [nonTerminal "json"] trees text) :
    ∃ value : Value, value.Document text := by
  obtain ⟨inner, _, rfl, ⟨value, document⟩, rfl⟩ :=
    derives.conforms keeps_grammar (Or.inl rfl) (Or.inr rfl)
  exact ⟨value, by rwa [List.append_nil]⟩

end Lookahead.Json
