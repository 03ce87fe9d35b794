import Lookahead.Proofs.LineEnds
import Lookahead.Proofs.SelfGrammar

/-!
The small parts of BNF text: blanks, names and what stands between quotes.  What the grammar
derives for them is what reads as them, and the nodes of a quoted text give back its bytes.
-/

namespace Lookahead.Bnf

open Lookahead.Grammar Lookahead.Derivation

variable {trees : List Derivation} {text : List UInt8}

def codes (text : List Char) : List UInt8 :=
  text.map fun char => char.val.toUInt8

theorem derives_class_iff {id : Nat} {head : String} {members : List Char}
    {holds : UInt8 → Bool} (found : grammar.rules[id]? = some (oneOf head members))
    (all : (codes members).isPerm (ByteSet.allBytes.filter holds) = true) :
    grammar.Derives [.nonTerminal head] trees text ↔
      ∃ byte, holds byte = true ∧ trees = [.rule id [.terminal [byte]]] ∧ text = [byte] := by
  have belongs : ∀ byte, byte ∈ codes members ↔ holds byte = true := by
    intro byte
    rw [(List.isPerm_iff.mp all).mem_iff, List.mem_filter]
    exact ⟨fun both => both.2, fun here => ⟨ByteSet.mem_allBytes byte, here⟩⟩
  rw [show head = (oneOf head members).head from rfl, derives_rule_iff heads_nodup found]
  constructor
  · rintro ⟨alternative, chosen, children, rfl, inside⟩
    obtain ⟨char, member, rfl⟩ := List.mem_map.mp chosen
    obtain ⟨rfl, rfl⟩ := derives_terminal_iff.mp inside
    exact ⟨_, (belongs _).mp (List.mem_map_of_mem member), rfl, rfl⟩
  · rintro ⟨byte, holdsHere, rfl, rfl⟩
    obtain ⟨char, member, rfl⟩ := List.mem_map.mp ((belongs byte).mpr holdsHere)
    exact ⟨_, List.mem_map_of_mem member, _, rfl, derives_terminal _⟩

def isDigit (byte : UInt8) : Bool :=
  48 ≤ byte && byte ≤ 57

def isPlain (byte : UInt8) : Bool :=
  isPrintable byte && byte != 34 && byte != 39 && byte != 92

def isSymbolByte (byte : UInt8) : Bool :=
  isPlain byte && !isLetter byte && !isDigit byte

def isEscapable (byte : UInt8) : Bool :=
  escapes.any fun pair => pair.1 == byte

theorem classes_isPerm :
    (codes (charRange 'A' 'Z' ++ charRange 'a' 'z')).isPerm
        (ByteSet.allBytes.filter isLetter) = true ∧
      (codes (charRange '0' '9')).isPerm (ByteSet.allBytes.filter isDigit) = true ∧
      (codes symbolChars).isPerm (ByteSet.allBytes.filter isSymbolByte) = true ∧
      (codes ['t', 'n', 'r', '\x22', '\x27', '\\']).isPerm
        (ByteSet.allBytes.filter isEscapable) = true := by
  decide +kernel

theorem derives_letter_iff : grammar.Derives [.nonTerminal "letter"] trees text ↔
    ∃ byte, isLetter byte = true ∧ trees = [.rule 21 [.terminal [byte]]] ∧ text = [byte] :=
  derives_class_iff (show grammar.rules[21]? =
    some (oneOf "letter" (charRange 'A' 'Z' ++ charRange 'a' 'z')) from rfl) classes_isPerm.1

theorem derives_digit_iff : grammar.Derives [.nonTerminal "digit"] trees text ↔
    ∃ byte, isDigit byte = true ∧ trees = [.rule 22 [.terminal [byte]]] ∧ text = [byte] :=
  derives_class_iff (show grammar.rules[22]? = some (oneOf "digit" (charRange '0' '9')) from rfl)
    classes_isPerm.2.1

theorem derives_symbol_iff : grammar.Derives [.nonTerminal "symbol"] trees text ↔
    ∃ byte, isSymbolByte byte = true ∧ trees = [.rule 23 [.terminal [byte]]] ∧ text = [byte] :=
  derives_class_iff (show grammar.rules[23]? = some (oneOf "symbol" symbolChars) from rfl)
    classes_isPerm.2.2.1

theorem derives_escapedChar_iff : grammar.Derives [.nonTerminal "escaped-char"] trees text ↔
    ∃ byte, isEscapable byte = true ∧ trees = [.rule 17 [.terminal [byte]]] ∧ text = [byte] :=
  derives_class_iff (show grammar.rules[17]? =
    some (oneOf "escaped-char" ['t', 'n', 'r', '\x22', '\x27', '\\']) from rfl)
    classes_isPerm.2.2.2

/-! ### Blanks -/

def blankRule : Rule :=
  ⟨"opt-whitespace", [[.terminal [32], .nonTerminal "opt-whitespace"], [.empty]]⟩

theorem found_blankRule : grammar.rules[24]? = some blankRule := rfl

theorem blank_of_derives {tree : Derivation}
    (derives : grammar.Derives [.nonTerminal "opt-whitespace"] [tree] text) : Blank text := by
  have repeats : ∀ alternative ∈ blankRule.alternatives,
      alternative = [.empty] ∨ alternative = [.terminal [32]] ++ [.nonTerminal blankRule.head] := by
    simp [blankRule]
  obtain ⟨segments, rfl, each⟩ :=
    exists_segments_of_derives heads_nodup found_blankRule repeats derives
  intro byte member
  obtain ⟨segment, inside, here⟩ := List.mem_flatten.mp member
  obtain ⟨trees, derivesHere⟩ := each segment inside
  obtain ⟨_, rfl⟩ := derives_terminal_iff.mp derivesHere
  exact List.mem_singleton.mp here

theorem exists_derives_blank (blank : Blank text) :
    ∃ children, grammar.Derives [.nonTerminal "opt-whitespace"] [.rule 24 children] text := by
  induction text with
  | nil =>
      have ends : [.empty] ∈ blankRule.alternatives := by simp [blankRule]
      exact ⟨_, (Derives.empty .nil).of_alternative found_blankRule ends⟩
  | cons byte rest ih =>
      obtain ⟨children, derives⟩ := ih fun other member => blank other (by simp [member])
      obtain rfl := blank byte List.mem_cons_self
      have again : [.terminal [32], .nonTerminal "opt-whitespace"] ∈ blankRule.alternatives := by
        simp [blankRule]
      exact ⟨_, (Derives.terminal [32] derives).of_alternative found_blankRule again⟩

/-! ### Names -/

def nameRule : Rule :=
  ⟨"rule-name", [[.nonTerminal "letter", .nonTerminal "rule-name-tail"]]⟩

def nameTailRule : Rule :=
  ⟨"rule-name-tail", [[.empty], [.nonTerminal "rule-char", .nonTerminal "rule-name-tail"]]⟩

def nameByteRule : Rule :=
  ⟨"rule-char",
    [[.nonTerminal "letter"], [.nonTerminal "digit"], [.terminal [45]], [.terminal [95]]]⟩

theorem found_nameRule : grammar.rules[18]? = some nameRule := rfl

theorem found_nameTailRule : grammar.rules[19]? = some nameTailRule := rfl

theorem found_nameByteRule : grammar.rules[20]? = some nameByteRule := rfl

theorem nameByte_of_derives (derives : grammar.Derives [.nonTerminal "rule-char"] trees text) :
    ∃ byte, isNameByte byte = true ∧ text = [byte] := by
  obtain ⟨alternative, chosen, children, rfl, inside⟩ :=
    (derives_rule_iff heads_nodup found_nameByteRule).mp derives
  simp only [nameByteRule, List.mem_cons, List.not_mem_nil, or_false] at chosen
  rcases chosen with rfl | rfl | rfl | rfl
  · obtain ⟨byte, letter, _, rfl⟩ := derives_letter_iff.mp inside
    exact ⟨byte, by simp [isNameByte, letter], rfl⟩
  · obtain ⟨byte, digit, _, rfl⟩ := derives_digit_iff.mp inside
    rw [isDigit] at digit
    exact ⟨byte, by simp only [isNameByte, digit, Bool.or_true, Bool.true_or], rfl⟩
  · obtain ⟨_, rfl⟩ := derives_terminal_iff.mp inside
    exact ⟨45, by decide, rfl⟩
  · obtain ⟨_, rfl⟩ := derives_terminal_iff.mp inside
    exact ⟨95, by decide, rfl⟩

theorem exists_derives_nameByte {byte : UInt8} (holds : isNameByte byte = true) :
    ∃ tree, grammar.Derives [.nonTerminal "rule-char"] [tree] [byte] := by
  simp only [isNameByte, Bool.or_eq_true, beq_iff_eq] at holds
  rcases holds with ((letter | digit) | rfl) | rfl
  · have inside := derives_letter_iff.mpr ⟨byte, letter, rfl, rfl⟩
    exact ⟨_, inside.of_alternative found_nameByteRule (by simp [nameByteRule])⟩
  · have inside := derives_digit_iff.mpr ⟨byte, digit, rfl, rfl⟩
    exact ⟨_, inside.of_alternative found_nameByteRule (by simp [nameByteRule])⟩
  · exact ⟨_, (derives_terminal [45]).of_alternative found_nameByteRule (by simp [nameByteRule])⟩
  · exact ⟨_, (derives_terminal [95]).of_alternative found_nameByteRule (by simp [nameByteRule])⟩

theorem name_of_derives (derives : grammar.Derives [.nonTerminal "rule-name"] trees text) :
    IsName text := by
  obtain ⟨alternative, chosen, children, rfl, inside⟩ :=
    (derives_rule_iff heads_nodup found_nameRule).mp derives
  obtain rfl := List.mem_singleton.mp chosen
  obtain ⟨_, others, first, later, rfl, rfl, here, remaining⟩ := derives_cons_iff.mp inside
  obtain ⟨byte, letter, _, rfl⟩ := derives_letter_iff.mp here
  obtain ⟨tail, _, rest, nothing, rfl, rfl, tailDerives, ends⟩ := derives_cons_iff.mp remaining
  obtain ⟨rfl, rfl⟩ := derives_nil_iff.mp ends
  have repeats : ∀ alternative ∈ nameTailRule.alternatives, alternative = [.empty] ∨
      alternative = [.nonTerminal "rule-char"] ++ [.nonTerminal nameTailRule.head] := by
    simp [nameTailRule]
  obtain ⟨segments, rfl, each⟩ :=
    exists_segments_of_derives heads_nodup found_nameTailRule repeats tailDerives
  refine ⟨letter, fun other member => ?_⟩
  rw [List.append_nil] at member
  obtain ⟨segment, inside, here⟩ := List.mem_flatten.mp member
  obtain ⟨trees, derivesHere⟩ := each segment inside
  obtain ⟨found, holds, rfl⟩ := nameByte_of_derives derivesHere
  exact List.mem_singleton.mp here ▸ holds

theorem exists_derives_nameTail (holds : ∀ byte ∈ text, isNameByte byte = true) :
    ∃ tree, grammar.Derives [.nonTerminal "rule-name-tail"] [tree] text := by
  induction text with
  | nil =>
      have ends : [.empty] ∈ nameTailRule.alternatives := by simp [nameTailRule]
      exact ⟨_, (Derives.empty .nil).of_alternative found_nameTailRule ends⟩
  | cons byte rest ih =>
      obtain ⟨tail, tailDerives⟩ := ih fun other member => holds other (by simp [member])
      obtain ⟨tree, derives⟩ := exists_derives_nameByte (holds byte List.mem_cons_self)
      have again : [.nonTerminal "rule-char", .nonTerminal "rule-name-tail"] ∈
          nameTailRule.alternatives := by simp [nameTailRule]
      exact ⟨_, (derives.append tailDerives).of_alternative found_nameTailRule again⟩

theorem exists_derives_name (name : IsName text) :
    ∃ children, grammar.Derives [.nonTerminal "rule-name"] [.rule 18 children] text := by
  cases text with
  | nil => exact absurd name (by simp [IsName])
  | cons byte rest =>
      obtain ⟨letter, holds⟩ := name
      have first := derives_letter_iff.mpr ⟨byte, letter, rfl, rfl⟩
      obtain ⟨tail, tailDerives⟩ := exists_derives_nameTail holds
      have both : [.nonTerminal "letter", .nonTerminal "rule-name-tail"] ∈
          nameRule.alternatives := by simp [nameRule]
      exact ⟨_, (first.append tailDerives).of_alternative found_nameRule both⟩

end Lookahead.Bnf
