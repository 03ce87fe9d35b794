import Lookahead.Json.Keys
import Lookahead.Proofs.Joining

/-!
The grammar of JSON documents as it is loaded.  Its text has the rules in columns, so its lines are
the rendered rules with blanks before the sign.
-/

namespace Lookahead.Json

open Bnf (charRange columnLine oneOf)
open Lookahead.Symbol (terminal nonTerminal empty)

/-! ### The rules -/

def jsonRule : Rule :=
  ⟨"json", [[nonTerminal "ws", nonTerminal "value"]]⟩

def valueRule : Rule :=
  ⟨"value",
    [[nonTerminal "object", nonTerminal "ws"], [nonTerminal "array", nonTerminal "ws"],
      [nonTerminal "string", nonTerminal "ws"], [nonTerminal "number", nonTerminal "ws"],
      [terminal [116, 114, 117, 101], nonTerminal "ws"],
      [terminal [102, 97, 108, 115, 101], nonTerminal "ws"],
      [terminal [110, 117, 108, 108], nonTerminal "ws"]]⟩

def objectRule : Rule :=
  ⟨"object", [[terminal [123], nonTerminal "ws", nonTerminal "members", terminal [125]]]⟩

def membersRule : Rule :=
  ⟨"members", [[empty], [nonTerminal "member", nonTerminal "more-members"]]⟩

def memberRule : Rule :=
  ⟨"member",
    [[nonTerminal "string", nonTerminal "ws", terminal [58], nonTerminal "ws",
      nonTerminal "value"]]⟩

def moreMembersRule : Rule :=
  ⟨"more-members",
    [[empty], [terminal [44], nonTerminal "ws", nonTerminal "member", nonTerminal "more-members"]]⟩

def arrayRule : Rule :=
  ⟨"array", [[terminal [91], nonTerminal "ws", nonTerminal "elements", terminal [93]]]⟩

def elementsRule : Rule :=
  ⟨"elements", [[empty], [nonTerminal "value", nonTerminal "more-elements"]]⟩

def moreElementsRule : Rule :=
  ⟨"more-elements",
    [[empty], [terminal [44], nonTerminal "ws", nonTerminal "value", nonTerminal "more-elements"]]⟩

def stringRule : Rule :=
  ⟨"string", [[terminal [34], nonTerminal "chars", terminal [34]]]⟩

def charsRule : Rule :=
  ⟨"chars", [[empty], [nonTerminal "char", nonTerminal "chars"]]⟩

def charRule : Rule :=
  ⟨"char",
    [[nonTerminal "letter"], [nonTerminal "digit"], [nonTerminal "punct"],
      [terminal [92], nonTerminal "escape"]]⟩

def escapeChars : List Char :=
  ['\x22', '\\', '/', 'n', 't', 'r']

def numberRule : Rule :=
  ⟨"number",
    [[nonTerminal "sign", nonTerminal "digit", nonTerminal "digits", nonTerminal "fraction"]]⟩

def signRule : Rule :=
  ⟨"sign", [[empty], [terminal [45]]]⟩

def digitsRule : Rule :=
  ⟨"digits", [[empty], [nonTerminal "digit", nonTerminal "digits"]]⟩

def fractionRule : Rule :=
  ⟨"fraction", [[empty], [terminal [46], nonTerminal "digit", nonTerminal "digits"]]⟩

def letterChars : List Char :=
  charRange 'a' 'z' ++ charRange 'A' 'Z'

def punctuationChars : List Char :=
  (charRange ' ' '~').filter fun char => !char.isAlphanum && char != '\x22' && char != '\\'

def spaceRule : Rule :=
  ⟨"ws",
    [[empty], [terminal [32], nonTerminal "ws"], [terminal [9], nonTerminal "ws"],
      [nonTerminal endOfLineName, nonTerminal "ws"]]⟩

def grammar : Grammar :=
  ⟨[jsonRule, valueRule, objectRule, membersRule, memberRule, moreMembersRule, arrayRule,
    elementsRule, moreElementsRule, stringRule, charsRule, charRule, oneOf "escape" escapeChars,
    numberRule, signRule, digitsRule, fractionRule, oneOf "digit" (charRange '0' '9'),
    oneOf "letter" letterChars, oneOf "punct" punctuationChars, spaceRule]⟩

/-! ### Their text -/

theorem grammarText_eq :
    grammarText = "\n".intercalate (grammar.rules.map (columnLine 16) ++ [""]) := by
  rw [grammarText]
  congr 1
  decide +kernel

theorem load_grammarText : Grammar.load grammarText = .ok grammar := by
  have readable : ∀ rule ∈ grammar.rules, rule.Readable := by decide +kernel
  rw [grammarText_eq]
  exact Bnf.load_columnLines 16 (by decide) readable

/-! ### Their parser -/

section Bounds

open Bnf (ending interval letters members printable)

def spaces : ByteSet :=
  members [' ', '\t', '\n', '\r']

def digits : ByteSet :=
  interval '0' '9'

def valueStarts : ByteSet :=
  digits ∪ members ['\x7b', '[', '\x22', '-', 't', 'f', 'n']

def afterValue : ByteSet :=
  ending ∪ members [',', ']', '\x7d']

/-- Bounds for the rules of JSON documents, five rules a line in the order of the grammar. -/
def bounds : Resolved.Bounds grammar.rules.length where
  nullable := #v[
    false, false, false, true, false,
    true, false, true, true, false,
    true, false, false, false, true,
    true, true, false, false, false,
    true]
  first := #v[
    spaces ∪ valueStarts, valueStarts, members ['\x7b'], ending ∪ members ['\x22'],
      members ['\x22'],
    ending ∪ members [','], members ['['], ending ∪ valueStarts, ending ∪ members [','],
      members ['\x22'],
    ending ∪ printable.erase 34, printable.erase 34, members escapeChars, digits ∪ members ['-'],
      ending ∪ members ['-'],
    ending ∪ digits, ending ∪ members ['.'], digits, letters, members punctuationChars,
    ending ∪ spaces]
  follow := #v[
    ending, afterValue, afterValue ∪ spaces, members ['\x7d'], members [',', '\x7d'],
    members ['\x7d'], afterValue ∪ spaces, members [']'], members [']'],
      afterValue ∪ spaces ∪ members [':'],
    members ['\x22'], printable, printable, afterValue ∪ spaces, digits,
    afterValue ∪ spaces ∪ members ['.'], afterValue ∪ spaces, afterValue ∪ spaces ∪ printable,
      printable, printable,
    afterValue ∪ valueStarts ∪ members [':']]
  rank := #v[
    3, 2, 0, 2, 1,
    0, 0, 3, 0, 0,
    2, 1, 0, 1, 0,
    1, 0, 0, 0, 0,
    0]

end Bounds

theorem exists_parser_eq :
    ∃ result, parser = .ok result ∧ Parser.ofGrammar grammar = .ok result := by
  have fits : bounds.fit = true := by decide +kernel
  obtain ⟨result, made⟩ := Resolved.Bounds.exists_ofGrammar fits
  obtain ⟨⟨table, names⟩, generated, same⟩ := bind_eq_ok_iff.mp made
  have loaded : Table.ofText grammarText = .ok (table, names) :=
    bind_eq_ok_iff.mpr ⟨grammar, mapError_eq_ok_iff.mpr load_grammarText,
      mapError_eq_ok_iff.mpr generated⟩
  obtain rfl := Except.ok.inj same
  exact ⟨_, bind_eq_ok_iff.mpr ⟨_, loaded, rfl⟩, made⟩

theorem heads_nodup : (grammar.rules.map Rule.head).Nodup := by
  decide

theorem endOfLine_builtin : grammar.rule? endOfLineName = none := by
  decide

/-- The kinds of members and of strings, which are the fifth and the tenth rule. -/
def kinds : Kinds where
  member := .rule 4
  string := .rule 9

theorem ofNames?_eq_some {result : Parser} (made : Parser.ofGrammar grammar = .ok result) :
    Kinds.ofNames? result.names = some kinds := by
  rw [Parser.names_of_ofGrammar made]
  decide +kernel

end Lookahead.Json
