import Lookahead.Bnf.Load
import Lookahead.Proofs.Bounds
import Lookahead.Proofs.Gathering

/-!
The grammar of BNF text has a parser, and the kinds of nodes that the conversion relies on are the
numbers of its rules.
-/

namespace Lookahead.Bnf

open Resolved (Bounds)

section Bounds

def interval (first last : Char) : ByteSet :=
  ⟨BitVec.ofNat 256 (1 <<< (last.toNat + 1) - 1 <<< first.toNat)⟩

def members (text : List Char) : ByteSet :=
  ByteSet.ofList (text.map fun char => char.val.toUInt8)

def ending : ByteSet :=
  ByteSet.ofList [endOfInputByte]

def lineEnding : ByteSet :=
  ByteSet.ofList [endOfInputByte, 10, 13]

def printable : ByteSet :=
  interval ' ' '~'

def letters : ByteSet :=
  interval 'A' 'Z' ∪ interval 'a' 'z'

def nameBytes : ByteSet :=
  letters ∪ interval '0' '9' ∪ members ['-', '_']

def termStarts : ByteSet :=
  members ['\x22', '\x27', '<']

def afterTerm : ByteSet :=
  lineEnding ∪ termStarts ∪ members [' ', '|']

/-- Bounds for the rules of BNF text, five rules a line in the order of the grammar. -/
def bounds : Bounds grammar.rules.length where
  nullable := #v[
    true, true, true, true, false,
    false, true, false, true, false,
    false, true, true, false, false,
    false, false, false, false, true,
    false, false, false, false, true]
  first := #v[
    lineEnding ∪ members [' ', '<'], lineEnding, ending ∪ members [' ', '<'],
      ending ∪ members ['<'], members ['<'],
    termStarts, ending ∪ members ['|'], termStarts, ending ∪ termStarts, termStarts,
    members ['\x22', '\x27'], ending ∪ printable.erase 34, ending ∪ printable.erase 39,
      printable.erase 34, printable.erase 39,
    (printable.erase 34).erase 39, members ['\\'],
      members ['t', 'n', 'r', '\x22', '\x27', '\\'], letters, ending ∪ nameBytes,
    nameBytes, letters, interval '0' '9', members symbolChars, ending ∪ members [' ']]
  follow := #v[
    ending, ending, lineEnding, lineEnding, lineEnding,
    lineEnding, lineEnding, lineEnding ∪ members ['|'], lineEnding ∪ members ['|'], afterTerm,
    afterTerm, members ['\x22'], members ['\x27'], printable, printable,
    printable, printable, printable, members ['>'], members ['>'],
    printable, printable, printable, printable, lineEnding ∪ termStarts ∪ members [':', '|']]
  rank := #v[
    9, 0, 8, 7, 0,
    7, 0, 6, 6, 5,
    1, 5, 5, 4, 4,
    3, 1, 0, 1, 2,
    1, 0, 0, 0, 0]

end Bounds

theorem exists_ofGrammar : ∃ result, parser = .ok result := by
  have fits : bounds.fit = true := by decide +kernel
  exact Bounds.exists_ofGrammar fits

theorem heads_nodup : (grammar.rules.map Rule.head).Nodup := by
  decide

theorem endOfLine_builtin : grammar.rule? endOfLineName = none := by
  decide

def bindings : Bindings where
  content := .rule 4
  ruleName := .rule 18
  expression := .rule 5
  list := .rule 7
  term := .rule 9
  literal := .rule 10
  doubleQuoted := .rule 11
  singleQuoted := .rule 12
  escapeSequence := .rule 16
  escapedChar := .rule 17

theorem ofNames_eq_ok {result : Parser} (success : parser = .ok result) :
    Bindings.ofNames result.names = .ok bindings := by
  rw [Parser.names_of_ofGrammar success]
  decide +kernel

end Lookahead.Bnf
