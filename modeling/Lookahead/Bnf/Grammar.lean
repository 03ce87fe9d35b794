import Lookahead.Engine.Parser

/-!
The grammar of BNF text, as a grammar of its own.  A text is a list of lines, each blank or with
one rule; names stand in angle brackets, literals between quotes of either style.
-/

namespace Lookahead.Bnf

def chars (text : List Char) : Symbol :=
  .ofBytes (text.map fun char => char.val.toUInt8)

def oneOf (head : String) (text : List Char) : Rule :=
  ⟨head, text.map fun char => [chars [char]]⟩

def charRange (first last : Char) : List Char :=
  (List.range' first.toNat (last.toNat + 1 - first.toNat)).map Char.ofNat

/-- Printable ASCII that is neither a letter nor a digit, and neither a quote nor a backslash. -/
def symbolChars : List Char :=
  (charRange ' ' '~').filter fun char =>
    !char.isAlphanum && char != '\x22' && char != '\x27' && char != '\\'

open Lookahead.Symbol (nonTerminal empty) in
def grammar : Grammar :=
  ⟨[ ⟨"syntax", [[nonTerminal "line", nonTerminal "more-lines"]]⟩,
    ⟨"more-lines",
      [[empty], [nonTerminal endOfLineName, nonTerminal "line", nonTerminal "more-lines"]]⟩,
    ⟨"line", [[nonTerminal "opt-whitespace", nonTerminal "opt-content"]]⟩,
    ⟨"opt-content", [[nonTerminal "content"], [empty]]⟩,
    ⟨"content",
      [[chars ['<'], nonTerminal "rule-name", chars ['>'], nonTerminal "opt-whitespace",
        chars [':', ':', '='], nonTerminal "opt-whitespace", nonTerminal "expression"]]⟩,
    ⟨"expression", [[nonTerminal "list", nonTerminal "expression-tail"]]⟩,
    ⟨"expression-tail",
      [[empty],
        [chars ['|'], nonTerminal "opt-whitespace", nonTerminal "list",
          nonTerminal "expression-tail"]]⟩,
    ⟨"list", [[nonTerminal "term", nonTerminal "opt-whitespace", nonTerminal "list-tail"]]⟩,
    ⟨"list-tail",
      [[empty], [nonTerminal "term", nonTerminal "opt-whitespace", nonTerminal "list-tail"]]⟩,
    ⟨"term",
      [[nonTerminal "literal"], [chars ['<'], nonTerminal "rule-name", chars ['>']]]⟩,
    ⟨"literal",
      [[chars ['\x22'], nonTerminal "text1", chars ['\x22']],
        [chars ['\x27'], nonTerminal "text2", chars ['\x27']]]⟩,
    ⟨"text1", [[empty], [nonTerminal "character1", nonTerminal "text1"]]⟩,
    ⟨"text2", [[empty], [nonTerminal "character2", nonTerminal "text2"]]⟩,
    ⟨"character1", [[chars ['\x27']], [nonTerminal "character"]]⟩,
    ⟨"character2", [[chars ['\x22']], [nonTerminal "character"]]⟩,
    ⟨"character",
      [[nonTerminal "letter"], [nonTerminal "digit"], [nonTerminal "symbol"],
        [nonTerminal "escape-sequence"]]⟩,
    ⟨"escape-sequence", [[chars ['\\'], nonTerminal "escaped-char"]]⟩,
    oneOf "escaped-char" ['t', 'n', 'r', '\x22', '\x27', '\\'],
    ⟨"rule-name", [[nonTerminal "letter", nonTerminal "rule-name-tail"]]⟩,
    ⟨"rule-name-tail", [[empty], [nonTerminal "rule-char", nonTerminal "rule-name-tail"]]⟩,
    ⟨"rule-char",
      [[nonTerminal "letter"], [nonTerminal "digit"], [chars ['-']], [chars ['_']]]⟩,
    oneOf "letter" (charRange 'A' 'Z' ++ charRange 'a' 'z'),
    oneOf "digit" (charRange '0' '9'),
    oneOf "symbol" symbolChars,
    ⟨"opt-whitespace", [[chars [' '], nonTerminal "opt-whitespace"], [empty]]⟩ ]⟩

def parser : Except GrammarError Parser :=
  Parser.ofGrammar grammar

end Lookahead.Bnf
