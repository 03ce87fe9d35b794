import Lookahead.Grammar.Basic
import Lookahead.Text.Lossy

/-!
Grammars as BNF text, one rule a line.
-/

namespace Lookahead

/-- Single quotes are chosen only where they save an escape. -/
def prefersSingleQuotes (bytes : List UInt8) : Bool :=
  bytes.contains 34 && !bytes.contains 39

def escapeTerminalByte (singleQuoted : Bool) (byte : UInt8) : List UInt8 :=
  if byte == 92 then [92, 92]
  else if byte == 9 then [92, 116]
  else if byte == 10 then [92, 110]
  else if byte == 13 then [92, 114]
  else if byte == 34 && !singleQuoted then [92, 34]
  else [byte]

def quoteTerminal (bytes : List UInt8) : List UInt8 :=
  let singleQuoted := prefersSingleQuotes bytes
  let quote := if singleQuoted then 39 else 34
  quote :: bytes.flatMap (escapeTerminalByte singleQuoted) ++ [quote]

def bracketed (name : String) : String :=
  "<" ++ name ++ ">"

def Symbol.render : Symbol → String
  | .terminal bytes => Utf8.decodeString (quoteTerminal bytes)
  | .nonTerminal name => bracketed name
  | .empty => "\"\""

def Alternative.render (alternative : Alternative) : String :=
  " ".intercalate (alternative.map Symbol.render)

def Rule.render (rule : Rule) : String :=
  bracketed rule.head ++ " ::= " ++ " | ".intercalate (rule.alternatives.map Alternative.render)

def Grammar.render (grammar : Grammar) : String :=
  "\n".intercalate (grammar.rules.map Rule.render)

end Lookahead
