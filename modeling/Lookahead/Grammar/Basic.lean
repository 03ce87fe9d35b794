/-!
Context-free grammars over bytes.  A grammar is an ordered list of rules and the first of them
is the start rule.
-/

namespace Lookahead

def endOfLineName : String := "EOL"

inductive Symbol
  | terminal (bytes : List UInt8)
  /-- A reference to a rule, or to the built-in line terminator. -/
  | nonTerminal (name : String)
  /-- The empty string.  It must be the only symbol of its alternative. -/
  | empty
deriving DecidableEq

namespace Symbol

def ofBytes : List UInt8 → Symbol
  | [] => empty
  | bytes => terminal bytes

def isEmpty : Symbol → Bool
  | empty => true
  | _ => false

end Symbol

abbrev Alternative := List Symbol

structure Rule where
  head : String
  alternatives : List Alternative
deriving DecidableEq

structure Grammar where
  rules : List Rule
deriving DecidableEq

namespace Grammar

def startRule? (grammar : Grammar) : Option Rule :=
  grammar.rules.head?

def rule? (grammar : Grammar) (head : String) : Option Rule :=
  grammar.rules.find? (·.head == head)

end Grammar

end Lookahead
