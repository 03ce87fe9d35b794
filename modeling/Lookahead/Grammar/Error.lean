import Lookahead.Byte.Text
import Lookahead.Grammar.Text

/-!
Why no table can be generated for a grammar.
-/

namespace Lookahead

inductive GrammarError
  | undefinedNonTerminal (name : String)
  /-- Two alternatives of a rule, or two uses of one, claim the same lookahead. -/
  | ambiguousCell (rule : String) (byte : UInt8)
  | leftRecursion (rule : String)
  | emptySequenceInAlternation (rule : String)
  | emptyAlternative (rule : String)
  | invalidTerminal (rule : String)
  | duplicateRule (rule : String)
deriving DecidableEq

def GrammarError.message : GrammarError → String
  | undefinedNonTerminal name => "rule " ++ bracketed name ++ " is referenced but never defined"
  | ambiguousCell rule byte =>
    "rule " ++ bracketed rule ++ " has more than one alternative for lookahead " ++
      describeByte byte
  | leftRecursion rule => "rule " ++ bracketed rule ++ " is left recursive"
  | emptySequenceInAlternation rule =>
    "rule " ++ bracketed rule ++ " mixes an empty symbol with other symbols in one alternative"
  | emptyAlternative rule => "rule " ++ bracketed rule ++ " has an alternative without symbols"
  | invalidTerminal rule =>
    "rule " ++ bracketed rule ++ " contains a terminal that is empty or holds the reserved byte 0"
  | duplicateRule rule => "rule " ++ bracketed rule ++ " is defined more than once"

end Lookahead
