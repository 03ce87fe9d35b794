import Lookahead.Bnf.Error
import Lookahead.Engine.Error
import Lookahead.Grammar.Error

/-!
All errors of the library together, told apart by the activity that failed.
-/

namespace Lookahead

inductive Error
  | grammar (error : GrammarError)
  | load (error : LoadError)
  | table (error : TableError)
  | parse (error : ParseError)
  | input (reason : String)
deriving DecidableEq

namespace Error

def message : Error → String
  | grammar error => "grammar error: " ++ error.message
  | load error => "grammar load error: " ++ error.message
  | table error => "table error: " ++ error.message
  | parse error => "parse error: " ++ error.message
  | input reason => "input error: " ++ reason

def position? : Error → Option Nat
  | parse error => some error.position
  | _ => none

end Error

end Lookahead
