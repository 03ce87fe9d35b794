/-!
Why a text cannot be loaded as a grammar.
-/

namespace Lookahead

inductive LoadErrorKind
  | generation
  | parse
  | invalidRule
  | invalidEscape
  | noRules
  /-- A rule that the conversion of trees relies on has no kind. -/
  | missingBinding
deriving DecidableEq

def LoadErrorKind.message : LoadErrorKind → String
  | generation => "unable to generate bnf parser"
  | parse => "grammar text is not valid bnf"
  | invalidRule => "provided rule is invalid"
  | invalidEscape => "unknown escape sequence"
  | noRules => "grammar does not define any rules"
  | missingBinding => "bnf node kind is not bound"

structure LoadError where
  kind : LoadErrorKind
  detail : Option String := none
deriving DecidableEq

namespace LoadError

def withDetail (error : LoadError) (detail : String) : LoadError :=
  { error with detail := some detail }

def message (error : LoadError) : String :=
  match error.detail with
  | some detail => error.kind.message ++ ": " ++ detail
  | none => error.kind.message

end LoadError

end Lookahead
