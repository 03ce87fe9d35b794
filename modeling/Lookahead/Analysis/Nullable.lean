import Lookahead.Analysis.Stable
import Lookahead.Grammar.Resolved

/-!
Which rules can stand for the empty string.
-/

namespace Lookahead.Resolved

variable {n : Nat}

def allNullable (nullable : Vector Bool n) (symbols : List (ResolvedSymbol n)) : Bool :=
  symbols.all fun
    | .empty => true
    | .rule index => nullable.get index
    | .terminal _ | .endOfLine => false

def markNullable (nullable : Vector Bool n) (production : Fin n × List (ResolvedSymbol n)) :
    Vector Bool n :=
  raise or nullable production.1 (allNullable nullable production.2)

def nullablePass (grammar : Resolved n) (nullable : Vector Bool n) : Vector Bool n :=
  grammar.productions.foldl markNullable nullable

def markRoom (marked : Bool) : Nat :=
  if marked then 0 else 1

theorem shrinks_nullablePass (grammar : Resolved n) (nullable : Vector Bool n) :
    Shrinks (totalRoom markRoom) nullable (grammar.nullablePass nullable) :=
  shrinks_foldl markNullable (fun state production => shrinks_raise or markRoom
    (by intro value added; cases value <;> cases added <;> simp [Shrinks, markRoom])
    state production.1 _) _ _

def nullableRules (grammar : Resolved n) : Vector Bool n :=
  untilStable (totalRoom markRoom) grammar.nullablePass grammar.shrinks_nullablePass
    (Vector.replicate n false)

end Lookahead.Resolved
