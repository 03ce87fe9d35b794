import Lookahead.Analysis.Follow
import Lookahead.Analysis.LeftRecursion
import Lookahead.Byte.Text

/-!
The analysis of a grammar: its resolved form with FIRST and FOLLOW of every rule.
-/

namespace Lookahead

structure Analysis (n : Nat) where
  grammar : Resolved n
  first : Vector ByteSet n
  follow : Vector ByteSet n

def Grammar.analyze (grammar : Grammar) :
    Except GrammarError (Analysis grammar.rules.length) := do
  let resolved ← grammar.resolve
  let nullable := resolved.nullableRules
  resolved.checkLeftRecursion nullable
  let first := resolved.firstSets nullable
  return { grammar := resolved, first, follow := resolved.followSets first }

namespace Analysis

variable {n : Nat}

def ruleNamed? (analysis : Analysis n) (head : String) : Option (Fin n) :=
  (List.finRange n).find? fun rule => analysis.grammar.heads.get rule == head

def setsNamed? (analysis : Analysis n) (head : String) : Option (ByteSet × ByteSet) :=
  (analysis.ruleNamed? head).map fun rule => (analysis.first.get rule, analysis.follow.get rule)

def sets? (analysis : Analysis n) (rule : Nat) : Option (ByteSet × ByteSet) :=
  if bound : rule < n then
    some (analysis.first.get ⟨rule, bound⟩, analysis.follow.get ⟨rule, bound⟩)
  else none

def display (analysis : Analysis n) : String :=
  "\n".intercalate <| (List.finRange n).map fun rule =>
    bracketed (analysis.grammar.heads.get rule) ++ ": FIRST " ++
      (analysis.first.get rule).display ++ " FOLLOW " ++ (analysis.follow.get rule).display

end Analysis

end Lookahead
