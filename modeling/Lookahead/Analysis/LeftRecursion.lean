import Lookahead.Analysis.Nullable

/-!
Left recursion: a rule that can be entered again before any byte is consumed.  The rules that
such an entry can lead to are walked depth first, each of them once.
-/

namespace Lookahead.Resolved

variable {n : Nat}

def leadingRules (nullable : Vector Bool n) : List (ResolvedSymbol n) → List (Fin n)
  | .rule index :: rest => index :: if nullable.get index then leadingRules nullable rest else []
  | _ => []

/-- The rules that can be entered next from a rule before any byte is consumed. -/
def leftCorners (grammar : Resolved n) (nullable : Vector Bool n) (rule : Fin n) :
    List (Fin n) :=
  (grammar.rules.get rule).flatMap (leadingRules nullable)

def outside (chain : List (Fin n)) : Nat :=
  (List.finRange n).countP fun rule => !chain.contains rule

theorem outside_cons_lt (chain : List (Fin n)) (rule : Fin n) (new : ¬ chain.contains rule) :
    outside (rule :: chain) < outside chain :=
  countP_lt_countP (List.mem_finRange rule) (by simp +contextual) (by simpa using new) (by simp)

/-- Walks a rule and all that can be entered from it.  The result is the list of the rules walked
so far, or the first rule that is met again inside its own chain. -/
def walkCorners (corners : Fin n → List (Fin n)) (chain done : List (Fin n)) (rule : Fin n) :
    Except (Fin n) (List (Fin n)) :=
  if done.contains rule then .ok done
  else if _met : chain.contains rule then .error rule
  else do
    let walked ← (corners rule).foldlM (fun done next =>
      walkCorners corners (rule :: chain) done next) done
    return rule :: walked
termination_by outside chain
decreasing_by exact outside_cons_lt chain rule _met

def checkLeftRecursion (grammar : Resolved n) (nullable : Vector Bool n) :
    Except GrammarError Unit :=
  match (List.finRange n).foldlM (walkCorners (grammar.leftCorners nullable) []) [] with
  | .error rule => .error (.leftRecursion (grammar.heads.get rule))
  | .ok _ => .ok ()

end Lookahead.Resolved
