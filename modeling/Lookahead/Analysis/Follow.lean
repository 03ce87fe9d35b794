import Lookahead.Analysis.First

/-!
FOLLOW sets: the bytes that can come right after what a rule stands for.  The end-of-input byte
in a FOLLOW set says that the input may end there.
-/

namespace Lookahead.Resolved

variable {n : Nat}

/-- Adds to FOLLOW of the rules in an alternative of `owner` what can come after them: what the
rest of the alternative begins with and, if that may be empty and the rule is another one, what
follows `owner`. -/
def extendFollow (first : Vector ByteSet n) (owner : Fin n) (follow : Vector ByteSet n) :
    List (ResolvedSymbol n) → Vector ByteSet n
  | [] => follow
  | .rule index :: rest =>
    let ahead := firstOf first rest
    let inherited :=
      if ahead.contains endOfInputByte ∧ index ≠ owner then follow.get owner else ∅
    let added := (ahead.erase endOfInputByte).union inherited
    extendFollow first owner (raise ByteSet.union follow index added) rest
  | .terminal _ :: rest | .endOfLine :: rest | .empty :: rest =>
    extendFollow first owner follow rest

def extendFollowBy (first follow : Vector ByteSet n)
    (production : Fin n × List (ResolvedSymbol n)) : Vector ByteSet n :=
  extendFollow first production.1 follow production.2

def followPass (grammar : Resolved n) (first follow : Vector ByteSet n) : Vector ByteSet n :=
  grammar.productions.foldl (extendFollowBy first) follow

theorem shrinks_extendFollow (first : Vector ByteSet n) (owner : Fin n)
    (symbols : List (ResolvedSymbol n)) (follow : Vector ByteSet n) :
    Shrinks (totalRoom ByteSet.room) follow (extendFollow first owner follow symbols) := by
  fun_induction extendFollow first owner follow symbols with
  | case1 => exact Or.inl rfl
  | case2 follow index rest ahead inherited added ih =>
    exact (shrinks_raise ByteSet.union ByteSet.room shrinks_union follow index added).trans ih
  | case3 follow rest bytes ih => exact ih
  | case4 follow rest ih => exact ih
  | case5 follow rest ih => exact ih

theorem shrinks_followPass (grammar : Resolved n) (first follow : Vector ByteSet n) :
    Shrinks (totalRoom ByteSet.room) follow (grammar.followPass first follow) :=
  shrinks_foldl (extendFollowBy first)
    (fun state production => shrinks_extendFollow first production.1 production.2 state) _ _

def followSeeds (n : Nat) : Vector ByteSet n :=
  Vector.ofFn fun rule => if rule.val = 0 then ByteSet.ofList [endOfInputByte] else ∅

def followSets (grammar : Resolved n) (first : Vector ByteSet n) : Vector ByteSet n :=
  untilStable (totalRoom ByteSet.room) (grammar.followPass first)
    (grammar.shrinks_followPass first) (followSeeds n)

end Lookahead.Resolved
