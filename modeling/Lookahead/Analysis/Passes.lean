import Lookahead.Analysis.Follow

/-!
The loops of the analysis as one runs them in place.  A pass makes its updates one after the
other, each on what the ones before have left; an update reports whether it has changed anything,
and the passes go on for as long as one of them reports a change.
-/

namespace Lookahead

/-- A change made in place, with the report whether it has changed anything. -/
abbrev Update (σ : Type) := σ → Bool × σ

namespace Update

variable {σ α : Type} {n : Nat}

def pass : List (Update σ) → Update σ
  | [], state => (false, state)
  | update :: rest, state =>
    let updated := update state
    let later := pass rest updated.2
    (updated.1 || later.1, later.2)

/-- Repeats an update while it reports a change.  There is no end if the given number of rounds
is not enough. -/
def whileChanged (update : Update σ) : Nat → σ → Option σ
  | 0, _ => none
  | rounds + 1, state =>
    let updated := update state
    if updated.1 then whileChanged update rounds updated.2 else some updated.2

/-- The same update on a state that carries all the earlier ones, the latest first. -/
def recorded (update : Update σ) : Update (σ × List σ) := fun (state, before) =>
  let updated := update state
  (updated.1, updated.2, state :: before)

def joining [DecidableEq α] (join : α → α → α) (index : Fin n) (added : Vector α n → α) :
    Update (Vector α n) := fun values =>
  let joined := join (values.get index) (added values)
  (joined != values.get index, values.set index.val joined index.isLt)

end Update

namespace Resolved

variable {n : Nat}

def nullableUpdate (production : Fin n × List (ResolvedSymbol n)) : Update (Vector Bool n) :=
  fun nullable =>
    if nullable.get production.1 then (false, nullable)
    else if allNullable nullable production.2 then
      (true, nullable.set production.1.val true production.1.isLt)
    else (false, nullable)

def nullableUpdates (grammar : Resolved n) : List (Update (Vector Bool n)) :=
  grammar.productions.map nullableUpdate

def firstUpdate (production : Fin n × List (ResolvedSymbol n)) : Update (Vector ByteSet n) :=
  Update.joining ByteSet.union production.1 (firstOf · production.2)

def firstUpdates (grammar : Resolved n) : List (Update (Vector ByteSet n)) :=
  grammar.productions.map firstUpdate

/-- The updates for a rule in an alternative of `owner` of which `ahead` is FIRST of the rest: what
the rest begins with and, if it may be empty and the rule is another one, what follows `owner`. -/
def followUpdatesAt (ahead : ByteSet) (owner index : Fin n) : List (Update (Vector ByteSet n)) :=
  let begun := Update.joining ByteSet.union index fun _ => ahead.erase endOfInputByte
  if ahead.contains endOfInputByte ∧ index ≠ owner then
    [begun, Update.joining ByteSet.union index fun follow => follow.get owner]
  else [begun]

def followUpdatesOf (first : Vector ByteSet n) (owner : Fin n) :
    List (ResolvedSymbol n) → List (Update (Vector ByteSet n))
  | [] => []
  | .rule index :: rest =>
    followUpdatesAt (firstOf first rest) owner index ++ followUpdatesOf first owner rest
  | .terminal _ :: rest | .endOfLine :: rest | .empty :: rest => followUpdatesOf first owner rest

def followUpdates (grammar : Resolved n) (first : Vector ByteSet n) :
    List (Update (Vector ByteSet n)) :=
  grammar.productions.flatMap fun production => followUpdatesOf first production.1 production.2

end Resolved

end Lookahead
