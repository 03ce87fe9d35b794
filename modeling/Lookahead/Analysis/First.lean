import Lookahead.Analysis.Nullable
import Lookahead.Byte.Set

/-!
FIRST sets: the bytes that can begin what a rule stands for.  The end-of-input byte in a FIRST
set says that the empty string is among it.
-/

namespace Lookahead

def endOfLineFirst : ByteSet :=
  ByteSet.ofList [10, 13]

namespace Resolved

variable {n : Nat}

/-- FIRST of a sequence of symbols, given those of the rules. -/
def firstOf (first : Vector ByteSet n) : List (ResolvedSymbol n) → ByteSet
  | [] => ByteSet.ofList [endOfInputByte]
  | .terminal bytes :: _ => ByteSet.ofList (bytes.take 1)
  | .endOfLine :: _ => endOfLineFirst
  | .empty :: _ => ByteSet.ofList [endOfInputByte]
  | .rule index :: rest =>
    let own := (first.get index).erase endOfInputByte
    if (first.get index).contains endOfInputByte then own ∪ firstOf first rest else own

def extendFirst (first : Vector ByteSet n) (production : Fin n × List (ResolvedSymbol n)) :
    Vector ByteSet n :=
  raise ByteSet.union first production.1 (firstOf first production.2)

def firstPass (grammar : Resolved n) (first : Vector ByteSet n) : Vector ByteSet n :=
  grammar.productions.foldl extendFirst first

theorem shrinks_union (set added : ByteSet) : Shrinks ByteSet.room set (set.union added) := by
  by_cases same : set.union added = set
  · exact Or.inl same
  · exact Or.inr (ByteSet.room_union_lt same)

theorem shrinks_firstPass (grammar : Resolved n) (first : Vector ByteSet n) :
    Shrinks (totalRoom ByteSet.room) first (grammar.firstPass first) :=
  shrinks_foldl extendFirst (fun state production =>
    shrinks_raise ByteSet.union ByteSet.room shrinks_union state production.1 _) _ _

def firstSeeds (nullable : Vector Bool n) : Vector ByteSet n :=
  nullable.map fun marked => if marked then ByteSet.ofList [endOfInputByte] else ∅

def firstSets (grammar : Resolved n) (nullable : Vector Bool n) : Vector ByteSet n :=
  untilStable (totalRoom ByteSet.room) grammar.firstPass grammar.shrinks_firstPass
    (firstSeeds nullable)

end Resolved

end Lookahead
