import Lookahead.Byte.Set

/-!
Sets of byte values in four machine words.  A byte has its bit in the word that its two upper bits
select.  The members are handed out by an iterator that clears the bits that it has passed.
-/

namespace Lookahead

structure Words where
  words : Vector (BitVec 64) 4
deriving DecidableEq

namespace Words

def empty : Words :=
  ⟨Vector.replicate 4 0#64⟩

/-- The place of the word that holds the bit of a byte, and the mask of the bit in that word. -/
def locate (byte : UInt8) : Fin 4 × BitVec 64 :=
  (⟨byte.toNat / 64, Nat.div_lt_of_lt_mul byte.toNat_lt⟩, 1#64 <<< (byte.toNat % 64))

def add (set : Words) (byte : UInt8) : Bool × Words :=
  let (place, mask) := locate byte
  let word := set.words[place]
  (word &&& mask == 0#64, ⟨set.words.set place (word ||| mask)⟩)

def remove (set : Words) (byte : UInt8) : Bool × Words :=
  let (place, mask) := locate byte
  let word := set.words[place]
  (word &&& mask != 0#64, ⟨set.words.set place (word &&& ~~~ mask)⟩)

def contains (set : Words) (byte : UInt8) : Bool :=
  let (place, mask) := locate byte
  set.words[place] &&& mask != 0#64

def union (left right : Words) : Words :=
  ⟨left.words.zipWith (· ||| ·) right.words⟩

def unionWith (set other : Words) : Bool × Words :=
  let joined := set.union other
  ((set.words.zip joined.words).any fun (old, new) => old != new, joined)

def without (set : Words) (byte : UInt8) : Words :=
  (set.remove byte).2

def isSuperset (set other : Words) : Bool :=
  (set.words.zip other.words).all fun (word, other) => word &&& other == other

def isEmpty (set : Words) : Bool :=
  set.words.all (· == 0#64)

def size (set : Words) : Nat :=
  set.words.foldl (fun count word => count + word.cpop.toNat) 0

def ofList (bytes : List UInt8) : Words :=
  bytes.foldl (fun set byte => (set.add byte).2) empty

/-- The words with the bits that are still to be handed out, and the place of the current one. -/
structure Bytes where
  words : Vector (BitVec 64) 4
  place : Nat

def bytes (set : Words) : Bytes :=
  ⟨set.words, 0⟩

def Bytes.next (state : Bytes) : Option UInt8 × Bytes :=
  if bound : state.place < 4 then
    let word := state.words[state.place]
    if word = 0#64 then
      { state with place := state.place + 1 }.next
    else
      (some (UInt8.ofNat (state.place * 64 + word.ctz.toNat)),
        { state with words := state.words.set state.place (word &&& (word - 1#64)) })
  else (none, state)
termination_by 4 - state.place

end Words

end Lookahead
