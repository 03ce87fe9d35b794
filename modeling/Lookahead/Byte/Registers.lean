import Lookahead.Byte.Set

/-!
A store of named byte sets and the operations on it.  `run` performs a sequence of operations
and records what each of them reports.
-/

namespace Lookahead.ByteSet

/-- The set held under each name; a name that was never written holds the empty set. -/
abbrev Registers := String → ByteSet

def Registers.write (registers : Registers) (target : String) (set : ByteSet) : Registers :=
  fun name => if name = target then set else registers name

inductive Operation
  | collect (target : String) (bytes : List UInt8)
  | add (target : String) (byte : UInt8)
  | remove (target : String) (byte : UInt8)
  | contains (source : String) (byte : UInt8)
  | union (target left right : String)
  | unionWith (target source : String)
  | without (target source : String) (byte : UInt8)
  | isSuperset (left right : String)
  | equal (left right : String)
  | isEmpty (source : String)
  | size (source : String)
  | members (source : String)

inductive Observation
  | flag (value : Bool)
  | number (value : Nat)
  | members (bytes : List UInt8)
  | grown (changed : Bool) (bytes : List UInt8)
deriving DecidableEq

/-- Performs one operation.  Adding reports whether the byte was absent, removing whether it was
present. -/
def Operation.perform (registers : Registers) : Operation → Observation × Registers
  | collect target bytes =>
    let set := ofList bytes
    (.members set.toList, registers.write target set)
  | add target byte =>
    let set := registers target
    (.flag !(set.contains byte), registers.write target (set.insert byte))
  | remove target byte =>
    let set := registers target
    (.flag (set.contains byte), registers.write target (set.erase byte))
  | contains source byte => (.flag ((registers source).contains byte), registers)
  | union target left right =>
    let set := registers left ∪ registers right
    (.members set.toList, registers.write target set)
  | unionWith target source =>
    let old := registers target
    let set := old ∪ registers source
    (.grown (set != old) set.toList, registers.write target set)
  | without target source byte =>
    let set := (registers source).erase byte
    (.members set.toList, registers.write target set)
  | isSuperset left right => (.flag ((registers left).isSuperset (registers right)), registers)
  | equal left right => (.flag (registers left == registers right), registers)
  | isEmpty source => (.flag (registers source).isEmpty, registers)
  | size source => (.number (registers source).size, registers)
  | members source => (.members (registers source).toList, registers)

def Registers.run (registers : Registers) : List Operation → List Observation
  | [] => []
  | operation :: rest =>
    let (observation, next) := operation.perform registers
    observation :: next.run rest

end Lookahead.ByteSet
