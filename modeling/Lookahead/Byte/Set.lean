import Lookahead.Counting

/-!
Sets of byte values, kept as a bitmap with one bit per byte.  Every operation is pinned by what
it does to membership; `toList` lists the members in ascending order.
-/

namespace Lookahead

/-- The reserved byte.  It stands for the end of the input as a lookahead, and for the empty
string inside a FIRST set, so no terminal and no parsed input may hold it. -/
def endOfInputByte : UInt8 := 0

structure ByteSet where
  bits : BitVec 256
deriving DecidableEq

namespace ByteSet

def allBytes : List UInt8 :=
  (List.range 256).map UInt8.ofNat

theorem mem_allBytes (byte : UInt8) : byte ∈ allBytes := by
  simp only [allBytes, List.mem_map, List.mem_range]
  exact ⟨byte.toNat, byte.toNat_lt, UInt8.ofNat_toNat⟩

def empty : ByteSet :=
  ⟨0#256⟩

instance : EmptyCollection ByteSet := ⟨empty⟩

instance : Inhabited ByteSet := ⟨empty⟩

def contains (set : ByteSet) (byte : UInt8) : Bool :=
  set.bits.getLsbD byte.toNat

instance : Membership UInt8 ByteSet := ⟨fun set byte => set.contains byte = true⟩

instance (set : ByteSet) (byte : UInt8) : Decidable (byte ∈ set) :=
  inferInstanceAs (Decidable (set.contains byte = true))

def insert (set : ByteSet) (byte : UInt8) : ByteSet :=
  ⟨set.bits ||| BitVec.twoPow 256 byte.toNat⟩

def erase (set : ByteSet) (byte : UInt8) : ByteSet :=
  ⟨set.bits &&& ~~~ BitVec.twoPow 256 byte.toNat⟩

def union (left right : ByteSet) : ByteSet :=
  ⟨left.bits ||| right.bits⟩

instance : Union ByteSet := ⟨union⟩

def ofList (bytes : List UInt8) : ByteSet :=
  bytes.foldl insert empty

def toList (set : ByteSet) : List UInt8 :=
  allBytes.filter set.contains

def size (set : ByteSet) : Nat :=
  set.toList.length

def isEmpty (set : ByteSet) : Bool :=
  set.bits == 0#256

def isSuperset (set other : ByteSet) : Bool :=
  set.bits &&& other.bits == other.bits

@[simp] theorem mem_def (set : ByteSet) (byte : UInt8) :
    byte ∈ set ↔ set.contains byte = true := Iff.rfl

@[simp] theorem contains_empty (byte : UInt8) : (∅ : ByteSet).contains byte = false := by
  change (0#256).getLsbD byte.toNat = false
  simp

@[simp] theorem contains_insert (set : ByteSet) (added byte : UInt8) :
    (set.insert added).contains byte = (set.contains byte || added == byte) := by
  simp only [contains, insert, BitVec.getLsbD_or, BitVec.getLsbD_twoPow]
  congr 1
  rw [Bool.eq_iff_iff]
  simp only [Bool.and_eq_true, decide_eq_true_eq, UInt8.toNat_inj, beq_iff_eq]
  exact ⟨fun both => both.2, fun same => ⟨added.toNat_lt, same⟩⟩

@[simp] theorem contains_erase (set : ByteSet) (removed byte : UInt8) :
    (set.erase removed).contains byte = (set.contains byte && !(removed == byte)) := by
  have bound : byte.toNat < 256 := byte.toNat_lt
  simp only [contains, erase, BitVec.getLsbD_and, BitVec.getLsbD_not, BitVec.getLsbD_twoPow,
    bound, decide_true, Bool.true_and]
  congr 2
  rw [Bool.eq_iff_iff]
  simp only [Bool.and_eq_true, decide_eq_true_eq, UInt8.toNat_inj, beq_iff_eq]
  exact ⟨fun both => both.2, fun same => ⟨removed.toNat_lt, same⟩⟩

@[simp] theorem contains_union (left right : ByteSet) (byte : UInt8) :
    (left ∪ right).contains byte = (left.contains byte || right.contains byte) := by
  change (left.bits ||| right.bits).getLsbD byte.toNat = _
  simp [contains]

theorem ext_contains {left right : ByteSet}
    (same : ∀ byte, left.contains byte = right.contains byte) : left = right := by
  rcases left with ⟨leftBits⟩
  rcases right with ⟨rightBits⟩
  congr 1
  apply BitVec.eq_of_getLsbD_eq
  intro index bound
  have here := same (UInt8.ofNat index)
  simp only [contains, UInt8.toNat_ofNat_of_lt' (show index < UInt8.size from bound)] at here
  exact here

theorem contains_ofList (bytes : List UInt8) (byte : UInt8) :
    (ofList bytes).contains byte = bytes.contains byte := by
  have collected (members : List UInt8) (set : ByteSet) :
      (members.foldl insert set).contains byte = (set.contains byte || members.contains byte) := by
    induction members generalizing set with
    | nil => simp
    | cons head tail ih =>
      rw [List.foldl_cons, ih, contains_insert, List.contains_cons, Bool.or_assoc]
      congr 2
      exact Bool.beq_comm
  have start : (empty : ByteSet).contains byte = false := contains_empty byte
  rw [ofList, collected, start, Bool.false_or]

@[simp] theorem mem_toList (set : ByteSet) (byte : UInt8) :
    byte ∈ set.toList ↔ set.contains byte = true := by
  simp [toList, mem_allBytes]

theorem allBytes_ascending : allBytes.Pairwise (· < ·) := by
  rw [allBytes, List.pairwise_map]
  refine List.Pairwise.imp_of_mem ?_ List.pairwise_lt_range
  intro left right leftBound rightBound less
  rw [List.mem_range] at leftBound rightBound
  rw [UInt8.lt_iff_toNat_lt, UInt8.toNat_ofNat_of_lt' leftBound,
    UInt8.toNat_ofNat_of_lt' rightBound]
  exact less

theorem toList_ascending (set : ByteSet) : set.toList.Pairwise (· < ·) :=
  allBytes_ascending.filter _

theorem isEmpty_iff (set : ByteSet) :
    set.isEmpty = true ↔ ∀ byte, set.contains byte = false := by
  constructor
  · intro isEmpty byte
    have bits : set.bits = 0#256 := by simpa [ByteSet.isEmpty] using isEmpty
    simp [contains, bits]
  · intro absent
    have same : set = empty :=
      ext_contains fun byte => (absent byte).trans (contains_empty byte).symm
    rw [same]
    rfl

theorem isSuperset_iff (set other : ByteSet) :
    set.isSuperset other = true ↔
      ∀ byte, other.contains byte = true → set.contains byte = true := by
  constructor
  · intro superset byte member
    have bits : set.bits &&& other.bits = other.bits := by simpa [isSuperset] using superset
    have both : (set.bits &&& other.bits).getLsbD byte.toNat = true := by rw [bits]; exact member
    rw [BitVec.getLsbD_and, Bool.and_eq_true] at both
    exact both.1
  · intro included
    have same : (⟨set.bits &&& other.bits⟩ : ByteSet) = other := by
      apply ext_contains
      intro byte
      have here := included byte
      simp only [contains] at *
      rw [BitVec.getLsbD_and]
      cases h : other.bits.getLsbD byte.toNat <;> simp_all
    have bits := congrArg ByteSet.bits same
    simpa [isSuperset] using bits

def room (set : ByteSet) : Nat :=
  allBytes.countP fun byte => !set.contains byte

theorem room_union_lt {left right : ByteSet} (grew : left ∪ right ≠ left) :
    (left ∪ right).room < left.room := by
  obtain ⟨byte, different⟩ : ∃ byte, (left ∪ right).contains byte ≠ left.contains byte := by
    false_or_by_contra
    rename_i none
    exact grew (ext_contains fun byte => Classical.byContradiction fun h => none ⟨byte, h⟩)
  rw [contains_union] at different
  have absent : left.contains byte = false := by
    cases h : left.contains byte <;> simp_all
  have present : right.contains byte = true := by
    cases h : right.contains byte <;> simp_all
  exact countP_lt_countP (mem_allBytes byte) (by simp +contextual) (by simp [absent])
    (by simp [present])

end ByteSet

end Lookahead
