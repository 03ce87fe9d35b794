import Lookahead.Byte.Registers
import Lookahead.Proofs.Words
import Mathlib.Data.Finset.Sort
import Mathlib.Data.Fintype.Basic

/-!
Sets of bytes are sets of numbers below 256.  Whatever represents the sets, what is observed of
them is settled by membership; so a bitmap and four machine words with an iterator make the same
observations as finite sets do, in every sequence of operations on named sets.
-/

namespace Lookahead.ByteSet

/-- What can be done with sets of bytes in some representation.  What changes a set returns the
changed one after its report. -/
structure Representation (σ : Type) where
  collect : List UInt8 → σ
  add : σ → UInt8 → Bool × σ
  remove : σ → UInt8 → Bool × σ
  contains : σ → UInt8 → Bool
  union : σ → σ → σ
  unionWith : σ → σ → Bool × σ
  without : σ → UInt8 → σ
  isSuperset : σ → σ → Bool
  equal : σ → σ → Bool
  isEmpty : σ → Bool
  size : σ → Nat
  members : σ → List UInt8

namespace Representation

variable {σ τ : Type}

def write (store : String → σ) (target : String) (set : σ) : String → σ :=
  fun name => if name = target then set else store name

def perform (representation : Representation σ) (store : String → σ) :
    Operation → Observation × (String → σ)
  | .collect target bytes =>
    let set := representation.collect bytes
    (.members (representation.members set), write store target set)
  | .add target byte =>
    let (absent, set) := representation.add (store target) byte
    (.flag absent, write store target set)
  | .remove target byte =>
    let (present, set) := representation.remove (store target) byte
    (.flag present, write store target set)
  | .contains source byte => (.flag (representation.contains (store source) byte), store)
  | .union target left right =>
    let set := representation.union (store left) (store right)
    (.members (representation.members set), write store target set)
  | .unionWith target source =>
    let (changed, set) := representation.unionWith (store target) (store source)
    (.grown changed (representation.members set), write store target set)
  | .without target source byte =>
    let set := representation.without (store source) byte
    (.members (representation.members set), write store target set)
  | .isSuperset left right =>
    (.flag (representation.isSuperset (store left) (store right)), store)
  | .equal left right => (.flag (representation.equal (store left) (store right)), store)
  | .isEmpty source => (.flag (representation.isEmpty (store source)), store)
  | .size source => (.number (representation.size (store source)), store)
  | .members source => (.members (representation.members (store source)), store)

def run (representation : Representation σ) (store : String → σ) :
    List Operation → List Observation
  | [] => []
  | operation :: rest =>
    let performed := representation.perform store operation
    performed.1 :: representation.run performed.2 rest

def bitmap : Representation ByteSet where
  collect := ofList
  add set byte := (!set.contains byte, set.insert byte)
  remove set byte := (set.contains byte, set.erase byte)
  contains := ByteSet.contains
  union left right := left ∪ right
  unionWith set other := (set ∪ other != set, set ∪ other)
  without := ByteSet.erase
  isSuperset := ByteSet.isSuperset
  equal left right := left == right
  isEmpty := ByteSet.isEmpty
  size := ByteSet.size
  members := toList

def words : Representation Words where
  collect := Words.ofList
  add := Words.add
  remove := Words.remove
  contains := Words.contains
  union := Words.union
  unionWith := Words.unionWith
  without := Words.without
  isSuperset := Words.isSuperset
  equal left right := left == right
  isEmpty := Words.isEmpty
  size := Words.size
  members set := set.bytes.collect

def numbers : Representation (Finset (Fin 256)) where
  collect bytes := (bytes.map UInt8.toFin).toFinset
  add set byte := (decide (byte.toFin ∉ set), Insert.insert byte.toFin set)
  remove set byte := (decide (byte.toFin ∈ set), set.erase byte.toFin)
  contains set byte := decide (byte.toFin ∈ set)
  union left right := left ∪ right
  unionWith set other := (decide (set ⊂ set ∪ other), set ∪ other)
  without set byte := set.erase byte.toFin
  isSuperset set other := decide (other ⊆ set)
  equal left right := decide (left = right)
  isEmpty set := decide (set = ∅)
  size := Finset.card
  members set := (set.sort (· ≤ ·)).map UInt8.ofFin

/-- Everything that is reported is settled by which bytes the sets contain. -/
structure Lawful (representation : Representation σ) : Prop where
  contains_collect : ∀ bytes byte,
    representation.contains (representation.collect bytes) byte = bytes.contains byte
  fst_add : ∀ set byte, (representation.add set byte).1 = !representation.contains set byte
  contains_add : ∀ set added byte, representation.contains (representation.add set added).2 byte =
    (representation.contains set byte || added == byte)
  fst_remove : ∀ set byte, (representation.remove set byte).1 = representation.contains set byte
  contains_remove : ∀ set removed byte,
    representation.contains (representation.remove set removed).2 byte =
      (representation.contains set byte && !(removed == byte))
  contains_union : ∀ left right byte,
    representation.contains (representation.union left right) byte =
      (representation.contains left byte || representation.contains right byte)
  fst_unionWith : ∀ set other, (representation.unionWith set other).1 = false ↔
    ∀ byte, representation.contains other byte = true → representation.contains set byte = true
  contains_unionWith : ∀ set other byte,
    representation.contains (representation.unionWith set other).2 byte =
      (representation.contains set byte || representation.contains other byte)
  contains_without : ∀ set removed byte,
    representation.contains (representation.without set removed) byte =
      (representation.contains set byte && !(removed == byte))
  isSuperset_iff : ∀ set other, representation.isSuperset set other = true ↔
    ∀ byte, representation.contains other byte = true → representation.contains set byte = true
  equal_iff : ∀ left right, representation.equal left right = true ↔
    ∀ byte, representation.contains left byte = representation.contains right byte
  isEmpty_iff : ∀ set, representation.isEmpty set = true ↔
    ∀ byte, representation.contains set byte = false
  mem_members : ∀ set byte,
    byte ∈ representation.members set ↔ representation.contains set byte = true
  members_ascending : ∀ set, (representation.members set).Pairwise (· < ·)
  size_eq : ∀ set, representation.size set = (representation.members set).length

/-! ### Lawful representations are alike -/

section Alike

variable {left : Representation σ} {right : Representation τ}

def Alike (left : Representation σ) (right : Representation τ) (set : σ) (other : τ) : Prop :=
  ∀ byte, left.contains set byte = right.contains other byte

variable (leftLawful : left.Lawful) (rightLawful : right.Lawful)
include leftLawful rightLawful

theorem Alike.members_eq {set : σ} {other : τ} (alike : Alike left right set other) :
    left.members set = right.members other := by
  -- Ascending lists are settled by what is in them.
  refine (leftLawful.members_ascending set).eq_of_mem_iff (rightLawful.members_ascending other) ?_
  intro byte
  rw [leftLawful.mem_members, rightLawful.mem_members, alike]

theorem perform_alike {store : String → σ} {other : String → τ}
    (alike : ∀ name, Alike left right (store name) (other name)) (operation : Operation) :
    (left.perform store operation).1 = (right.perform other operation).1 ∧
      ∀ name, Alike left right ((left.perform store operation).2 name)
        ((right.perform other operation).2 name) := by
  have written {target : String} {set : σ} {copy : τ} (same : Alike left right set copy)
      (name : String) :
      Alike left right (write store target set name) (write other target copy name) := by
    by_cases here : name = target
    · simpa [write, here] using same
    · simpa [write, here] using alike name
  cases operation with
  | collect target bytes =>
      have same : Alike left right (left.collect bytes) (right.collect bytes) := fun byte => by
        rw [leftLawful.contains_collect, rightLawful.contains_collect]
      exact ⟨congrArg Observation.members (same.members_eq leftLawful rightLawful), written same⟩
  | add target byte =>
      refine ⟨congrArg Observation.flag ?_, written fun member => ?_⟩
      · rw [leftLawful.fst_add, rightLawful.fst_add, alike]
      · rw [leftLawful.contains_add, rightLawful.contains_add, alike]
  | remove target byte =>
      refine ⟨congrArg Observation.flag ?_, written fun member => ?_⟩
      · rw [leftLawful.fst_remove, rightLawful.fst_remove, alike]
      · rw [leftLawful.contains_remove, rightLawful.contains_remove, alike]
  | contains source byte => exact ⟨congrArg Observation.flag (alike source byte), alike⟩
  | union target first second =>
      have same : Alike left right (left.union (store first) (store second))
          (right.union (other first) (other second)) := fun byte => by
        rw [leftLawful.contains_union, rightLawful.contains_union, alike, alike]
      exact ⟨congrArg Observation.members (same.members_eq leftLawful rightLawful), written same⟩
  | unionWith target source =>
      have same : Alike left right (left.unionWith (store target) (store source)).2
          (right.unionWith (other target) (other source)).2 := fun byte => by
        rw [leftLawful.contains_unionWith, rightLawful.contains_unionWith, alike, alike]
      refine ⟨congrArg₂ Observation.grown ?_ (same.members_eq leftLawful rightLawful), written same⟩
      rw [← Bool.not_inj_iff, Bool.eq_iff_iff, Bool.not_eq_true', Bool.not_eq_true',
        leftLawful.fst_unionWith, rightLawful.fst_unionWith]
      simp only [alike _ _]
  | without target source byte =>
      have same : Alike left right (left.without (store source) byte)
          (right.without (other source) byte) := fun member => by
        rw [leftLawful.contains_without, rightLawful.contains_without, alike]
      exact ⟨congrArg Observation.members (same.members_eq leftLawful rightLawful), written same⟩
  | isSuperset first second =>
      refine ⟨congrArg Observation.flag (Bool.eq_iff_iff.mpr ?_), alike⟩
      rw [leftLawful.isSuperset_iff, rightLawful.isSuperset_iff]
      simp only [alike _ _]
  | equal first second =>
      refine ⟨congrArg Observation.flag (Bool.eq_iff_iff.mpr ?_), alike⟩
      rw [leftLawful.equal_iff, rightLawful.equal_iff]
      simp only [alike _ _]
  | isEmpty source =>
      refine ⟨congrArg Observation.flag (Bool.eq_iff_iff.mpr ?_), alike⟩
      rw [leftLawful.isEmpty_iff, rightLawful.isEmpty_iff]
      simp only [alike _ _]
  | size source =>
      refine ⟨congrArg Observation.number ?_, alike⟩
      rw [leftLawful.size_eq, rightLawful.size_eq,
        (alike source).members_eq leftLawful rightLawful]
  | members source =>
      exact ⟨congrArg Observation.members ((alike source).members_eq leftLawful rightLawful), alike⟩

theorem run_alike {store : String → σ} {other : String → τ}
    (alike : ∀ name, Alike left right (store name) (other name)) (operations : List Operation) :
    left.run store operations = right.run other operations := by
  induction operations generalizing store other with
  | nil => rfl
  | cons operation rest ih =>
      obtain ⟨same, next⟩ := perform_alike leftLawful rightLawful alike operation
      rw [run, run, same, ih next]

end Alike

/-! ### The bitmap, the words and the finite sets are lawful -/

theorem eq_iff_contains {left right : ByteSet} :
    left = right ↔ ∀ byte, left.contains byte = right.contains byte :=
  ⟨fun same _ => same ▸ rfl, ext_contains⟩

theorem union_eq_left_iff {left right : ByteSet} :
    left ∪ right = left ↔ ∀ byte, right.contains byte = true → left.contains byte = true := by
  rw [eq_iff_contains]
  refine forall_congr' fun byte => ?_
  rw [ByteSet.contains_union]
  cases left.contains byte <;> cases right.contains byte <;> decide

theorem lawful_bitmap : bitmap.Lawful where
  contains_collect := contains_ofList
  fst_add _ _ := rfl
  contains_add := contains_insert
  fst_remove _ _ := rfl
  contains_remove := contains_erase
  contains_union := ByteSet.contains_union
  fst_unionWith _ _ := bne_eq_false_iff_eq.trans union_eq_left_iff
  contains_unionWith := ByteSet.contains_union
  contains_without := contains_erase
  isSuperset_iff := ByteSet.isSuperset_iff
  equal_iff _ _ := beq_iff_eq.trans eq_iff_contains
  isEmpty_iff := ByteSet.isEmpty_iff
  mem_members := mem_toList
  members_ascending := toList_ascending
  size_eq _ := rfl

theorem lawful_words : words.Lawful where
  contains_collect := Words.contains_ofList
  fst_add := Words.fst_add
  contains_add := Words.contains_add
  fst_remove := Words.fst_remove
  contains_remove := Words.contains_remove
  contains_union := Words.contains_union
  fst_unionWith := Words.fst_unionWith_eq_false_iff
  contains_unionWith := Words.contains_union
  contains_without := Words.contains_remove
  isSuperset_iff := Words.isSuperset_iff
  equal_iff _ _ := beq_iff_eq.trans Words.eq_iff
  isEmpty_iff := Words.isEmpty_iff
  mem_members set byte := by simp [words, Words.collect_bytes, mem_allBytes]
  members_ascending set := by
    simp only [words, Words.collect_bytes]
    exact allBytes_ascending.filter _
  size_eq set := by
    simp only [words, Words.collect_bytes, Words.size_eq_countP, List.countP_eq_length_filter]

theorem forall_number_iff {P : Fin 256 → Prop} :
    (∀ number, P number) ↔ ∀ byte : UInt8, P byte.toFin :=
  ⟨fun all byte => all byte.toFin, fun all number => all (UInt8.ofFin number)⟩

theorem contains_numbers {set : Finset (Fin 256)} {byte : UInt8} :
    numbers.contains set byte = true ↔ byte.toFin ∈ set :=
  decide_eq_true_iff

theorem contains_erase_numbers (set : Finset (Fin 256)) (removed byte : UInt8) :
    numbers.contains (set.erase removed.toFin) byte =
      (numbers.contains set byte && !(removed == byte)) := by
  rw [Bool.eq_iff_iff, Bool.and_eq_true, contains_numbers, contains_numbers, Finset.mem_erase, Ne,
    UInt8.toFin_inj, and_comm, Bool.not_eq_true', beq_eq_false_iff_ne, ne_eq, @eq_comm _ byte]

theorem contains_union_numbers (left right : Finset (Fin 256)) (byte : UInt8) :
    numbers.contains (left ∪ right) byte =
      (numbers.contains left byte || numbers.contains right byte) := by
  rw [Bool.eq_iff_iff, Bool.or_eq_true, contains_numbers, contains_numbers, contains_numbers]
  exact Finset.mem_union

theorem lawful_numbers : numbers.Lawful where
  contains_collect bytes byte := by
    rw [Bool.eq_iff_iff, contains_numbers]
    simp [numbers, UInt8.toFin_inj]
  fst_add set byte := by simp [numbers]
  contains_add set added byte := by
    rw [Bool.eq_iff_iff, Bool.or_eq_true, contains_numbers, contains_numbers, beq_iff_eq]
    show byte.toFin ∈ Insert.insert added.toFin set ↔ _
    rw [Finset.mem_insert, UInt8.toFin_inj, or_comm, @eq_comm _ byte]
  fst_remove _ _ := rfl
  contains_remove := contains_erase_numbers
  contains_union := contains_union_numbers
  fst_unionWith set other := by
    simp only [contains_numbers]
    rw [← @forall_number_iff fun number => number ∈ other → number ∈ set]
    show decide (set ⊂ set ∪ other) = false ↔ other ⊆ set
    rw [decide_eq_false_iff_not, Finset.ssubset_iff_subset_ne]
    simp [Finset.subset_union_left]
  contains_unionWith := contains_union_numbers
  contains_without := contains_erase_numbers
  isSuperset_iff set other := by
    simp only [contains_numbers]
    rw [← @forall_number_iff fun number => number ∈ other → number ∈ set]
    exact decide_eq_true_iff
  equal_iff left right := by
    have same (byte : UInt8) : numbers.contains left byte = numbers.contains right byte ↔
        (byte.toFin ∈ left ↔ byte.toFin ∈ right) := by
      rw [Bool.eq_iff_iff, contains_numbers, contains_numbers]
    simp only [same]
    rw [← @forall_number_iff fun number => number ∈ left ↔ number ∈ right, ← Finset.ext_iff]
    exact decide_eq_true_iff
  isEmpty_iff set := by
    simp only [← Bool.not_eq_true, contains_numbers]
    rw [← @forall_number_iff fun number => number ∉ set, ← Finset.eq_empty_iff_forall_notMem]
    exact decide_eq_true_iff
  mem_members set byte := by
    rw [contains_numbers]
    show byte ∈ (set.sort (· ≤ ·)).map UInt8.ofFin ↔ _
    rw [List.mem_map]
    constructor
    · rintro ⟨number, member, rfl⟩
      exact (Finset.mem_sort _).mp member
    · intro member
      exact ⟨byte.toFin, (Finset.mem_sort _).mpr member, rfl⟩
  members_ascending set := by
    show ((set.sort (· ≤ ·)).map UInt8.ofFin).Pairwise (· < ·)
    rw [List.pairwise_map]
    exact set.sortedLT_sort.pairwise
  size_eq set := by simp [numbers]

def toNumbers (representation : Representation σ) (set : σ) : Finset (Fin 256) :=
  Finset.univ.filter fun number => representation.contains set (UInt8.ofFin number) = true

theorem Lawful.run_eq_run_numbers {representation : Representation σ}
    (lawful : representation.Lawful) (store : String → σ) (operations : List Operation) :
    representation.run store operations =
      numbers.run (fun name => representation.toNumbers (store name)) operations := by
  refine run_alike lawful lawful_numbers (fun name byte => ?_) operations
  rw [Bool.eq_iff_iff, contains_numbers]
  simp [toNumbers]

end Representation

theorem run_eq_run_bitmap (registers : Registers) (operations : List Operation) :
    registers.run operations = Representation.bitmap.run registers operations := by
  induction operations generalizing registers with
  | nil => rfl
  | cons operation rest ih =>
      have performed : operation.perform registers =
          Representation.bitmap.perform registers operation := by
        cases operation <;> rfl
      rw [Registers.run, Representation.run, ← performed, ← ih]

/-- Whatever operations are performed on named sets of bytes, what is observed of them is what is
observed of sets of numbers below 256, both for the bitmap and for four words with an iterator.
The iterator hands out the members in ascending order and then ends. -/
theorem observations_are_of_sets :
    (∀ (registers : Registers) (operations : List Operation), registers.run operations =
      Representation.numbers.run
        (fun name => Representation.bitmap.toNumbers (registers name)) operations) ∧
    (∀ (store : String → Words) (operations : List Operation),
      Representation.words.run store operations =
        Representation.numbers.run
          (fun name => Representation.words.toNumbers (store name)) operations) ∧
    (∀ set : Words, ∃ bytes, set.bytes.Yields bytes ∧ bytes.Pairwise (· < ·) ∧
      ∀ byte, byte ∈ bytes ↔ set.contains byte = true) := by
  refine ⟨fun registers operations => ?_, fun store operations => ?_, fun set => ?_⟩
  · rw [run_eq_run_bitmap]
    exact Representation.lawful_bitmap.run_eq_run_numbers registers operations
  · exact Representation.lawful_words.run_eq_run_numbers store operations
  · exact ⟨_, set.yields_bytes, allBytes_ascending.filter _, by simp [mem_allBytes]⟩

end Lookahead.ByteSet
