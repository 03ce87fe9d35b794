import Lookahead.Byte.Words
import Mathlib.Data.List.Sort
import Mathlib.Data.Nat.Bitwise

/-!
What the four words of a set stand for.  Every operation is pinned by what it does to the bits, and
the iterator hands out the bytes whose bits are set in ascending order, and then nothing more.
-/

namespace Lookahead

/-! ### One word -/

section Word

variable {word : BitVec 64}

/-- A word that is not zero is its upper part, its lowest bit that is set, and zeros. -/
theorem exists_toNat_eq_of_ne_zero (nonzero : word ≠ 0#64) :
    ∃ upper, word.toNat = 2 ^ (word.ctz.toNat + 1) * upper + 2 ^ word.ctz.toNat := by
  refine ⟨word.toNat / 2 ^ (word.ctz.toNat + 1), ?_⟩
  have low : word.toNat % 2 ^ (word.ctz.toNat + 1) = 2 ^ word.ctz.toNat := by
    refine Nat.eq_of_testBit_eq fun bit => ?_
    rw [Nat.testBit_mod_two_pow, Nat.testBit_two_pow]
    rcases Nat.lt_trichotomy bit word.ctz.toNat with less | rfl | greater
    · have zero : word.toNat.testBit bit = false := BitVec.getLsbD_false_of_lt_ctz less
      simp [zero, Nat.ne_of_gt less]
    · have one : word.toNat.testBit word.ctz.toNat = true :=
        BitVec.getLsbD_true_ctz_of_ne_zero nonzero
      simp [one]
    · simp [Nat.ne_of_lt greater, show ¬ bit < word.ctz.toNat + 1 by omega]
  rw [← low]
  exact (Nat.div_add_mod _ _).symm

theorem ctz_lt_of_ne_zero (nonzero : word ≠ 0#64) : word.ctz.toNat < 64 := by
  by_contra beyond
  have one := BitVec.getLsbD_true_ctz_of_ne_zero nonzero
  rw [BitVec.getLsbD_of_ge _ _ (Nat.le_of_not_lt beyond)] at one
  cases one

theorem getLsbD_and_sub_one (nonzero : word ≠ 0#64) (bit : Nat) :
    (word &&& (word - 1#64)).getLsbD bit = (word.getLsbD bit && bit != word.ctz.toNat) := by
  obtain ⟨upper, split⟩ := exists_toNat_eq_of_ne_zero nonzero
  set lowest := word.ctz.toNat
  have positive : 0 < 2 ^ lowest := Nat.two_pow_pos lowest
  have doubled : 2 ^ (lowest + 1) = 2 * 2 ^ lowest := by rw [Nat.pow_succ']
  -- The borrow stops at the lowest bit, so the upper part stays as it is.
  have before : (word - 1#64).toNat = 2 ^ (lowest + 1) * upper + (2 ^ lowest - 1) := by
    rw [BitVec.toNat_sub_of_le (by simp [BitVec.le_def]; omega)]
    simp only [BitVec.toNat_ofNat]
    omega
  have here : word.getLsbD bit =
      if bit < lowest + 1 then decide (lowest = bit) else upper.testBit (bit - (lowest + 1)) := by
    rw [BitVec.getLsbD, split, Nat.testBit_two_pow_mul_add _ (by omega), Nat.testBit_two_pow]
  have there : (word - 1#64).getLsbD bit =
      if bit < lowest + 1 then decide (bit < lowest) else upper.testBit (bit - (lowest + 1)) := by
    rw [BitVec.getLsbD, before, Nat.testBit_two_pow_mul_add _ (by omega),
      Nat.testBit_two_pow_sub_one]
  rw [BitVec.getLsbD_and, here, there]
  rcases Nat.lt_trichotomy bit lowest with less | rfl | greater
  · simp [Nat.ne_of_gt less, show bit < lowest + 1 by omega]
  · simp
  · simp [show ¬ bit < lowest + 1 by omega, Nat.ne_of_gt greater]

theorem toNat_cpop_eq_countP : word.cpop.toNat = (List.range 64).countP word.getLsbD := by
  have counted (count acc : Nat) :
      word.cpopNatRec count acc = acc + (List.range count).countP word.getLsbD := by
    induction count generalizing acc with
    | zero => simp
    | succ count ih =>
        rw [BitVec.cpopNatRec_succ, ih, List.range_succ, List.countP_append,
          List.countP_singleton]
        cases word.getLsbD count
        · simp
        · simp
          omega
  rw [BitVec.toNat_cpop, counted, Nat.zero_add]

end Word

namespace Words

/-! ### The bits of a set -/

theorem and_mask_ne_zero {word : BitVec 64} {offset : Nat} (bound : offset < 64) :
    (word &&& 1#64 <<< offset != 0#64) = word.getLsbD offset := by
  rw [← BitVec.twoPow_eq, BitVec.and_twoPow]
  have nonzero : BitVec.twoPow 64 offset ≠ 0#64 := by
    intro zero
    have one := congrArg (fun mask => mask.getLsbD offset) zero
    simp [bound] at one
  cases word.getLsbD offset <;> simp [nonzero]

theorem contains_eq (set : Words) (byte : UInt8) :
    set.contains byte = set.words[(locate byte).1].getLsbD (byte.toNat % 64) :=
  and_mask_ne_zero (Nat.mod_lt _ (by decide))

theorem locate_inj {left right : UInt8} :
    (locate left).1 = (locate right).1 ∧ left.toNat % 64 = right.toNat % 64 ↔ left = right := by
  constructor
  · rintro ⟨places, offsets⟩
    have quotients : left.toNat / 64 = right.toNat / 64 := congrArg Fin.val places
    exact UInt8.toNat_inj.mp (by omega)
  · rintro rfl
    exact ⟨rfl, rfl⟩

theorem locate_ofNat (place : Fin 4) {offset : Nat} (bound : offset < 64) :
    (locate (UInt8.ofNat (place * 64 + offset))).1 = place ∧
      (UInt8.ofNat (place * 64 + offset)).toNat % 64 = offset := by
  have within := place.isLt
  have value : (UInt8.ofNat (place * 64 + offset)).toNat = place * 64 + offset :=
    UInt8.toNat_ofNat_of_lt' (by show _ < 256; omega)
  refine ⟨Fin.ext ?_, by omega⟩
  show (UInt8.ofNat (place * 64 + offset)).toNat / 64 = place
  omega

theorem contains_ofNat (set : Words) (place : Fin 4) {offset : Nat} (bound : offset < 64) :
    set.contains (UInt8.ofNat (place * 64 + offset)) = set.words[place].getLsbD offset := by
  obtain ⟨places, offsets⟩ := locate_ofNat place bound
  rw [contains_eq, offsets]
  simp only [places]

theorem forall_bits_iff {P : Fin 4 → Nat → Prop} :
    (∀ place, ∀ offset < 64, P place offset) ↔
      ∀ byte : UInt8, P (locate byte).1 (byte.toNat % 64) := by
  constructor
  · intro all byte
    exact all _ _ (Nat.mod_lt _ (by decide))
  · intro all place offset bound
    obtain ⟨places, offsets⟩ := locate_ofNat place bound
    have here := all (UInt8.ofNat (place * 64 + offset))
    rwa [places, offsets] at here

theorem eq_iff {left right : Words} :
    left = right ↔ ∀ byte, left.contains byte = right.contains byte := by
  simp only [contains_eq]
  rw [← @forall_bits_iff fun place offset =>
    left.words[place].getLsbD offset = right.words[place].getLsbD offset]
  constructor
  · rintro rfl _ _ _
    rfl
  · intro same
    obtain ⟨words⟩ := left
    congr 1
    refine Vector.ext fun place bound => BitVec.eq_of_getLsbD_eq fun offset within => ?_
    exact same ⟨place, bound⟩ offset within

theorem contains_empty (byte : UInt8) : empty.contains byte = false := by
  simp [contains_eq, empty]

theorem fst_add (set : Words) (byte : UInt8) : (set.add byte).1 = !set.contains byte := by
  simp [add, contains, bne]

theorem contains_set (words : Vector (BitVec 64) 4) (place : Fin 4) (word : BitVec 64)
    (byte : UInt8) :
    contains ⟨words.set place word place.isLt⟩ byte =
      if place = (locate byte).1 then word.getLsbD (byte.toNat % 64)
      else contains ⟨words⟩ byte := by
  simp only [contains_eq, Fin.getElem_fin, Vector.getElem_set, Fin.ext_iff]
  split <;> rfl

theorem getLsbD_mask_of_place {left right : UInt8} (places : (locate left).1 = (locate right).1) :
    (locate left).2.getLsbD (right.toNat % 64) = (left == right) := by
  have same := @locate_inj left right
  simp only [places, true_and] at same
  show (1#64 <<< (left.toNat % 64)).getLsbD (right.toNat % 64) = _
  rw [← BitVec.twoPow_eq, BitVec.getLsbD_twoPow, Bool.eq_iff_iff]
  simp only [same, Bool.and_eq_true, decide_eq_true_eq, beq_iff_eq, and_iff_right_iff_imp]
  omega

theorem contains_add (set : Words) (added byte : UInt8) :
    (set.add added).2.contains byte = (set.contains byte || added == byte) := by
  show contains ⟨set.words.set (locate added).1
    (set.words[(locate added).1] ||| (locate added).2)⟩ byte = _
  rw [contains_set]
  split
  · rename_i places
    rw [BitVec.getLsbD_or, getLsbD_mask_of_place places, contains_eq]
    simp only [places]
  · rename_i places
    have other : (added == byte) = false := by simp [← locate_inj, places]
    rw [other, Bool.or_false]

theorem fst_remove (set : Words) (byte : UInt8) : (set.remove byte).1 = set.contains byte :=
  rfl

theorem contains_remove (set : Words) (removed byte : UInt8) :
    (set.remove removed).2.contains byte = (set.contains byte && !(removed == byte)) := by
  show contains ⟨set.words.set (locate removed).1
    (set.words[(locate removed).1] &&& ~~~ (locate removed).2)⟩ byte = _
  rw [contains_set]
  split
  · rename_i places
    have bound : byte.toNat % 64 < 64 := Nat.mod_lt _ (by decide)
    rw [BitVec.getLsbD_and, BitVec.getLsbD_not, getLsbD_mask_of_place places, contains_eq]
    simp only [places, bound, decide_true, Bool.true_and]
  · rename_i places
    have other : (removed == byte) = false := by simp [← locate_inj, places]
    rw [other, Bool.not_false, Bool.and_true]

theorem contains_union (left right : Words) (byte : UInt8) :
    (left.union right).contains byte = (left.contains byte || right.contains byte) := by
  simp [contains_eq, union]

theorem contains_ofList (bytes : List UInt8) (byte : UInt8) :
    (ofList bytes).contains byte = bytes.contains byte := by
  have collected (set : Words) :
      (bytes.foldl (fun set byte => (set.add byte).2) set).contains byte =
        (set.contains byte || bytes.contains byte) := by
    induction bytes generalizing set with
    | nil => simp
    | cons first rest ih =>
        rw [List.foldl_cons, ih, contains_add, List.contains_cons, Bool.or_assoc, Bool.beq_comm]
  rw [ofList, collected, contains_empty, Bool.false_or]

theorem fst_unionWith_eq_false_iff (set other : Words) :
    (set.unionWith other).1 = false ↔
      ∀ byte, other.contains byte = true → set.contains byte = true := by
  have unchanged : (set.unionWith other).1 = false ↔ set = set.union other := by
    obtain ⟨words⟩ := set
    simp only [unionWith, union, Words.mk.injEq, Vector.ext_iff, Vector.any_eq_false,
      Vector.getElem_zip, Vector.getElem_zipWith, bne_iff_ne, ne_eq, not_not]
  rw [unchanged, eq_iff]
  refine forall_congr' fun byte => ?_
  rw [contains_union]
  cases set.contains byte <;> cases other.contains byte <;> decide

theorem isSuperset_iff (set other : Words) :
    set.isSuperset other = true ↔
      ∀ byte, other.contains byte = true → set.contains byte = true := by
  simp only [isSuperset, Vector.all_eq_true, Vector.getElem_zip, beq_iff_eq, contains_eq]
  rw [← @forall_bits_iff fun place offset =>
    other.words[place].getLsbD offset = true → set.words[place].getLsbD offset = true]
  constructor
  · intro included place offset _ one
    have both := congrArg (fun word => word.getLsbD offset) (included place place.isLt)
    simp only [BitVec.getLsbD_and] at both
    exact (Bool.and_eq_true_iff.mp (both.trans one)).1
  · intro included place bound
    refine BitVec.eq_of_getLsbD_eq fun offset within => ?_
    have here := included ⟨place, bound⟩ offset within
    simp only [Fin.getElem_fin] at here
    rw [BitVec.getLsbD_and]
    cases bit : other.words[place].getLsbD offset
    · rw [Bool.and_false]
    · rw [here bit, Bool.true_and]

theorem isEmpty_iff (set : Words) : set.isEmpty = true ↔ ∀ byte, set.contains byte = false := by
  have vacant : set.isEmpty = true ↔ set = empty := by
    obtain ⟨words⟩ := set
    simp [isEmpty, empty, Vector.ext_iff]
  simp only [vacant, eq_iff, contains_empty]

theorem countP_range_mul (P : Nat → Bool) (count width : Nat) :
    (List.range (count * width)).countP P =
      ((List.range count).map fun place =>
        (List.range width).countP fun offset => P (place * width + offset)).sum := by
  induction count with
  | zero => simp
  | succ count ih =>
      rw [Nat.succ_mul, List.range_add, List.countP_append, ih, List.countP_map,
        @List.range_succ count, List.map_append, List.sum_append]
      simp [Function.comp_def]

theorem size_eq_countP (set : Words) : set.size = ByteSet.allBytes.countP set.contains := by
  have counts : (set.words.map fun word => word.cpop.toNat).toList =
      (List.range 4).map fun place => (List.range 64).countP fun offset =>
        set.contains (UInt8.ofNat (place * 64 + offset)) := by
    refine List.ext_getElem (by simp) fun place bound _ => ?_
    have within : place < 4 := by simpa using bound
    simp only [Vector.getElem_toList, Vector.getElem_map, List.getElem_map, List.getElem_range,
      toNat_cpop_eq_countP]
    refine List.countP_congr fun offset member => ?_
    rw [contains_ofNat set ⟨place, within⟩ (List.mem_range.mp member)]
    rfl
  calc set.size
      = (set.words.map fun word => word.cpop.toNat).toList.sum := by
        rw [size, List.sum_eq_foldl, Vector.foldl_toList, Vector.foldl_map]
    _ = (List.range (4 * 64)).countP fun number => set.contains (UInt8.ofNat number) := by
        rw [counts, countP_range_mul]
    _ = ByteSet.allBytes.countP set.contains := by rw [ByteSet.allBytes, List.countP_map]; rfl

/-! ### The iterator -/

/-- The bytes that an iterator has still to hand out. -/
def Bytes.pending (state : Bytes) : List UInt8 :=
  ByteSet.allBytes.filter fun byte =>
    decide (state.place * 64 ≤ byte.toNat) && contains ⟨state.words⟩ byte

namespace Bytes

theorem mem_pending {state : Bytes} {byte : UInt8} :
    byte ∈ state.pending ↔
      state.place * 64 ≤ byte.toNat ∧ contains ⟨state.words⟩ byte = true := by
  simp [pending, ByteSet.mem_allBytes]

theorem pending_ascending (state : Bytes) : state.pending.Pairwise (· < ·) :=
  ByteSet.allBytes_ascending.filter _

section Word

variable {state : Bytes} {word : BitVec 64} (bound : state.place < 4)
  (current : state.words[state.place] = word)
include current

theorem contains_current {byte : UInt8} (here : byte.toNat / 64 = state.place) :
    contains ⟨state.words⟩ byte = word.getLsbD (byte.toNat % 64) := by
  have places : (locate byte).1 = ⟨state.place, bound⟩ := Fin.ext here
  rw [contains_eq, ← current]
  simp only [places, Fin.getElem_fin]

theorem pending_skip (zero : word = 0#64) :
    pending ⟨state.words, state.place + 1⟩ = state.pending := by
  refine List.filter_congr fun byte _ => ?_
  by_cases here : byte.toNat / 64 = state.place
  · have absent : contains ⟨state.words⟩ byte = false := by
      rw [contains_current bound current here, zero, BitVec.getLsbD_zero]
    rw [absent, Bool.and_false, Bool.and_false]
  · congr 2
    exact propext (by show (state.place + 1) * 64 ≤ _ ↔ _; omega)

theorem mem_pending_iff_of_div_eq {byte : UInt8} (here : byte.toNat / 64 = state.place) :
    byte ∈ state.pending ↔ word.getLsbD (byte.toNat % 64) = true := by
  rw [mem_pending, contains_current bound current here, and_iff_right_iff_imp]
  omega

section Lowest

variable (nonzero : word ≠ 0#64) {lowest : UInt8}
  (value : lowest.toNat = state.place * 64 + word.ctz.toNat)
include nonzero value

theorem lowest_mem_pending : lowest ∈ state.pending := by
  have low := ctz_lt_of_ne_zero nonzero
  have offset : lowest.toNat % 64 = word.ctz.toNat := by omega
  refine (mem_pending_iff_of_div_eq bound current (by omega)).mpr ?_
  rw [offset]
  exact BitVec.getLsbD_true_ctz_of_ne_zero nonzero

theorem lowest_le_of_mem_pending {byte : UInt8} (member : byte ∈ state.pending) :
    lowest.toNat ≤ byte.toNat := by
  have low := ctz_lt_of_ne_zero nonzero
  have behind := (mem_pending.mp member).1
  by_cases here : byte.toNat / 64 = state.place
  · have one := (mem_pending_iff_of_div_eq bound current here).mp member
    by_contra less
    rw [BitVec.getLsbD_false_of_lt_ctz (by omega)] at one
    cases one
  · omega

theorem mem_pending_clear {byte : UInt8} :
    byte ∈ pending ⟨state.words.set state.place (word &&& (word - 1#64)), state.place⟩ ↔
      byte ∈ state.pending ∧ byte ≠ lowest := by
  have low := ctz_lt_of_ne_zero nonzero
  rw [Ne, ← UInt8.toNat_inj, value]
  by_cases here : byte.toNat / 64 = state.place
  · have cleared := @mem_pending_iff_of_div_eq
      ⟨state.words.set state.place (word &&& (word - 1#64)), state.place⟩ _ bound
      (Vector.getElem_set_self bound) byte here
    rw [cleared, getLsbD_and_sub_one nonzero, mem_pending_iff_of_div_eq bound current here,
      Bool.and_eq_true, bne_iff_ne]
    exact and_congr_right fun _ => by omega
  -- A byte of another word is pending as before, and is not the lowest one.
  · have same := contains_set state.words ⟨state.place, bound⟩ (word &&& (word - 1#64)) byte
    rw [if_neg fun places => here (congrArg Fin.val places).symm] at same
    have other : byte.toNat ≠ state.place * 64 + word.ctz.toNat := by omega
    rw [mem_pending, mem_pending]
    show _ ∧ contains ⟨state.words.set state.place _⟩ byte = true ↔ _
    simp only [same, other, not_false_eq_true, and_true]

theorem pending_clear :
    state.pending = lowest ::
      pending ⟨state.words.set state.place (word &&& (word - 1#64)), state.place⟩ := by
  refine state.pending_ascending.eq_of_mem_iff ?_ fun byte => ?_
  · refine List.pairwise_cons.mpr ⟨fun byte member => ?_, pending_ascending _⟩
    obtain ⟨old, other⟩ := (mem_pending_clear bound current nonzero value).mp member
    have least := lowest_le_of_mem_pending bound current nonzero value old
    have different : byte.toNat ≠ lowest.toNat := fun same => other (UInt8.toNat_inj.mp same)
    exact UInt8.lt_iff_toNat_lt.mpr (by omega)
  · rw [List.mem_cons, mem_pending_clear bound current nonzero value]
    constructor
    · intro member
      by_cases same : byte = lowest
      · exact .inl same
      · exact .inr ⟨member, same⟩
    · rintro (rfl | ⟨member, _⟩)
      · exact lowest_mem_pending bound current nonzero value
      · exact member

end Lowest

end Word

theorem pending_end {state : Bytes} (beyond : ¬ state.place < 4) : state.pending = [] := by
  refine List.filter_eq_nil_iff.mpr fun byte _ => ?_
  have less : byte.toNat < 256 := byte.toNat_lt
  simp [show ¬ state.place * 64 ≤ byte.toNat by omega]

/-- The iterator hands out the first of the bytes that are pending and keeps the others, and
without any it is at its end. -/
theorem next_eq (state : Bytes) :
    (state.next.1 = none ∧ state.pending = []) ∨
      ∃ byte, state.next.1 = some byte ∧ state.pending = byte :: state.next.2.pending := by
  fun_induction next state with
  | case1 state bound word zero ih =>
      rwa [pending_skip bound rfl zero] at ih
  | case2 state bound word nonzero =>
      have low := ctz_lt_of_ne_zero nonzero
      have value : (UInt8.ofNat (state.place * 64 + word.ctz.toNat)).toNat =
          state.place * 64 + word.ctz.toNat :=
        UInt8.toNat_ofNat_of_lt' (by show _ < 256; omega)
      exact .inr ⟨_, rfl, pending_clear bound rfl nonzero value⟩
  | case3 state beyond => exact .inl ⟨rfl, pending_end beyond⟩

inductive Yields : Bytes → List UInt8 → Prop
  | ends {state} : state.next.1 = none → Yields state []
  | hands {state byte rest} : state.next.1 = some byte → Yields state.next.2 rest →
      Yields state (byte :: rest)

theorem yields_pending (state : Bytes) : state.Yields state.pending := by
  generalize same : state.pending = pending
  induction pending generalizing state with
  | nil =>
      rcases state.next_eq with ⟨stopped, _⟩ | ⟨byte, _, split⟩
      · exact .ends stopped
      · rw [same] at split
        cases split
  | cons byte rest ih =>
      rcases state.next_eq with ⟨_, vacant⟩ | ⟨first, handed, split⟩
      · rw [same] at vacant
        cases vacant
      · obtain ⟨rfl, restIs⟩ := List.cons.inj (same.symm.trans split)
        exact .hands handed (ih _ restIs.symm)

def collect (state : Bytes) : List UInt8 :=
  match _taken : state.next with
  | (none, _) => []
  | (some byte, rest) => byte :: rest.collect
termination_by state.pending.length
decreasing_by
  rcases state.next_eq with ⟨stopped, _⟩ | ⟨_, _, split⟩
  · simp [_taken] at stopped
  · simp [split, _taken]

theorem collect_eq_of_yields {state : Bytes} {bytes : List UInt8} (yields : state.Yields bytes) :
    state.collect = bytes := by
  induction yields with
  | ends stopped =>
      rw [collect]
      split
      · rfl
      · rename_i taken
        simp [taken] at stopped
  | hands handed _ ih =>
      rw [collect]
      split
      · rename_i taken
        simp [taken] at handed
      · rename_i byte rest taken
        simp only [taken, Option.some.injEq] at handed ih
        rw [handed, ih]

end Bytes

theorem pending_bytes (set : Words) :
    set.bytes.pending = ByteSet.allBytes.filter set.contains := by
  refine List.filter_congr fun byte _ => ?_
  simp [bytes]

theorem yields_bytes (set : Words) : set.bytes.Yields (ByteSet.allBytes.filter set.contains) :=
  pending_bytes set ▸ set.bytes.yields_pending

theorem collect_bytes (set : Words) :
    set.bytes.collect = ByteSet.allBytes.filter set.contains :=
  Bytes.collect_eq_of_yields set.yields_bytes

end Words

end Lookahead
