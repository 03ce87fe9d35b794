import Lookahead.Proofs.Sequencing
import Lookahead.Table.Generate

/-!
The row of a rule is made of claims: each alternative claims the bytes that it can begin with for
its operations and, if it may be empty, the bytes that can follow the rule for no operations.  A
claim is checked by the owner of a byte and by its cell.  Both checks together refuse exactly the
bytes that are claimed already: one that was claimed for the same place has another owner, and one
that the same alternative owns points at another place.
-/

namespace Lookahead

def ByteSet.Apart (left right : ByteSet) : Prop :=
  ∀ byte, left.contains byte = true → right.contains byte = false

theorem ByteSet.Apart.symm {left right : ByteSet} (apart : left.Apart right) :
    right.Apart left := by
  intro byte inRight
  by_contra inLeft
  rw [Bool.not_eq_false] at inLeft
  simp [apart byte inLeft] at inRight

theorem ByteSet.nodup_toList (set : ByteSet) : set.toList.Nodup :=
  (set.toList_ascending).imp fun less same => by simp [same] at less

def ClaimedOnce (byte : UInt8) (claims : List (ByteSet × List Operation)) : Prop :=
  claims.Pairwise fun left right =>
    ¬ (left.1.contains byte = true ∧ right.1.contains byte = true)

theorem pairwise_apart_iff {claims : List (ByteSet × List Operation)} :
    (claims.Pairwise fun left right => left.1.Apart right.1) ↔
      ∀ byte, ClaimedOnce byte claims := by
  simp only [ClaimedOnce, List.pairwise_iff_forall_sublist, ByteSet.Apart, not_and,
    Bool.not_eq_true]
  exact ⟨fun apart byte left right among => apart among byte,
    fun once left right among byte => once byte among⟩

theorem ClaimedOnce.of_append {byte : UInt8} {claims others : List (ByteSet × List Operation)}
    (once : ClaimedOnce byte (claims ++ others)) : ClaimedOnce byte claims :=
  (List.pairwise_append.mp once).1

theorem getElem?_push_of_getElem? {α : Type} {items : Array α} {item last : α} {place : Nat}
    (found : items[place]? = some item) : (items.push last)[place]? = some item := by
  have bound := (Array.getElem?_eq_some_iff.mp found).1
  rw [Array.getElem?_push, if_neg (by omega), found]

namespace Row

theorem lookup_of_cell {row : Row} {byte : UInt8} {place : Nat}
    (points : row.cell byte = some place) : row.lookup byte = row.alternatives[place]? := by
  simp [lookup, points]

theorem lookup_of_grown {row grown : Row} {byte : UInt8} {operations : List Operation}
    (sameCell : grown.cell byte = row.cell byte)
    (kept : ∀ (place : Nat) (operations : List Operation),
      row.alternatives[place]? = some operations → grown.alternatives[place]? = some operations)
    (found : row.lookup byte = some operations) : grown.lookup byte = some operations := by
  simp only [lookup, Option.bind_eq_some_iff] at found ⊢
  obtain ⟨place, points, stands⟩ := found
  exact ⟨place, by rw [sameCell, points], kept place _ stands⟩

end Row

namespace RowDraft

/-! ### One claim -/

section Claim

variable {draft : RowDraft} {place owner : Nat} {byte : UInt8}

def point (place owner : Nat) (draft : RowDraft) (byte : UInt8) : RowDraft :=
  { draft with
    row := draft.row.point byte place
    owners := draft.owners.point byte owner }

/-- The two checks tell for a byte whether it is claimed already. -/
def Tells (draft : RowDraft) (place owner : Nat) (byte : UInt8) : Prop :=
  (draft.row.cell byte = none → draft.owners.entry byte = none) ∧
    (draft.row.cell byte = some place → ∃ other ≠ owner, draft.owners.entry byte = some other)

theorem Tells.point {first : UInt8} (tells : draft.Tells place owner byte)
    (different : byte ≠ first) : (draft.point place owner first).Tells place owner byte := by
  simpa [Tells, RowDraft.point, Row.cell_point, Cells.entry_point, different] using tells

/-- Both checks together are the one check whether the cell is free. -/
theorem claim_eq (head : String) (tells : draft.Tells place owner byte) :
    claim head place owner draft byte =
      if draft.row.cell byte = none then .ok (draft.point place owner byte)
      else .error (.ambiguousCell head byte) := by
  obtain ⟨unowned, shared⟩ := tells
  cases points : draft.row.cell byte with
  | none =>
      have owned : draft.owners.assign byte owner = .ok (draft.owners.point byte owner) :=
        Cells.assign_eq_ok (by simp [unowned points])
      have assigned : draft.row.assign byte place = .ok (draft.row.point byte place) :=
        Row.assign_eq_ok (by simp [points])
      rw [claim, owned, assigned, if_pos rfl]
      rfl
  | some existing =>
      rw [claim, if_neg (by simp)]
      by_cases same : existing = place
      · obtain ⟨other, different, owned⟩ := shared (same ▸ points)
        rw [Cells.assign_eq_error owned different]
        rfl
      · rw [Row.assign_eq_error points same]
        cases draft.owners.assign byte owner <;> rfl

end Claim

/-! ### The claims of a set -/

section Claims

variable {draft : RowDraft} {place owner : Nat} {bytes : List UInt8}

def pointAll (place owner : Nat) (draft : RowDraft) (bytes : List UInt8) : RowDraft :=
  bytes.foldl (point place owner) draft

@[simp] theorem alternatives_pointAll :
    (draft.pointAll place owner bytes).row.alternatives = draft.row.alternatives := by
  induction bytes generalizing draft with
  | nil => rfl
  | cons first rest ih => exact ih

@[simp] theorem epsilon_pointAll :
    (draft.pointAll place owner bytes).epsilon = draft.epsilon := by
  induction bytes generalizing draft with
  | nil => rfl
  | cons first rest ih => exact ih

theorem cell_pointAll (byte : UInt8) :
    (draft.pointAll place owner bytes).row.cell byte =
      if byte ∈ bytes then some place else draft.row.cell byte := by
  induction bytes generalizing draft with
  | nil => simp [pointAll]
  | cons first rest ih =>
      refine ih.trans ?_
      by_cases same : byte = first <;> simp [point, Row.cell_point, same]

theorem entry_pointAll (byte : UInt8) :
    (draft.pointAll place owner bytes).owners.entry byte =
      if byte ∈ bytes then some owner else draft.owners.entry byte := by
  induction bytes generalizing draft with
  | nil => simp [pointAll]
  | cons first rest ih =>
      refine ih.trans ?_
      by_cases same : byte = first <;> simp [point, Cells.entry_point, same]

theorem lookup_pointAll (byte : UInt8) :
    (draft.pointAll place owner bytes).row.lookup byte =
      if byte ∈ bytes then draft.row.alternatives[place]? else draft.row.lookup byte := by
  by_cases member : byte ∈ bytes <;> simp [Row.lookup, cell_pointAll, member]

theorem foldlM_claim_cases (head : String) (distinct : bytes.Nodup)
    (tells : ∀ byte ∈ bytes, draft.Tells place owner byte) :
    ((∀ byte ∈ bytes, draft.row.cell byte = none) ∧
        bytes.foldlM (claim head place owner) draft = .ok (draft.pointAll place owner bytes)) ∨
      ∃ byte ∈ bytes, draft.row.cell byte ≠ none ∧
        bytes.foldlM (claim head place owner) draft = .error (.ambiguousCell head byte) := by
  induction bytes generalizing draft with
  | nil => exact Or.inl ⟨by simp, rfl⟩
  | cons first rest ih =>
      obtain ⟨fresh, restDistinct⟩ := List.nodup_cons.mp distinct
      obtain ⟨here, later⟩ := List.forall_mem_cons.mp tells
      have others {byte : UInt8} (member : byte ∈ rest) : byte ≠ first :=
        fun same => fresh (same ▸ member)
      have step := claim_eq head here
      by_cases free : draft.row.cell first = none
      · rw [if_pos free] at step
        have kept {byte : UInt8} (member : byte ∈ rest) :
            (draft.point place owner first).row.cell byte = draft.row.cell byte := by
          simp [point, Row.cell_point, others member]
        rcases ih restDistinct fun byte member => (later byte member).point (others member) with
          ⟨restFree, success⟩ | ⟨byte, member, taken, failed⟩
        · refine Or.inl ⟨List.forall_mem_cons.mpr ⟨free, ?_⟩, ?_⟩
          · exact fun byte member => kept member ▸ restFree byte member
          · rw [List.foldlM_cons, step]
            exact success
        · refine Or.inr ⟨byte, List.mem_cons_of_mem _ member, kept member ▸ taken, ?_⟩
          rw [List.foldlM_cons, step]
          exact failed
      · refine Or.inr ⟨first, List.mem_cons_self, free, ?_⟩
        rw [List.foldlM_cons, step, if_neg free]
        rfl

end Claims

/-! ### What a draft holds -/

/-- A draft whose cells are the given claims, where the alternative `next` may still claim for
the empty expansion: what is claimed for that place was so for alternatives before it. -/
structure Holds (draft : RowDraft) (claims : List (ByteSet × List Operation)) (next : Nat) :
    Prop where
  apart : claims.Pairwise fun left right => left.1.Apart right.1
  free : ∀ byte, draft.row.cell byte = none ↔ ∀ claim ∈ claims, claim.1.contains byte = false
  found : ∀ claim ∈ claims, ∀ byte, claim.1.contains byte = true →
    draft.row.lookup byte = some claim.2
  epsilon : ∀ place, draft.epsilon = some place → draft.row.alternatives[place]? = some []
  unowned : ∀ byte, draft.row.cell byte = none → draft.owners.entry byte = none
  earlier : ∀ byte place, draft.epsilon = some place → draft.row.cell byte = some place →
    ∃ owner < next, draft.owners.entry byte = some owner

def Clashes (head : String) (claims : List (ByteSet × List Operation))
    (reason : GrammarError) : Prop :=
  ∃ byte, reason = .ambiguousCell head byte ∧ ¬ ClaimedOnce byte claims

theorem Clashes.append {head : String} {claims others : List (ByteSet × List Operation)}
    {reason : GrammarError} (clashes : Clashes head claims reason) :
    Clashes head (claims ++ others) reason := by
  obtain ⟨byte, same, twice⟩ := clashes
  exact ⟨byte, same, fun once => twice once.of_append⟩

/-- Claims that are made one after the other end in a draft that holds them or in a clash. -/
def Outcome (head : String) (claims : List (ByteSet × List Operation)) (next : Nat) :
    Except GrammarError RowDraft → Prop
  | .ok draft => draft.Holds claims next
  | .error reason => Clashes head claims reason

theorem Outcome.bind {head : String} {claims others : List (ByteSet × List Operation)}
    {between last : Nat} {first : Except GrammarError RowDraft}
    {next : RowDraft → Except GrammarError RowDraft} (one : Outcome head claims between first)
    (two : ∀ draft, draft.Holds claims between →
      Outcome head (claims ++ others) last (next draft)) :
    Outcome head (claims ++ others) last (first >>= next) := by
  cases first with
  | error reason => exact Clashes.append one
  | ok draft => exact two draft one

theorem holds_empty : empty.Holds [] 0 := by
  refine ⟨List.Pairwise.nil, ?_, ?_, ?_, ?_, ?_⟩
  · simp [empty]
  · simp
  · simp [empty]
  · simp [empty]
  · simp [empty]

section Holds

variable {draft : RowDraft} {claims : List (ByteSet × List Operation)} {next : Nat}

theorem Holds.mono (holds : draft.Holds claims next) {later : Nat} (le : next ≤ later) :
    draft.Holds claims later := by
  refine { holds with earlier := fun byte place shared points => ?_ }
  obtain ⟨owner, before, owned⟩ := holds.earlier byte place shared points
  exact ⟨owner, Nat.lt_of_lt_of_le before le, owned⟩

theorem Holds.exists_of_cell (holds : draft.Holds claims next) {byte : UInt8} {place : Nat}
    (points : draft.row.cell byte = some place) :
    ∃ claim ∈ claims, claim.1.contains byte = true ∧
      draft.row.alternatives[place]? = some claim.2 := by
  have taken : draft.row.cell byte ≠ none := by simp [points]
  rw [Ne, holds.free byte] at taken
  push Not at taken
  obtain ⟨claim, member, contains⟩ := taken
  rw [Ne, Bool.not_eq_false] at contains
  have found := holds.found claim member byte contains
  exact ⟨claim, member, contains, Row.lookup_of_cell points ▸ found⟩

theorem Holds.place_lt (holds : draft.Holds claims next) {byte : UInt8} {place : Nat}
    (points : draft.row.cell byte = some place) : place < draft.row.alternatives.size := by
  obtain ⟨_, _, _, stands⟩ := holds.exists_of_cell points
  exact (Array.getElem?_eq_some_iff.mp stands).1

theorem Holds.push (holds : draft.Holds claims next) (operations : List Operation) :
    (draft.push operations).Holds claims next := by
  refine ⟨holds.apart, holds.free, ?_, ?_, holds.unowned, holds.earlier⟩
  · intro claim member byte contains
    have grown (place : Nat) (stood : List Operation)
        (stands : draft.row.alternatives[place]? = some stood) :
        (draft.push operations).row.alternatives[place]? = some stood :=
      getElem?_push_of_getElem? stands
    exact Row.lookup_of_grown (draft.row.cell_push operations byte) grown
      (holds.found claim member byte contains)
  · exact fun place shared => getElem?_push_of_getElem? (holds.epsilon place shared)

theorem Holds.reserveEpsilon (holds : draft.Holds claims next) :
    draft.reserveEpsilon.2.Holds claims next ∧
      draft.reserveEpsilon.2.epsilon = some draft.reserveEpsilon.1 := by
  rw [RowDraft.reserveEpsilon]
  cases chosen : draft.epsilon with
  | some place => exact ⟨holds, chosen⟩
  | none =>
      refine ⟨{ holds.push [] with epsilon := ?_, earlier := ?_ }, rfl⟩
      · rintro place ⟨⟩
        simp [RowDraft.push, Row.push]
      · rintro byte place ⟨⟩ points
        -- Nothing points yet at the place that is new.
        exact absurd (holds.place_lt points) (Nat.lt_irrefl _)

theorem Holds.tells_push (holds : draft.Holds claims next) (operations : List Operation)
    (owner : Nat) (byte : UInt8) :
    (draft.push operations).Tells draft.row.alternatives.size owner byte :=
  ⟨holds.unowned byte, fun points => absurd (holds.place_lt points) (Nat.lt_irrefl _)⟩

/-- What points at the place of the empty expansions has an earlier owner. -/
theorem Holds.tells_epsilon (holds : draft.Holds claims next) {place : Nat}
    (shared : draft.epsilon = some place) (byte : UInt8) : draft.Tells place next byte := by
  refine ⟨holds.unowned byte, fun points => ?_⟩
  obtain ⟨owner, before, owned⟩ := holds.earlier byte place shared points
  exact ⟨owner, Nat.ne_of_lt before, owned⟩

end Holds

section Add

variable {draft : RowDraft} {claims : List (ByteSet × List Operation)} {next place owner : Nat}
  {set : ByteSet} {operations : List Operation} {head : String}

theorem Holds.apart_of_free (holds : draft.Holds claims next)
    (free : ∀ byte ∈ set.toList, draft.row.cell byte = none) :
    ∀ claim ∈ claims, claim.1.Apart set := by
  intro claim member byte inClaim
  by_contra inSet
  rw [Bool.not_eq_false] at inSet
  have unclaimed := (holds.free byte).mp (free byte ((ByteSet.mem_toList set byte).mpr inSet))
  simp [unclaimed claim member] at inClaim

theorem Holds.apart_append (holds : draft.Holds claims next)
    (free : ∀ byte ∈ set.toList, draft.row.cell byte = none) :
    (claims ++ [(set, operations)]).Pairwise fun left right => left.1.Apart right.1 := by
  refine List.pairwise_append.mpr ⟨holds.apart, List.pairwise_singleton _ _, ?_⟩
  intro claim member other last
  obtain rfl := List.mem_singleton.mp last
  exact holds.apart_of_free free claim member

theorem Holds.pointAll (holds : draft.Holds claims next)
    (placed : draft.row.alternatives[place]? = some operations)
    (free : ∀ byte ∈ set.toList, draft.row.cell byte = none) {later : Nat} (le : next ≤ later)
    (before : draft.epsilon = some place → owner < later) :
    (draft.pointAll place owner set.toList).Holds (claims ++ [(set, operations)]) later := by
  refine ⟨holds.apart_append free, ?_, ?_, ?_, ?_, ?_⟩
  · intro byte
    simp only [cell_pointAll, ByteSet.mem_toList, List.mem_append, List.mem_singleton, or_imp,
      forall_and, forall_eq]
    by_cases inSet : set.contains byte = true
    · simp [inSet]
    · simp [inSet, holds.free byte]
  · intro claim member byte inClaim
    simp only [lookup_pointAll, ByteSet.mem_toList]
    rcases List.mem_append.mp member with earlier | last
    · have outside := holds.apart_of_free free claim earlier byte inClaim
      rw [if_neg (by simp [outside]), holds.found claim earlier byte inClaim]
    · obtain rfl := List.mem_singleton.mp last
      rw [if_pos inClaim, placed]
  · rw [alternatives_pointAll, epsilon_pointAll]
    exact holds.epsilon
  · intro byte points
    rw [cell_pointAll] at points
    rw [entry_pointAll]
    split at points
    · simp at points
    · rename_i outside
      rw [if_neg outside, holds.unowned byte points]
  · intro byte shared chosen points
    rw [epsilon_pointAll] at chosen
    rw [cell_pointAll] at points
    rw [entry_pointAll]
    split at points
    · obtain rfl := Option.some.inj points
      rename_i inside
      exact ⟨owner, before chosen, if_pos inside⟩
    · rename_i outside
      obtain ⟨other, less, owned⟩ := holds.earlier byte shared chosen points
      exact ⟨other, Nat.lt_of_lt_of_le less le, by rw [if_neg outside, owned]⟩

theorem Holds.foldlM_claim (holds : draft.Holds claims next)
    (tells : ∀ byte, draft.Tells place owner byte)
    (placed : draft.row.alternatives[place]? = some operations) {later : Nat} (le : next ≤ later)
    (before : draft.epsilon = some place → owner < later) :
    Outcome head (claims ++ [(set, operations)]) later
      (set.toList.foldlM (claim head place owner) draft) := by
  rcases foldlM_claim_cases head set.nodup_toList fun byte _ => tells byte with
    ⟨free, success⟩ | ⟨byte, member, taken, failed⟩
  · rw [success]
    exact holds.pointAll placed free le before
  · rw [failed]
    refine ⟨byte, rfl, fun once => taken ((holds.free byte).mpr fun claim claimed => ?_)⟩
    have apart := (List.pairwise_append.mp once).2.2 claim claimed _ List.mem_cons_self
    simpa [(ByteSet.mem_toList set byte).mp member] using apart

theorem Holds.append_of_isEmpty (holds : draft.Holds claims next)
    (vacant : set.toList.isEmpty = true) : draft.Holds (claims ++ [(set, operations)]) next := by
  have free : ∀ byte ∈ set.toList, draft.row.cell byte = none := by
    simp [List.isEmpty_iff.mp vacant]
  have outside : ∀ byte, set.contains byte = false := by
    intro byte
    rw [← Bool.not_eq_true, ← ByteSet.mem_toList, List.isEmpty_iff.mp vacant]
    exact List.not_mem_nil
  refine { holds with apart := holds.apart_append free, free := ?_, found := ?_ }
  · intro byte
    simp [holds.free byte, or_imp, forall_and, outside byte]
  · intro claim member byte inClaim
    rcases List.mem_append.mp member with earlier | last
    · exact holds.found claim earlier byte inClaim
    · obtain rfl := List.mem_singleton.mp last
      simp [outside byte] at inClaim

theorem Holds.addExpansion (holds : draft.Holds claims next) :
    Outcome head (claims ++ [(set, operations)]) next
      (RowDraft.addExpansion head owner operations set.toList draft) := by
  rw [RowDraft.addExpansion]
  split
  · rename_i vacant
    exact holds.append_of_isEmpty vacant
  · have placed : (draft.push operations).row.alternatives[draft.row.alternatives.size]? =
        some operations := by simp [RowDraft.push, Row.push]
    refine (holds.push operations).foldlM_claim (holds.tells_push operations owner) placed
      (Nat.le_refl next) fun shared => ?_
    have stands := holds.epsilon _ shared
    simp at stands

theorem Holds.addEmptyExpansion (holds : draft.Holds claims next) :
    Outcome head (claims ++ [(set, [])]) (next + 1)
      (RowDraft.addEmptyExpansion head next set.toList draft) := by
  obtain ⟨reserved, shared⟩ := holds.reserveEpsilon
  exact reserved.foldlM_claim (reserved.tells_epsilon shared) (reserved.epsilon _ shared)
    (Nat.le_succ next) fun _ => Nat.lt_succ_self next

end Add

/-! ### The claims of a rule -/

def alternativeClaims {n : Nat} (analysis : Analysis n) (rule : Fin n)
    (symbols : List (ResolvedSymbol n)) : List (ByteSet × List Operation) :=
  let first := Resolved.firstOf analysis.first symbols
  (first.erase endOfInputByte, symbols.filterMap ResolvedSymbol.operation?) ::
    if first.contains endOfInputByte then [(analysis.follow.get rule, [])] else []

section Alternative

variable {n : Nat} {analysis : Analysis n} {rule : Fin n} {draft : RowDraft}
  {claims : List (ByteSet × List Operation)} {next : Nat}

theorem Holds.addAlternative (holds : draft.Holds claims next)
    (symbols : List (ResolvedSymbol n)) :
    Outcome (analysis.grammar.heads.get rule) (claims ++ alternativeClaims analysis rule symbols)
      (next + 1) (RowDraft.addAlternative analysis rule draft (symbols, next)) := by
  rw [alternativeClaims, ← List.singleton_append, ← List.append_assoc]
  refine holds.addExpansion.bind fun between one => ?_
  split
  · exact one.addEmptyExpansion
  · rw [List.append_nil]
    exact one.mono (Nat.le_succ next)

theorem Holds.foldlM_addAlternative (holds : draft.Holds claims next)
    (alternatives : List (List (ResolvedSymbol n))) :
    Outcome (analysis.grammar.heads.get rule)
      (claims ++ alternatives.flatMap (alternativeClaims analysis rule))
      (next + alternatives.length)
      ((alternatives.zipIdx next).foldlM (RowDraft.addAlternative analysis rule) draft) := by
  induction alternatives generalizing draft claims next with
  | nil => simpa [pure, Except.pure, Outcome] using holds
  | cons symbols rest ih =>
      rw [List.flatMap_cons, ← List.append_assoc, List.zipIdx_cons, List.foldlM_cons,
        List.length_cons, Nat.add_comm rest.length, ← Nat.add_assoc]
      exact (holds.addAlternative symbols).bind fun between one => ih one

end Alternative

end RowDraft

namespace Analysis

variable {n : Nat} {analysis : Analysis n}

def claims (analysis : Analysis n) (rule : Fin n) : List (ByteSet × List Operation) :=
  (analysis.grammar.rules.get rule).flatMap (RowDraft.alternativeClaims analysis rule)

/-- A rule has a row that holds what is claimed in it, or a byte that is claimed twice. -/
theorem row_cases (rule : Fin n) :
    (∃ (draft : RowDraft) (next : Nat), analysis.row rule = .ok draft.row ∧
        draft.Holds (analysis.claims rule) next) ∨
      ∃ reason, analysis.row rule = .error reason ∧
        RowDraft.Clashes (analysis.grammar.heads.get rule) (analysis.claims rule) reason := by
  have outcome : RowDraft.Outcome (analysis.grammar.heads.get rule) (analysis.claims rule) _ _ :=
    RowDraft.holds_empty.foldlM_addAlternative (analysis.grammar.rules.get rule)
  rw [row]
  revert outcome
  cases (analysis.grammar.rules.get rule).zipIdx.foldlM (RowDraft.addAlternative analysis rule)
      RowDraft.empty with
  | ok draft => exact fun holds => Or.inl ⟨draft, _, rfl, holds⟩
  | error reason => exact fun clashes => Or.inr ⟨reason, rfl, clashes⟩

theorem exists_draft_of_row {rule : Fin n} {row : Row} (success : analysis.row rule = .ok row) :
    ∃ (draft : RowDraft) (next : Nat), draft.row = row ∧
      draft.Holds (analysis.claims rule) next := by
  rcases analysis.row_cases rule with ⟨draft, next, made, holds⟩ | ⟨reason, failed, _⟩
  · exact ⟨draft, next, Except.ok.inj (made.symm.trans success), holds⟩
  · cases failed.symm.trans success

theorem clashes_of_row {rule : Fin n} {reason : GrammarError}
    (failed : analysis.row rule = .error reason) :
    RowDraft.Clashes (analysis.grammar.heads.get rule) (analysis.claims rule) reason := by
  rcases analysis.row_cases rule with ⟨draft, _, made, _⟩ | ⟨other, refused, clashes⟩
  · cases made.symm.trans failed
  · obtain rfl := Except.error.inj (refused.symm.trans failed)
    exact clashes

theorem exists_row_iff (rule : Fin n) :
    (∃ row, analysis.row rule = .ok row) ↔
      (analysis.claims rule).Pairwise fun left right => left.1.Apart right.1 := by
  constructor
  · rintro ⟨row, success⟩
    obtain ⟨_, _, _, holds⟩ := exists_draft_of_row success
    exact holds.apart
  · intro apart
    rcases analysis.row_cases rule with ⟨draft, _, made, _⟩ | ⟨_, _, byte, _, twice⟩
    · exact ⟨draft.row, made⟩
    · exact absurd (pairwise_apart_iff.mp apart byte) twice

theorem lookup_row_iff {rule : Fin n} {row : Row} (success : analysis.row rule = .ok row)
    (byte : UInt8) (operations : List Operation) :
    row.lookup byte = some operations ↔
      ∃ set, (set, operations) ∈ analysis.claims rule ∧ set.contains byte = true := by
  obtain ⟨draft, next, rfl, holds⟩ := exists_draft_of_row success
  constructor
  · intro found
    obtain ⟨place, points, stands⟩ := Option.bind_eq_some_iff.mp found
    obtain ⟨claim, member, contains, same⟩ := holds.exists_of_cell points
    obtain rfl := Option.some.inj (same.symm.trans stands)
    exact ⟨claim.1, member, contains⟩
  · rintro ⟨set, member, contains⟩
    exact holds.found _ member byte contains

theorem exists_row_iff_claimedOnce (rule : Fin n) :
    (∃ row, analysis.row rule = .ok row) ↔ ∀ byte, ClaimedOnce byte (analysis.claims rule) :=
  (exists_row_iff rule).trans pairwise_apart_iff

theorem table_eq (analysis : Analysis n) :
    analysis.table = do
      let rows ← (List.finRange n).mapM analysis.row
      return Table.ofRows rows :=
  Table.foldlM_insertRow Fin.val analysis.row [] (by simp [List.range_eq_range'])

theorem exists_of_table_eq_error {reason : GrammarError} (failed : analysis.table = .error reason) :
    ∃ rule, RowDraft.Clashes (analysis.grammar.heads.get rule) (analysis.claims rule) reason ∧
      ∀ earlier < rule, ∀ byte, ClaimedOnce byte (analysis.claims earlier) := by
  rw [table_eq] at failed
  rcases bind_eq_error_iff.mp failed with rows | ⟨_, _, impossible⟩
  · obtain ⟨front, rule, back, split, refused, before⟩ := exists_split_of_mapM_eq_error rows
    refine ⟨rule, clashes_of_row refused, fun earlier less => ?_⟩
    have ascending : (front ++ rule :: back).Pairwise (· < ·) :=
      split ▸ List.pairwise_lt_finRange n
    have member : earlier ∈ front ++ rule :: back := split ▸ List.mem_finRange earlier
    refine (exists_row_iff_claimedOnce earlier).mp (before earlier ?_)
    rcases List.mem_append.mp member with inFront | notBefore
    · exact inFront
    · have tail := (List.pairwise_append.mp ascending).2.1
      rcases List.mem_cons.mp notBefore with rfl | behind
      · exact absurd less (Fin.lt_irrefl _)
      · have after := (List.pairwise_cons.mp tail).1 earlier behind
        exact absurd (Fin.lt_trans less after) (Fin.lt_irrefl _)
  · simp [pure, Except.pure] at impossible

end Analysis

end Lookahead
