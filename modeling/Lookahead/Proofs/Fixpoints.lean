import Lookahead.Analysis.Passes
import Lookahead.Proofs.Leastness
import Mathlib.Data.Bool.Basic
import Mathlib.Order.RelClasses

/-!
The loops of the analysis end.  Every update only joins something to an entry, reports a change
exactly if there is one, and uses up room when it does; so the passes settle in the least state
that holds the seeds and that one more pass leaves as it is.
-/

namespace Lookahead

def Rising {σ : Type} (le : σ → σ → Prop) (states : List σ) : Prop :=
  states.Pairwise fun later earlier => le earlier later

namespace Update

variable {σ : Type} {le : σ → σ → Prop} {room : σ → Nat} {update : Update σ}

/-- The update only ever adds, adds the more the more is there, and knows whether it has added
anything. -/
structure Grows (le : σ → σ → Prop) (room : σ → Nat) (update : Update σ) : Prop where
  extends_state : ∀ state, le state (update state).2
  monotone : ∀ {state bound}, le state bound → le (update state).2 (update bound).2
  unchanged : ∀ {state}, (update state).1 = false → (update state).2 = state
  uses_room : ∀ {state}, (update state).1 = true → room (update state).2 < room state

theorem Grows.room_le (grows : update.Grows le room) (state : σ) :
    room (update state).2 ≤ room state := by
  cases report : (update state).1 with
  | false => exact Nat.le_of_eq (congrArg room (grows.unchanged report))
  | true => exact Nat.le_of_lt (grows.uses_room report)

theorem Grows.report_eq_false (grows : update.Grows le room) {state : σ}
    (same : (update state).2 = state) : (update state).1 = false := by
  by_contra reported
  have less := grows.uses_room ((Bool.not_eq_false _).mp reported)
  rw [same] at less
  omega

/-! ### Passes -/

theorem snd_pass_append (front back : List (Update σ)) (state : σ) :
    (pass (front ++ back) state).2 = (pass back (pass front state).2).2 := by
  induction front generalizing state with
  | nil => rfl
  | cons update rest ih => exact ih (update state).2

theorem snd_pass_flatMap {α : Type} (updates : α → List (Update σ)) (items : List α) (state : σ) :
    (pass (items.flatMap updates) state).2 =
      items.foldl (fun state item => (pass (updates item) state).2) state := by
  induction items generalizing state with
  | nil => rfl
  | cons item rest ih => rw [List.flatMap_cons, snd_pass_append, ih, List.foldl_cons]

theorem snd_pass_map {α : Type} (update : α → Update σ) (items : List α) (state : σ) :
    (pass (items.map update) state).2 =
      items.foldl (fun state item => (update item state).2) state := by
  rw [List.map_eq_flatMap, snd_pass_flatMap]
  rfl

theorem Grows.pass [IsPreorder σ le] {updates : List (Update σ)}
    (grow : ∀ update ∈ updates, update.Grows le room) : (pass updates).Grows le room := by
  induction updates with
  | nil =>
      refine ⟨fun state => Std.Refl.refl state, fun within => within, fun _ => rfl, ?_⟩
      intro state reported
      simp [Update.pass] at reported
  | cons update rest ih =>
      obtain ⟨here, later⟩ := List.forall_mem_cons.mp grow
      have rests := ih later
      constructor
      · intro state
        exact IsTrans.trans _ _ _ (here.extends_state state) (rests.extends_state _)
      · intro state bound within
        exact rests.monotone (here.monotone within)
      · intro state reported
        obtain ⟨first, others⟩ := Bool.or_eq_false_iff.mp reported
        exact (rests.unchanged others).trans (here.unchanged first)
      · intro state reported
        have nearer := here.room_le state
        have further := rests.room_le (update state).2
        change room (Update.pass rest (update state).2).2 < room state
        rcases (Bool.or_eq_true _ _).mp reported with first | others
        · have less := here.uses_room first
          omega
        · have less := rests.uses_room others
          omega

/-! ### Recording -/

theorem pass_recorded (updates : List (Update σ)) (state : σ) (before : List σ) :
    ∃ earlier, pass (updates.map recorded) (state, before) =
      ((pass updates state).1, (pass updates state).2, earlier) := by
  induction updates generalizing state before with
  | nil => exact ⟨before, rfl⟩
  | cons update rest ih =>
      obtain ⟨earlier, passed⟩ := ih (update state).2 (state :: before)
      refine ⟨earlier, ?_⟩
      simp only [List.map_cons, pass, recorded, passed]

theorem whileChanged_recorded {updates : List (Update σ)} {rounds : Nat} {state final : σ}
    (ended : whileChanged (pass updates) rounds state = some final) (before : List σ) :
    ∃ earlier, whileChanged (pass (updates.map recorded)) rounds (state, before) =
      some (final, earlier) := by
  induction rounds generalizing state before with
  | zero => simp [whileChanged] at ended
  | succ rounds ih =>
      obtain ⟨between, passed⟩ := pass_recorded updates state before
      rw [whileChanged] at ended
      simp only [whileChanged, passed]
      split at ended
      · rename_i reported
        obtain ⟨earlier, later⟩ := ih ended between
        exact ⟨earlier, by simpa only [reported, if_true] using later⟩
      · rename_i quiet
        refine ⟨between, ?_⟩
        rw [if_neg quiet, Option.some.inj ended]

theorem whileChanged_induction {rounds : Nat} {state final : σ} (holds : σ → Prop)
    (preserved : ∀ state, holds state → holds (update state).2) (base : holds state)
    (ended : whileChanged update rounds state = some final) : holds final := by
  induction rounds generalizing state with
  | zero => simp [whileChanged] at ended
  | succ rounds ih =>
      rw [whileChanged] at ended
      split at ended
      · exact ih (preserved state base) ended
      · rw [← Option.some.inj ended]
        exact preserved state base

theorem pass_induction {updates : List (Update σ)} (holds : σ → Prop)
    (preserved : ∀ update ∈ updates, ∀ state, holds state → holds (update state).2) (state : σ)
    (base : holds state) : holds (pass updates state).2 := by
  induction updates generalizing state with
  | nil => exact base
  | cons update rest ih =>
      obtain ⟨here, later⟩ := List.forall_mem_cons.mp preserved
      exact ih later _ (here state base)

theorem Grows.rising_recorded [IsPreorder σ le] (grows : update.Grows le room)
    {state : σ} {before : List σ} (rising : Rising le (state :: before)) :
    Rising le ((recorded update (state, before)).2.1 :: (recorded update (state, before)).2.2) := by
  have added := grows.extends_state state
  refine List.pairwise_cons.mpr ⟨?_, rising⟩
  intro earlier among
  rcases List.mem_cons.mp among with rfl | older
  · exact added
  · exact IsTrans.trans _ _ _ ((List.pairwise_cons.mp rising).1 earlier older) added

/-! ### Loops -/

/-- Where the room left in a state bounds the rounds, the loop ends, and it ends where repeating
the same step until it changes nothing does. -/
theorem Grows.whileChanged_eq_untilStable [DecidableEq σ] (grows : update.Grows le room)
    {step : σ → σ} (steps : ∀ state, (update state).2 = step state)
    (shrinks : ∀ state, Shrinks room state (step state)) {rounds : Nat} {state : σ}
    (enough : room state < rounds) :
    whileChanged update rounds state = some (untilStable room step shrinks state) := by
  induction rounds generalizing state with
  | zero => omega
  | succ rounds ih =>
      rw [whileChanged, untilStable, steps]
      by_cases reported : (update state).1 = true
      · have less := grows.uses_room reported
        rw [steps] at less
        have moved : step state ≠ state := by
          intro same
          rw [same] at less
          omega
        rw [if_pos reported, dif_neg moved]
        exact ih (by omega)
      · have same := grows.unchanged ((Bool.not_eq_true _).mp reported)
        rw [steps] at same
        rw [if_neg reported, dif_pos same, same]

end Update

/-- The loop over these updates ends within the limit of rounds.  Every state that it goes through
holds all the ones before, and the last one is the least of those that hold the seeds and that a
further pass leaves as they are. -/
structure Settles {σ : Type} (le : σ → σ → Prop) (updates : List (Update σ)) (limit : Nat)
    (seeds final : σ) : Prop where
  ends : Update.whileChanged (Update.pass updates) limit seeds = some final
  rises : ∃ before, Update.whileChanged (Update.pass (updates.map Update.recorded)) limit
    (seeds, []) = some (final, before) ∧ Rising le (final :: before)
  seeded : le seeds final
  stable : Update.pass updates final = (false, final)
  least : ∀ bound, le seeds bound → (Update.pass updates bound).2 = bound → le final bound

theorem settles_untilStable {σ : Type} [DecidableEq σ] {le : σ → σ → Prop} [IsPreorder σ le]
    {room : σ → Nat} {updates : List (Update σ)} {step : σ → σ}
    (grow : ∀ update ∈ updates, update.Grows le room)
    (steps : ∀ state, (Update.pass updates state).2 = step state)
    (shrinks : ∀ state, Shrinks room state (step state)) {most : Nat} {seeds : σ}
    (fits : room seeds ≤ most) :
    Settles le updates (most + 1) seeds (untilStable room step shrinks seeds) := by
  have grows := Update.Grows.pass grow
  have settled := step_untilStable room step shrinks seeds
  rw [← steps] at settled
  have ended := grows.whileChanged_eq_untilStable steps shrinks (Nat.lt_succ_of_le fits)
  refine ⟨ended, ?_, ?_, ?_, ?_⟩
  · obtain ⟨before, recorded⟩ := Update.whileChanged_recorded ended []
    refine ⟨before, recorded, ?_⟩
    refine Update.whileChanged_induction
      (fun state : σ × List σ => Rising le (state.1 :: state.2)) ?_ ?_ recorded
    · apply Update.pass_induction
      intro update among
      obtain ⟨plain, member, rfl⟩ := List.mem_map.mp among
      rintro ⟨state, before⟩ rising
      exact (grow plain member).rising_recorded rising
    · exact List.pairwise_singleton _ _
  · refine untilStable_induction shrinks (le seeds) ?_ seeds (Std.Refl.refl seeds)
    intro state within
    rw [← steps]
    exact IsTrans.trans _ _ _ within (grows.extends_state state)
  · exact Prod.ext (grows.report_eq_false settled) settled
  · intro bound seeded closed
    refine untilStable_induction shrinks (le · bound) ?_ seeds seeded
    intro state within
    rw [← steps, ← closed]
    exact grows.monotone within

/-! ### Updates of one entry -/

section Joining

variable {α : Type} {n : Nat}

def Entrywise (le : α → α → Prop) (left right : Vector α n) : Prop :=
  ∀ index, le (left.get index) (right.get index)

structure Joins (le : α → α → Prop) (join : α → α → α) (room : α → Nat) : Prop where
  le_left : ∀ value added, le value (join value added)
  monotone : ∀ {value added other extra}, le value other → le added extra →
    le (join value added) (join other extra)
  shrinks : ∀ value added, Shrinks room value (join value added)

variable {le : α → α → Prop} {join : α → α → α} {room : α → Nat}

instance [IsPreorder α le] : IsPreorder (Vector α n) (Entrywise le) where
  refl values index := Std.Refl.refl (values.get index)
  trans _ _ _ one two index := IsTrans.trans _ _ _ (one index) (two index)

theorem raise_eq_of_join_eq {values : Vector α n} {index : Fin n} {added : α}
    (same : join (values.get index) added = values.get index) :
    raise join values index added = values := by
  rw [raise, same]
  exact Vector.set_getElem_self _

theorem grows_joining [DecidableEq α] [IsPreorder α le] (joins : Joins le join room) (index : Fin n)
    {added : Vector α n → α}
    (monotone : ∀ {values bound}, Entrywise le values bound → le (added values) (added bound)) :
    (Update.joining join index added).Grows (Entrywise le) (totalRoom room) := by
  have result (values : Vector α n) :
      (Update.joining join index added values).2 = raise join values index (added values) := rfl
  constructor
  · intro values other
    rw [result, get_raise]
    split
    · rename_i here
      subst here
      exact joins.le_left _ _
    · exact Std.Refl.refl _
  · intro values bound within other
    rw [result, result, get_raise, get_raise]
    split
    · exact joins.monotone (within index) (monotone within)
    · exact within other
  · intro values quiet
    exact raise_eq_of_join_eq (bne_eq_false_iff_eq.mp quiet)
  · intro values reported
    rcases shrinks_raise join room joins.shrinks values index (added values) with same | less
    · exact absurd (join_eq_of_raise_eq same) (bne_iff_ne.mp reported)
    · exact less

theorem totalRoom_le {most : Nat} (bounded : ∀ value, room value ≤ most) (values : Vector α n) :
    totalRoom room values ≤ most * n := by
  have below : ∀ items : List α, roomOf room items ≤ most * items.length := by
    intro items
    induction items with
    | nil => exact Nat.zero_le _
    | cons value rest ih =>
        have here := bounded value
        rw [roomOf, List.length_cons, Nat.mul_succ]
        omega
  simpa [totalRoom] using below values.toList

end Joining

/-! ### Sets of bytes, and marks -/

instance : HasSubset ByteSet :=
  ⟨fun left right => ∀ byte, left.contains byte = true → right.contains byte = true⟩

instance : IsPreorder ByteSet (· ⊆ ·) where
  refl _ _ member := member
  trans _ _ _ one two byte member := two byte (one byte member)

theorem ByteSet.contains_union_iff {left right : ByteSet} {byte : UInt8} :
    (left.union right).contains byte = true ↔
      left.contains byte = true ∨ right.contains byte = true := by
  change (left ∪ right).contains byte = true ↔ _
  rw [ByteSet.contains_union, Bool.or_eq_true]

theorem joins_union : Joins (· ⊆ ·) ByteSet.union ByteSet.room where
  le_left _ _ _ member := ByteSet.contains_union_iff.mpr (Or.inl member)
  monotone one two byte member :=
    ByteSet.contains_union_iff.mpr
      ((ByteSet.contains_union_iff.mp member).imp (one byte) (two byte))
  shrinks := Resolved.shrinks_union

theorem joins_or : Joins (· ≤ ·) or Resolved.markRoom where
  le_left := by decide
  monotone := by decide
  shrinks value added := by
    cases value <;> cases added <;> simp [Shrinks, Resolved.markRoom]

theorem ByteSet.union_assoc (one two three : ByteSet) :
    (one.union two).union three = one.union (two.union three) :=
  congrArg ByteSet.mk (BitVec.or_assoc one.bits two.bits three.bits)

theorem ByteSet.union_empty (set : ByteSet) : set.union ∅ = set :=
  congrArg ByteSet.mk BitVec.or_zero

theorem ByteSet.room_le (set : ByteSet) : set.room ≤ 256 := by
  have length : allBytes.length = 256 := by
    rw [allBytes, List.length_map, List.length_range]
  rw [← length]
  exact List.countP_le_length

namespace Resolved

variable {n : Nat}

theorem markRoom_le (marked : Bool) : markRoom marked ≤ 1 := by
  cases marked <;> decide

/-! ### Marking -/

theorem nullableUpdate_eq_joining (production : Fin n × List (ResolvedSymbol n)) :
    nullableUpdate production =
      Update.joining or production.1 (allNullable · production.2) := by
  funext nullable
  rw [nullableUpdate, Update.joining]
  have kept : nullable.set production.1.val (nullable.get production.1) production.1.isLt =
      nullable := Vector.set_getElem_self _
  cases marked : nullable.get production.1 with
  | true =>
      rw [marked] at kept
      simp [kept]
  | false =>
      rw [marked] at kept
      cases all : allNullable nullable production.2 <;> simp [kept]

theorem snd_pass_nullableUpdates (grammar : Resolved n) (nullable : Vector Bool n) :
    (Update.pass grammar.nullableUpdates nullable).2 = grammar.nullablePass nullable := by
  rw [nullableUpdates, Update.snd_pass_map]
  simp only [nullableUpdate_eq_joining]
  rfl

theorem grows_nullableUpdate (production : Fin n × List (ResolvedSymbol n)) :
    (nullableUpdate production).Grows (Entrywise (· ≤ ·)) (totalRoom markRoom) := by
  rw [nullableUpdate_eq_joining]
  apply grows_joining joins_or
  intro marked bound within
  exact allNullable_of_within within

/-! ### FIRST -/

theorem snd_pass_firstUpdates (grammar : Resolved n) (first : Vector ByteSet n) :
    (Update.pass grammar.firstUpdates first).2 = grammar.firstPass first := by
  rw [firstUpdates, Update.snd_pass_map]
  rfl

theorem grows_firstUpdate (production : Fin n × List (ResolvedSymbol n)) :
    (firstUpdate production).Grows (Entrywise (· ⊆ ·)) (totalRoom ByteSet.room) := by
  apply grows_joining joins_union
  intro first bound within byte member
  exact Within.firstOf within production.2 member

/-! ### FOLLOW -/

theorem raise_raise_union (sets : Vector ByteSet n) (index : Fin n) (one two : ByteSet) :
    raise ByteSet.union (raise ByteSet.union sets index one) index two =
      raise ByteSet.union sets index (one.union two) := by
  rw [raise, get_raise, if_pos rfl, ByteSet.union_assoc]
  exact Vector.set_set _ _

theorem snd_pass_followUpdatesAt (ahead : ByteSet) (owner index : Fin n)
    (follow : Vector ByteSet n) :
    (Update.pass (followUpdatesAt ahead owner index) follow).2 =
      raise ByteSet.union follow index ((ahead.erase endOfInputByte).union
        (if ahead.contains endOfInputByte ∧ index ≠ owner then follow.get owner else ∅)) := by
  rw [followUpdatesAt]
  by_cases inherits : ahead.contains endOfInputByte = true ∧ index ≠ owner
  · have kept : (raise ByteSet.union follow index (ahead.erase endOfInputByte)).get owner =
        follow.get owner := by
      rw [get_raise, if_neg (Ne.symm inherits.2)]
    rw [if_pos inherits, if_pos inherits, ← raise_raise_union, ← kept]
    rfl
  · rw [if_neg inherits, if_neg inherits, ByteSet.union_empty]
    rfl

theorem snd_pass_followUpdatesOf (first : Vector ByteSet n) (owner : Fin n)
    (symbols : List (ResolvedSymbol n)) (follow : Vector ByteSet n) :
    (Update.pass (followUpdatesOf first owner symbols) follow).2 =
      extendFollow first owner follow symbols := by
  fun_induction extendFollow first owner follow symbols with
  | case1 => rfl
  | case2 follow index rest ahead inherited added ih =>
      rw [followUpdatesOf, Update.snd_pass_append, snd_pass_followUpdatesAt]
      exact ih
  | case3 follow rest bytes ih => exact ih
  | case4 follow rest ih => exact ih
  | case5 follow rest ih => exact ih

theorem snd_pass_followUpdates (grammar : Resolved n) (first follow : Vector ByteSet n) :
    (Update.pass (grammar.followUpdates first) follow).2 = grammar.followPass first follow := by
  rw [followUpdates, Update.snd_pass_flatMap]
  simp only [snd_pass_followUpdatesOf]
  rfl

theorem grows_of_mem_followUpdatesAt {ahead : ByteSet} {owner index : Fin n}
    {update : Update (Vector ByteSet n)} (among : update ∈ followUpdatesAt ahead owner index) :
    update.Grows (Entrywise (· ⊆ ·)) (totalRoom ByteSet.room) := by
  have begun : (Update.joining ByteSet.union index fun _ => ahead.erase endOfInputByte).Grows
      (Entrywise (· ⊆ ·)) (totalRoom ByteSet.room) := by
    apply grows_joining joins_union
    intro follow bound within
    exact Std.Refl.refl _
  rw [followUpdatesAt] at among
  split at among
  · rcases List.mem_pair.mp among with rfl | rfl
    · exact begun
    · apply grows_joining joins_union
      intro follow bound within
      exact within owner
  · obtain rfl := List.mem_singleton.mp among
    exact begun

theorem grows_of_mem_followUpdatesOf {first : Vector ByteSet n} {owner : Fin n}
    {symbols : List (ResolvedSymbol n)} {update : Update (Vector ByteSet n)}
    (among : update ∈ followUpdatesOf first owner symbols) :
    update.Grows (Entrywise (· ⊆ ·)) (totalRoom ByteSet.room) := by
  induction symbols with
  | nil => simp [followUpdatesOf] at among
  | cons symbol rest ih =>
      cases symbol with
      | rule index =>
          rw [followUpdatesOf, List.mem_append] at among
          rcases among with here | later
          · exact grows_of_mem_followUpdatesAt here
          · exact ih later
      | _ => exact ih among

/-- For every resolved grammar, which is what a grammar that passes its checks becomes, the three
loops of the analysis settle in what the analysis works with, after at most one pass for each
change that there is room for and one more. -/
theorem analysis_loops_settle (grammar : Resolved n) :
    Settles (Entrywise (· ≤ ·)) grammar.nullableUpdates (n + 1) (Vector.replicate n false)
      grammar.nullableRules ∧
    (∀ nullable, Settles (Entrywise (· ⊆ ·)) grammar.firstUpdates (256 * n + 1)
      (firstSeeds nullable) (grammar.firstSets nullable)) ∧
    ∀ first, Settles (Entrywise (· ⊆ ·)) (grammar.followUpdates first) (256 * n + 1)
      (followSeeds n) (grammar.followSets first) := by
  refine ⟨?_, ?_, ?_⟩
  · apply settles_untilStable
    · intro update among
      obtain ⟨production, _, rfl⟩ := List.mem_map.mp among
      exact grows_nullableUpdate production
    · exact grammar.snd_pass_nullableUpdates
    · simpa using totalRoom_le markRoom_le (Vector.replicate n false)
  · intro nullable
    apply settles_untilStable
    · intro update among
      obtain ⟨production, _, rfl⟩ := List.mem_map.mp among
      exact grows_firstUpdate production
    · exact grammar.snd_pass_firstUpdates
    · exact totalRoom_le ByteSet.room_le _
  · intro first
    apply settles_untilStable
    · intro update among
      obtain ⟨production, _, within⟩ := List.mem_flatMap.mp among
      exact grows_of_mem_followUpdatesOf within
    · exact grammar.snd_pass_followUpdates first
    · exact totalRoom_le ByteSet.room_le _

end Resolved

end Lookahead
