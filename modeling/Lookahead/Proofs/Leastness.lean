import Lookahead.Proofs.Prediction

/-!
The analysis finds no more than it has to.  Whatever holds the seeds of one of its repetitions
and is closed under the alternatives of the grammar holds all that the repetition ends with.
-/

namespace Lookahead.Resolved

variable {n : Nat} {grammar : Resolved n}

/-! ### Rules that may be empty -/

/-- A rule is marked where every symbol of one of its alternatives is. -/
def NullableClosed (grammar : Resolved n) (marked : Vector Bool n) : Prop :=
  ∀ index, ∀ symbols ∈ grammar.rules.get index,
    allNullable marked symbols = true → marked.get index = true

theorem allNullable_of_within {marked bound : Vector Bool n}
    (within : ∀ index, marked.get index = true → bound.get index = true)
    {symbols : List (ResolvedSymbol n)} (all : allNullable marked symbols = true) :
    allNullable bound symbols = true := by
  rw [allNullable, List.all_eq_true] at all ⊢
  intro symbol member
  have here := all symbol member
  cases symbol with
  | rule index => exact within index here
  | _ => exact here

theorem nullableRules_least {bound : Vector Bool n} (closed : grammar.NullableClosed bound) :
    ∀ index, grammar.nullableRules.get index = true → bound.get index = true := by
  refine untilStable_induction _ (fun marked : Vector Bool n =>
    ∀ index, marked.get index = true → bound.get index = true) ?_ _ (by simp [Vector.get])
  intro marked within
  refine foldl_induction (fun marked : Vector Bool n =>
    ∀ index, marked.get index = true → bound.get index = true) ?_ marked within
  rintro marked ⟨owner, symbols⟩ member within
  refine forall_get_raise (fun index marked => marked = true → bound.get index = true) within
    fun before joined => ?_
  rcases (Bool.or_eq_true _ _).mp joined with already | all
  · exact before already
  · exact closed owner symbols (mem_productions.mp member) (allNullable_of_within within all)

/-! ### FIRST -/

/-- Every set is within the bound of its rule. -/
def Within (sets bounds : Vector ByteSet n) : Prop :=
  ∀ index byte, (sets.get index).contains byte = true → (bounds.get index).contains byte = true

theorem Within.firstOf {first bound : Vector ByteSet n} (within : Within first bound)
    (symbols : List (ResolvedSymbol n)) {byte : UInt8}
    (member : (Resolved.firstOf first symbols).contains byte = true) :
    (Resolved.firstOf bound symbols).contains byte = true := by
  induction symbols with
  | nil => simpa using member
  | cons symbol rest ih =>
      cases symbol with
      | terminal bytes => simpa using member
      | endOfLine => simpa using member
      | empty => simpa using member
      | rule index =>
          rw [contains_firstOf_rule] at member ⊢
          rcases member with ⟨here, different⟩ | ⟨nullable, later⟩
          · exact Or.inl ⟨within index byte here, different⟩
          · exact Or.inr ⟨within index _ nullable, ih later⟩

/-- What is joined to a set within its bound is within it, if what is added is. -/
theorem Within.raise {sets bound : Vector ByteSet n} (within : Within sets bound) {index : Fin n}
    {added : ByteSet}
    (addedWithin : ∀ byte, added.contains byte = true → (bound.get index).contains byte = true) :
    Within (raise ByteSet.union sets index added) bound := by
  refine forall_get_raise (fun index (set : ByteSet) =>
    ∀ byte, set.contains byte = true → (bound.get index).contains byte = true) within ?_
  intro before byte member
  have either := (ByteSet.contains_union (sets.get index) added byte).symm.trans member
  rcases (Bool.or_eq_true _ _).mp either with old | new
  · exact before byte old
  · exact addedWithin byte new

theorem firstSets_least {marked : Vector Bool n} {bound : Vector ByteSet n}
    (seeded : ∀ index, marked.get index = true →
      (bound.get index).contains endOfInputByte = true)
    (closed : grammar.FirstClosed bound) : Within (grammar.firstSets marked) bound := by
  refine untilStable_induction _ (Within · bound) ?_ _ ?_
  · intro first within
    refine foldl_induction (Within · bound) ?_ first within
    rintro first ⟨owner, symbols⟩ member within
    exact within.raise fun byte added =>
      closed owner symbols (mem_productions.mp member) byte (within.firstOf symbols added)
  · intro index byte member
    rw [get_firstSeeds] at member
    split at member
    · rename_i nullable
      obtain rfl := List.mem_singleton.mp (ByteSet.contains_ofList_iff.mp member)
      exact seeded index nullable
    · simp at member

theorem contains_get_firstPass {first : Vector ByteSet n} {index : Fin n} {byte : UInt8}
    (member : (first.get index).contains byte = true) :
    ((grammar.firstPass first).get index).contains byte = true := by
  refine foldl_induction (fun first : Vector ByteSet n =>
    (first.get index).contains byte = true) ?_ first member
  intro first production _ member
  exact ByteSet.contains_get_raise production.1 _ member

theorem firstSets_seeded (grammar : Resolved n) {marked : Vector Bool n} {index : Fin n}
    (nullable : marked.get index = true) :
    ((grammar.firstSets marked).get index).contains endOfInputByte = true := by
  refine untilStable_induction grammar.shrinks_firstPass
    (fun first : Vector ByteSet n => (first.get index).contains endOfInputByte = true)
    (fun first member => contains_get_firstPass member) (firstSeeds marked) ?_
  rw [get_firstSeeds, if_pos nullable]
  exact ByteSet.contains_ofList_iff.mpr List.mem_cons_self

/-! ### FOLLOW -/

theorem Within.predicts {first bound : Vector ByteSet n} (within : Within first bound)
    {after : ByteSet} {symbols : List (ResolvedSymbol n)} {byte : UInt8}
    (predicts : Predicts first after symbols byte) : Predicts bound after symbols byte :=
  predicts.imp (And.imp_left (within.firstOf symbols)) (And.imp_left (within.firstOf symbols))

/-- What is closed for FIRST sets is closed for all sets within them. -/
theorem Within.followed {first bound follow : Vector ByteSet n} (within : Within first bound)
    {after : ByteSet} {symbols : List (ResolvedSymbol n)}
    (followed : Followed bound follow after symbols) : Followed first follow after symbols := by
  induction symbols with
  | nil => trivial
  | cons symbol rest ih =>
      cases symbol with
      | rule index =>
          exact ⟨fun byte predicts => followed.1 byte (within.predicts predicts), ih followed.2⟩
      | _ => exact ih followed

theorem extendFollow_within {first follow bound : Vector ByteSet n} {owner : Fin n}
    {symbols : List (ResolvedSymbol n)} (followed : Followed first bound (bound.get owner) symbols)
    (within : Within follow bound) : Within (extendFollow first owner follow symbols) bound := by
  fun_induction extendFollow first owner follow symbols with
  | case1 => exact within
  | case2 follow index rest ahead inherited added ih =>
      refine ih followed.2 (within.raise fun byte member => followed.1 byte ?_)
      have either := (ByteSet.contains_union _ _ byte).symm.trans member
      rcases (Bool.or_eq_true _ _).mp either with begins | follows
      · simp only [ByteSet.contains_erase, Bool.and_eq_true, Bool.not_eq_true',
          beq_eq_false_iff_ne] at begins
        exact Or.inl ⟨begins.1, Ne.symm begins.2⟩
      · simp only [inherited] at follows
        split at follows
        · rename_i nullable
          exact Or.inr ⟨nullable.1, within owner byte follows⟩
        · simp at follows
  | case3 follow rest bytes ih => exact ih followed within
  | case4 follow rest ih => exact ih followed within
  | case5 follow rest ih => exact ih followed within

theorem followSets_least {first bound : Vector ByteSet n}
    (seeded : ∀ index : Fin n, index.val = 0 →
      (bound.get index).contains endOfInputByte = true)
    (closed : grammar.FollowClosed first bound) : Within (grammar.followSets first) bound := by
  refine untilStable_induction _ (Within · bound) ?_ _ ?_
  · intro follow within
    refine foldl_induction (Within · bound) ?_ follow within
    rintro follow ⟨owner, symbols⟩ member within
    exact extendFollow_within (closed owner symbols (mem_productions.mp member)) within
  · intro index byte member
    rw [get_followSeeds] at member
    split at member
    · rename_i start
      obtain rfl := List.mem_singleton.mp (ByteSet.contains_ofList_iff.mp member)
      exact seeded index start
    · simp at member

end Lookahead.Resolved
