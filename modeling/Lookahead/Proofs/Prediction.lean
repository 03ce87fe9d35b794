import Lookahead.Analysis.Follow
import Lookahead.Proofs.Nullability

/-!
What the FIRST and FOLLOW sets promise.  The byte ahead of a text that symbols derive is one that
they predict, and the byte after the text of a rule is in its FOLLOW set.
-/

namespace Lookahead

theorem ByteSet.contains_ofList_iff {bytes : List UInt8} {byte : UInt8} :
    (ByteSet.ofList bytes).contains byte = true ↔ byte ∈ bytes := by
  rw [ByteSet.contains_ofList, List.contains_iff_mem]

theorem ByteSet.contains_get_raise {n : Nat} {sets : Vector ByteSet n} {index : Fin n}
    (changed : Fin n) (added : ByteSet) {byte : UInt8}
    (member : (sets.get index).contains byte = true) :
    ((raise ByteSet.union sets changed added).get index).contains byte = true := by
  rw [get_raise]
  split
  · rename_i same
    subst same
    change (sets.get index ∪ added).contains byte = true
    simp [member]
  · exact member

namespace Resolved

variable {n : Nat} {grammar : Resolved n} {first follow : Vector ByteSet n}

/-! ### FIRST -/

@[simp] theorem contains_firstOf_nil (byte : UInt8) :
    (firstOf first []).contains byte = true ↔ byte = endOfInputByte := by
  simp [firstOf, ByteSet.contains_ofList_iff]

@[simp] theorem contains_firstOf_empty (rest : List (ResolvedSymbol n)) (byte : UInt8) :
    (firstOf first (.empty :: rest)).contains byte = true ↔ byte = endOfInputByte := by
  simp [firstOf, ByteSet.contains_ofList_iff]

@[simp] theorem contains_firstOf_endOfLine (rest : List (ResolvedSymbol n)) (byte : UInt8) :
    (firstOf first (.endOfLine :: rest)).contains byte = true ↔ byte = 10 ∨ byte = 13 := by
  simp [firstOf, endOfLineFirst, ByteSet.contains_ofList_iff]

@[simp] theorem contains_firstOf_terminal (bytes : List UInt8) (rest : List (ResolvedSymbol n))
    (byte : UInt8) :
    (firstOf first (.terminal bytes :: rest)).contains byte = true ↔
      bytes.head? = some byte := by
  rw [firstOf, ByteSet.contains_ofList_iff]
  cases bytes <;> simp [eq_comm]

@[simp] theorem contains_firstOf_rule (index : Fin n) (rest : List (ResolvedSymbol n))
    (byte : UInt8) :
    (firstOf first (.rule index :: rest)).contains byte = true ↔
      ((first.get index).contains byte = true ∧ byte ≠ endOfInputByte) ∨
        ((first.get index).contains endOfInputByte = true ∧
          (firstOf first rest).contains byte = true) := by
  have distinct : (endOfInputByte == byte) = false ↔ byte ≠ endOfInputByte := by
    rw [beq_eq_false_iff_ne, ne_comm]
  simp only [firstOf]
  split
  · rename_i nullable
    simp [nullable, distinct]
  · rename_i solid
    simp [solid, distinct]

def FirstClosed (grammar : Resolved n) (first : Vector ByteSet n) : Prop :=
  ∀ index, ∀ symbols ∈ grammar.rules.get index, ∀ byte,
    (firstOf first symbols).contains byte = true → (first.get index).contains byte = true

/-- The reserved byte in a FIRST set says that the rule derives the empty text. -/
def FirstMarksNullable (grammar : Resolved n) (first : Vector ByteSet n) : Prop :=
  ∀ index, (first.get index).contains endOfInputByte = true → grammar.Nullable [.rule index]

theorem nullable_of_contains_firstOf (marks : grammar.FirstMarksNullable first)
    {symbols : List (ResolvedSymbol n)} (proper : Proper symbols)
    (contains : (firstOf first symbols).contains endOfInputByte = true) :
    grammar.Nullable symbols := by
  induction symbols with
  | nil => exact ⟨[], .nil⟩
  | cons symbol rest ih =>
      cases symbol with
      | terminal bytes =>
          rw [contains_firstOf_terminal] at contains
          exact absurd (List.mem_of_head? contains) proper.2.1
      | endOfLine => simp [endOfInputByte] at contains
      | empty =>
          obtain rfl : rest = [] := proper
          exact ⟨[.empty], .empty .nil⟩
      | rule index =>
          rcases (contains_firstOf_rule _ _ _).mp contains with ⟨_, different⟩ | ⟨here, later⟩
          · exact absurd rfl different
          · exact (marks index here).append (ih proper later)

theorem firstMarksNullable_firstPass (wellFormed : grammar.WellFormed)
    (marks : grammar.FirstMarksNullable first) :
    grammar.FirstMarksNullable (grammar.firstPass first) := by
  refine foldl_induction grammar.FirstMarksNullable ?_ first marks
  rintro first ⟨owner, symbols⟩ member marks
  have chosen := mem_productions.mp member
  refine forall_get_raise
    (fun index (set : ByteSet) =>
      set.contains endOfInputByte = true → grammar.Nullable [.rule index])
    marks fun before joined => ?_
  have either := (ByteSet.contains_union (first.get owner) (firstOf first symbols) _).symm.trans
    joined
  rcases (Bool.or_eq_true _ _).mp either with already | contains
  · exact before already
  · exact nullable_rule_of_alternative chosen
      (nullable_of_contains_firstOf marks (wellFormed owner symbols chosen) contains)

theorem get_firstSeeds (nullable : Vector Bool n) (index : Fin n) :
    (firstSeeds nullable).get index =
      if nullable.get index then ByteSet.ofList [endOfInputByte] else ∅ := by
  change (nullable.map _)[index.val] = _
  rw [Vector.getElem_map]
  rfl

theorem get_followSeeds (index : Fin n) :
    (followSeeds n).get index =
      if index.val = 0 then ByteSet.ofList [endOfInputByte] else ∅ := by
  change (Vector.ofFn _)[index.val] = _
  rw [Vector.getElem_ofFn]

theorem firstMarksNullable_firstSets (wellFormed : grammar.WellFormed) :
    grammar.FirstMarksNullable (grammar.firstSets grammar.nullableRules) := by
  refine untilStable_induction _ grammar.FirstMarksNullable
    (fun _ => firstMarksNullable_firstPass wellFormed) _ ?_
  intro index contains
  refine grammar.marksNullable_nullableRules index ?_
  by_contra unmarked
  simp [get_firstSeeds, unmarked] at contains

theorem shrinks_extendFirst (first : Vector ByteSet n)
    (production : Fin n × List (ResolvedSymbol n)) :
    Shrinks (totalRoom ByteSet.room) first (extendFirst first production) :=
  shrinks_raise ByteSet.union ByteSet.room shrinks_union first production.1 _

theorem shrinks_extendFollowBy (first follow : Vector ByteSet n)
    (production : Fin n × List (ResolvedSymbol n)) :
    Shrinks (totalRoom ByteSet.room) follow (extendFollowBy first follow production) :=
  shrinks_extendFollow first production.1 production.2 follow

theorem firstClosed_firstSets (grammar : Resolved n) (nullable : Vector Bool n) :
    grammar.FirstClosed (grammar.firstSets nullable) := by
  intro index symbols chosen byte contains
  have stable : grammar.firstPass (grammar.firstSets nullable) = grammar.firstSets nullable :=
    step_untilStable _ _ _ _
  have unchanged := change_eq_of_foldl_eq shrinks_extendFirst stable _
    (mem_productions.mpr chosen)
  exact ByteSet.contains_of_union_eq (join_eq_of_raise_eq unchanged) contains

/-- A text that symbols derive begins with a byte of their FIRST set; the reserved byte is in it
where the text is empty. -/
theorem contains_firstOf_of_derives (wellFormed : grammar.WellFormed)
    (closed : grammar.FirstClosed first) {symbols trees text}
    (derives : grammar.Derives symbols trees text) (proper : Proper symbols) :
    (firstOf first symbols).contains (text.headD endOfInputByte) = true := by
  induction derives with
  | nil => simp
  | @terminal _ _ text bytes _ _ =>
      obtain ⟨byte, rest, rfl⟩ := List.exists_cons_of_ne_nil proper.1
      simp
  | empty _ _ =>
      obtain rfl : _ = [] := proper
      rename_i derives _
      cases derives
      simp
  | lineFeed => simp
  | carriageReturn => simp
  | @rule symbols _ text index _ _ inner chosen innerDerives _ innerIh ih =>
      have inside := closed index _ chosen _ (innerIh (wellFormed _ _ chosen))
      rw [contains_firstOf_rule]
      cases inner with
      | nil => exact Or.inr ⟨inside, ih proper⟩
      | cons byte inner =>
          have unreserved := innerDerives.reserved_not_mem wellFormed (wellFormed _ _ chosen)
          refine Or.inl ⟨inside, ?_⟩
          rintro rfl
          simp at unreserved

/-! ### FOLLOW -/

/-- The byte can be ahead where the symbols are still to come and a byte of the set comes after
them. -/
def Predicts (first : Vector ByteSet n) (after : ByteSet) (symbols : List (ResolvedSymbol n))
    (byte : UInt8) : Prop :=
  ((firstOf first symbols).contains byte = true ∧ byte ≠ endOfInputByte) ∨
    ((firstOf first symbols).contains endOfInputByte = true ∧ after.contains byte = true)

def Followed (first follow : Vector ByteSet n) (after : ByteSet) :
    List (ResolvedSymbol n) → Prop
  | [] => True
  | .rule index :: rest =>
      (∀ byte, Predicts first after rest byte → (follow.get index).contains byte = true) ∧
        Followed first follow after rest
  | .terminal _ :: rest | .endOfLine :: rest | .empty :: rest => Followed first follow after rest

def FollowClosed (grammar : Resolved n) (first follow : Vector ByteSet n) : Prop :=
  ∀ index, ∀ symbols ∈ grammar.rules.get index, Followed first follow (follow.get index) symbols

theorem followed_of_extendFollow_eq {owner : Fin n} {symbols : List (ResolvedSymbol n)}
    (stable : extendFollow first owner follow symbols = follow) :
    Followed first follow (follow.get owner) symbols := by
  induction symbols with
  | nil => trivial
  | cons symbol rest ih =>
      cases symbol with
      | terminal bytes => exact ih stable
      | endOfLine => exact ih stable
      | empty => exact ih stable
      | rule index =>
          simp only [extendFollow] at stable
          generalize addedIs : ((firstOf first rest).erase endOfInputByte).union
            (if (firstOf first rest).contains endOfInputByte = true ∧ index ≠ owner then
              follow.get owner else ∅) = added at stable
          have later := shrinks_extendFollow first owner rest
            (raise ByteSet.union follow index added)
          rw [stable] at later
          have unchanged := eq_of_shrinks_of_shrinks
            (shrinks_raise ByteSet.union ByteSet.room shrinks_union follow index added) later
          rw [unchanged] at stable
          refine ⟨fun byte predicts => ?_, ih stable⟩
          by_cases own : index = owner ∧ (follow.get owner).contains byte = true
          · rw [own.1, own.2]
          refine ByteSet.contains_of_union_eq (join_eq_of_raise_eq unchanged) ?_
          rw [← addedIs]
          change (_ ∪ _ : ByteSet).contains byte = true
          rcases predicts with ⟨here, different⟩ | ⟨nullable, afterwards⟩
          · simp [here, Ne.symm different]
          · have other : index ≠ owner := fun same => own ⟨same, afterwards⟩
            simp [nullable, other, afterwards]

theorem followClosed_followSets (grammar : Resolved n) (first : Vector ByteSet n) :
    grammar.FollowClosed first (grammar.followSets first) := by
  intro index symbols chosen
  have stable : grammar.followPass first (grammar.followSets first) = grammar.followSets first :=
    step_untilStable _ _ _ _
  have unchanged := change_eq_of_foldl_eq (shrinks_extendFollowBy first) stable _
    (mem_productions.mpr chosen)
  exact followed_of_extendFollow_eq unchanged

theorem contains_get_extendFollow {owner index : Fin n} {byte : UInt8}
    (symbols : List (ResolvedSymbol n)) (member : (follow.get index).contains byte = true) :
    ((extendFollow first owner follow symbols).get index).contains byte = true := by
  fun_induction extendFollow first owner follow symbols with
  | case1 => exact member
  | case2 follow changed rest ahead inherited added ih =>
      exact ih (ByteSet.contains_get_raise changed added member)
  | case3 follow rest bytes ih => exact ih member
  | case4 follow rest ih => exact ih member
  | case5 follow rest ih => exact ih member

theorem contains_get_followPass {index : Fin n} {byte : UInt8}
    (member : (follow.get index).contains byte = true) :
    ((grammar.followPass first follow).get index).contains byte = true := by
  refine foldl_induction (fun follow : Vector ByteSet n =>
    (follow.get index).contains byte = true) ?_ follow member
  intro follow production _ member
  exact contains_get_extendFollow production.2 member

theorem followSets_start (grammar : Resolved n) (first : Vector ByteSet n) {index : Fin n}
    (start : index.val = 0) :
    ((grammar.followSets first).get index).contains endOfInputByte = true := by
  refine untilStable_induction (grammar.shrinks_followPass first)
    (fun follow : Vector ByteSet n => (follow.get index).contains endOfInputByte = true)
    (fun follow member => contains_get_followPass member) (followSeeds n) ?_
  rw [get_followSeeds, if_pos start]
  exact ByteSet.contains_ofList_iff.mpr List.mem_cons_self

/-- What is ahead of a derived text and what comes after it is predicted by the symbols. -/
theorem predicts_of_derives (wellFormed : grammar.WellFormed)
    (closed : grammar.FirstClosed first) {symbols trees text} {after : ByteSet}
    (derives : grammar.Derives symbols trees text) (proper : Proper symbols)
    {rest : List UInt8} (follows : after.contains (rest.headD endOfInputByte) = true) :
    Predicts first after symbols ((text ++ rest).headD endOfInputByte) := by
  have begins := contains_firstOf_of_derives wellFormed closed derives proper
  cases text with
  | nil => exact Or.inr ⟨begins, follows⟩
  | cons byte text =>
      refine Or.inl ⟨begins, ?_⟩
      have unreserved := derives.reserved_not_mem wellFormed proper
      rintro same
      simp only [List.cons_append, List.headD_cons] at same
      simp [same] at unreserved

end Resolved

end Lookahead
