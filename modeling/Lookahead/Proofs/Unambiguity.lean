import Lookahead.Proofs.Generation

/-!
A grammar with a table is unambiguous.  The byte ahead leaves one alternative for each rule, so a
text has one derivation at most, and two derivations that start alike end at the same place.
-/

namespace Lookahead

variable {n : Nat} {analysis : Analysis n} {table : Table}

namespace Resolved

variable {first follow : Vector ByteSet n} {grammar : Resolved n}

theorem contains_follow_of_derives (wellFormed : grammar.WellFormed)
    (closed : grammar.FirstClosed first) {after : ByteSet} {index : Fin n}
    {symbols : List (ResolvedSymbol n)} {trees : List Derivation} {text rest : List UInt8}
    (followed : Followed first follow after (.rule index :: symbols))
    (derives : grammar.Derives symbols trees text) (proper : Proper symbols)
    (follows : after.contains (rest.headD endOfInputByte) = true) :
    (follow.get index).contains ((text ++ rest).headD endOfInputByte) = true :=
  followed.1 _ (predicts_of_derives wellFormed closed derives proper follows)

end Resolved

open Resolved in
/-- Two derivations from the same symbols, over the same bytes ahead, are the same.  The
induction is on one of them; at a rule the byte ahead decides the alternative of both. -/
theorem Analysis.Sound.derives_unique (sound : analysis.Sound)
    (realizes : table.Realizes analysis) {symbols leftTrees leftText}
    (left : analysis.grammar.Derives symbols leftTrees leftText) (proper : Proper symbols)
    {after : ByteSet} (followed : Followed analysis.first analysis.follow after symbols)
    {rightTrees rightText} (right : analysis.grammar.Derives symbols rightTrees rightText)
    {leftRest rightRest : List UInt8} (same : leftText ++ leftRest = rightText ++ rightRest)
    (leftFollows : after.contains (leftRest.headD endOfInputByte) = true)
    (rightFollows : after.contains (rightRest.headD endOfInputByte) = true) :
    leftTrees = rightTrees ∧ leftText = rightText := by
  induction left generalizing after rightTrees rightText leftRest rightRest with
  | nil =>
      cases right
      exact ⟨rfl, rfl⟩
  | terminal bytes _ ih =>
      cases right with
      | terminal _ right =>
          rw [List.append_assoc, List.append_assoc, List.append_cancel_left_eq] at same
          obtain ⟨rfl, rfl⟩ := ih proper.2.2 followed right same leftFollows rightFollows
          exact ⟨rfl, rfl⟩
  | empty left _ =>
      obtain rfl : _ = [] := proper
      cases left
      cases right with
      | empty right =>
          cases right
          exact ⟨rfl, rfl⟩
  | lineFeed _ ih =>
      cases right with
      | lineFeed right =>
          simp only [List.cons_append, List.cons.injEq, true_and] at same
          obtain ⟨rfl, rfl⟩ := ih proper followed right same leftFollows rightFollows
          exact ⟨rfl, rfl⟩
      | carriageReturn right => simp at same
  | carriageReturn _ ih =>
      cases right with
      | lineFeed right => simp at same
      | carriageReturn right =>
          simp only [List.cons_append, List.cons.injEq, true_and] at same
          obtain ⟨rfl, rfl⟩ := ih proper followed right same leftFollows rightFollows
          exact ⟨rfl, rfl⟩
  | rule leftChosen leftInner leftLater innerIh ih =>
      cases right with
      | @rule _ _ _ _ _ _ _ rightChosen rightInner rightLater =>
          rw [List.append_assoc, List.append_assoc] at same
          have leftAhead := contains_follow_of_derives sound.wellFormed sound.first_closed
            followed leftLater proper leftFollows
          have rightAhead := contains_follow_of_derives sound.wellFormed sound.first_closed
            followed rightLater proper rightFollows
          have leftPredicts := predicts_of_derives sound.wellFormed sound.first_closed leftInner
            (sound.wellFormed _ _ leftChosen) leftAhead
          have rightPredicts := predicts_of_derives sound.wellFormed sound.first_closed rightInner
            (sound.wellFormed _ _ rightChosen) rightAhead
          rw [← same] at rightPredicts
          obtain rfl := realizes.eq_of_predicts leftChosen rightChosen leftPredicts rightPredicts
          obtain ⟨rfl, rfl⟩ := innerIh (sound.wellFormed _ _ leftChosen)
            (sound.follow_closed _ _ leftChosen) rightInner same leftAhead rightAhead
          rw [List.append_cancel_left_eq] at same
          obtain ⟨rfl, rfl⟩ := ih proper followed.2 rightLater same leftFollows rightFollows
          exact ⟨rfl, rfl⟩

theorem Analysis.Sound.followed_start (sound : analysis.Sound) {index : Fin n}
    (start : index.val = 0) :
    Resolved.Followed analysis.first analysis.follow (ByteSet.ofList [endOfInputByte])
      [.rule index] := by
  refine ⟨?_, trivial⟩
  rintro byte (⟨begins, different⟩ | ⟨_, ends⟩)
  · exact absurd ((Resolved.contains_firstOf_nil byte).mp begins) different
  · obtain rfl := List.mem_singleton.mp (ByteSet.contains_ofList_iff.mp ends)
    exact sound.follow_start index start

theorem Analysis.Sound.derives_start_unique (sound : analysis.Sound)
    (realizes : table.Realizes analysis) {index : Fin n} (start : index.val = 0)
    {left right : Derivation} {text : List UInt8}
    (leftDerives : analysis.grammar.Derives [.rule index] [left] text)
    (rightDerives : analysis.grammar.Derives [.rule index] [right] text) : left = right := by
  have ends : (ByteSet.ofList [endOfInputByte]).contains
      (([] : List UInt8).headD endOfInputByte) = true :=
    ByteSet.contains_ofList_iff.mpr List.mem_cons_self
  have unique := sound.derives_unique realizes leftDerives trivial (sound.followed_start start)
    rightDerives rfl ends ends
  exact (List.cons.inj unique.1).1

end Lookahead
