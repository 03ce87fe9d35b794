/-!
Counting the elements of a list that satisfy a condition.
-/

namespace Lookahead

theorem countP_lt_countP {α : Type} {strong weak : α → Bool} {items : List α} {item : α}
    (member : item ∈ items) (stronger : ∀ other, strong other = true → weak other = true)
    (holds : weak item = true) (fails : strong item = false) :
    items.countP strong < items.countP weak := by
  induction items with
  | nil => simp at member
  | cons head tail ih =>
    have tailLe : tail.countP strong ≤ tail.countP weak :=
      List.countP_mono_left fun other _ => stronger other
    simp only [List.countP_cons]
    rcases List.mem_cons.mp member with same | later
    · subst same
      simp only [holds, fails, Bool.false_eq_true, if_false, if_true]
      omega
    · have less := ih later
      have headLe :
          (if strong head = true then 1 else 0) ≤ (if weak head = true then 1 else 0) := by
        cases inStrong : strong head with
        | true => simp [stronger head inStrong]
        | false => simp
      omega

end Lookahead
