import Lookahead.Proofs.Renumbering
import Mathlib.Data.List.Perm.Basic

/-!
The order of the alternatives of a rule, and that of the rules after the start rule, means
nothing.  Both orders are accepted or neither is, with the same sets, and their parsers differ in
the ids of the rules only.
-/

namespace Lookahead

structure Rule.Reordered (rule other : Rule) : Prop where
  head_eq : other.head = rule.head
  alternatives_perm : other.alternatives.Perm rule.alternatives

theorem Rule.Reordered.symm {rule other : Rule} (reordered : rule.Reordered other) :
    other.Reordered rule :=
  ⟨reordered.head_eq.symm, reordered.alternatives_perm.symm⟩

namespace Grammar

/-- The same grammar, with the alternatives of each rule and the rules after the start rule in any
order. -/
inductive Reordered : Grammar → Grammar → Prop
  | empty : Reordered ⟨[]⟩ ⟨[]⟩
  | rules {start otherStart : Rule} {rest moved others : List Rule} :
      start.Reordered otherStart → rest.Perm moved → List.Forall₂ Rule.Reordered moved others →
      Reordered ⟨start :: rest⟩ ⟨otherStart :: others⟩

def idIn (grammar other : Grammar) (id : Nat) : Nat :=
  match grammar.rules[id]? with
  | some rule => other.rules.findIdx (·.head == rule.head)
  | none => id

namespace Reordered

variable {grammar other : Grammar}

theorem symm (reordered : grammar.Reordered other) : other.Reordered grammar := by
  cases reordered with
  | empty => exact .empty
  | @rules _ _ rest moved others start perm each =>
      have back : List.Forall₂ Rule.Reordered others moved :=
        each.flip.imp fun _ _ => Rule.Reordered.symm
      have both : Relation.Comp (List.Forall₂ Rule.Reordered) List.Perm others rest :=
        ⟨moved, back, perm.symm⟩
      rw [List.forall₂_comp_perm_eq_perm_comp_forall₂] at both
      obtain ⟨between, movedBack, eachBack⟩ := both
      exact .rules start.symm movedBack eachBack

theorem exists_reordered (reordered : grammar.Reordered other) {rule : Rule}
    (member : rule ∈ grammar.rules) : ∃ image ∈ other.rules, rule.Reordered image := by
  cases reordered with
  | empty => simp at member
  | rules start perm each =>
      rcases List.mem_cons.mp member with rfl | later
      · exact ⟨_, List.mem_cons_self, start⟩
      · obtain ⟨image, found, same⟩ := exists_of_forall₂_left each (perm.mem_iff.mp later)
        exact ⟨image, List.mem_cons_of_mem _ found, same⟩

theorem heads_perm (reordered : grammar.Reordered other) :
    (grammar.rules.map Rule.head).Perm (other.rules.map Rule.head) := by
  cases reordered with
  | empty => exact .nil
  | @rules _ _ rest moved others start perm each =>
      have same : moved.map Rule.head = others.map Rule.head := by
        rw [← List.forall₂_eq_eq_eq, List.forall₂_map_left_iff, List.forall₂_map_right_iff]
        exact each.imp fun _ _ reordered => reordered.head_eq.symm
      simp only [List.map_cons, start.head_eq, ← same]
      exact (perm.map Rule.head).cons _

theorem head?_eq (reordered : grammar.Reordered other) :
    (grammar.rules.map Rule.head).head? = (other.rules.map Rule.head).head? := by
  cases reordered with
  | empty => rfl
  | rules start _ _ => simp [start.head_eq]

theorem length_eq (reordered : grammar.Reordered other) :
    grammar.rules.length = other.rules.length := by
  simpa using reordered.heads_perm.length_eq

/-! ### Where the rules are -/

theorem idIn_of_le (grammar other : Grammar) {id : Nat} (beyond : grammar.rules.length ≤ id) :
    grammar.idIn other id = id := by
  rw [idIn, List.getElem?_eq_none beyond]

theorem idIn_val (grammar other : Grammar) (index : Fin grammar.rules.length) :
    grammar.idIn other index.val =
      other.rules.findIdx (·.head == (grammar.rules.get index).head) := by
  simp [idIn]

theorem idIn_lt (reordered : grammar.Reordered other) (index : Fin grammar.rules.length) :
    grammar.idIn other index.val < other.rules.length := by
  obtain ⟨image, member, same⟩ := reordered.exists_reordered (List.getElem_mem index.isLt)
  rw [idIn_val]
  exact List.findIdx_lt_length_of_exists ⟨image, member, by simpa using same.head_eq⟩

def place (reordered : grammar.Reordered other) (index : Fin grammar.rules.length) :
    Fin other.rules.length :=
  ⟨grammar.idIn other index.val, reordered.idIn_lt index⟩

theorem head_place (reordered : grammar.Reordered other) (index : Fin grammar.rules.length) :
    (other.rules.get (reordered.place index)).head = (grammar.rules.get index).head := by
  have bound := reordered.idIn_lt index
  rw [idIn_val] at bound
  have found := @List.findIdx_getElem _ _ _ bound
  simpa [place, idIn_val] using found

theorem heads_nodup (reordered : grammar.Reordered other)
    (distinct : (grammar.rules.map Rule.head).Nodup) : (other.rules.map Rule.head).Nodup :=
  reordered.heads_perm.nodup_iff.mp distinct

def move (reordered : grammar.Reordered other)
    (distinct : (grammar.rules.map Rule.head).Nodup) :
    Fin grammar.rules.length ≃ Fin other.rules.length where
  toFun := reordered.place
  invFun := reordered.symm.place
  left_inv := by
    intro index
    exact index_eq_of_head_eq distinct
      ((reordered.symm.head_place _).trans (reordered.head_place index))
  right_inv := by
    intro index
    exact index_eq_of_head_eq (reordered.heads_nodup distinct)
      ((reordered.head_place _).trans (reordered.symm.head_place index))

section Move

variable (reordered : grammar.Reordered other) (distinct : (grammar.rules.map Rule.head).Nodup)
include reordered

theorem idIn_eq_move (index : Fin grammar.rules.length) :
    grammar.idIn other index.val = (reordered.move distinct index).val := rfl

theorem rule_move (index : Fin grammar.rules.length) :
    (grammar.rules.get index).Reordered (other.rules.get (reordered.move distinct index)) := by
  obtain ⟨image, member, same⟩ := reordered.exists_reordered (List.getElem_mem index.isLt)
  obtain ⟨place, bound, rfl⟩ := List.getElem_of_mem member
  -- Heads are distinct, so the rule with the same head is the one that is found.
  have here : reordered.place index = ⟨place, bound⟩ :=
    index_eq_of_head_eq (reordered.heads_nodup distinct)
      ((reordered.head_place index).trans same.head_eq.symm)
  have moved : (reordered.move distinct index).val = place := congrArg Fin.val here
  simpa only [List.get_eq_getElem, moved] using same

theorem move_start_iff (index : Fin grammar.rules.length) :
    (reordered.move distinct index).val = 0 ↔ index.val = 0 := by
  have positive : 0 < grammar.rules.length := Nat.zero_lt_of_lt index.isLt
  have start : reordered.move distinct ⟨0, positive⟩ =
      ⟨0, reordered.length_eq ▸ positive⟩ := by
    refine index_eq_of_head_eq (reordered.heads_nodup distinct) ?_
    refine (reordered.head_place _).trans ?_
    have heads := reordered.head?_eq
    simpa [List.head?_eq_getElem?, positive, reordered.length_eq ▸ positive] using heads
  constructor
  · intro moved
    have same : reordered.move distinct index = reordered.move distinct ⟨0, positive⟩ := by
      rw [start]
      exact Fin.ext moved
    exact congrArg Fin.val ((reordered.move distinct).injective same)
  · intro first
    obtain rfl : index = ⟨0, positive⟩ := Fin.ext first
    rw [start]

include distinct in
theorem idIn_bijective : Function.Bijective (grammar.idIn other) := by
  have back (id : Nat) : other.idIn grammar (grammar.idIn other id) = id := by
    by_cases inside : id < grammar.rules.length
    · exact congrArg Fin.val ((reordered.move distinct).symm_apply_apply ⟨id, inside⟩)
    · rw [idIn_of_le grammar other (Nat.le_of_not_lt inside), idIn_of_le]
      exact reordered.length_eq ▸ Nat.le_of_not_lt inside
  have forth (id : Nat) : grammar.idIn other (other.idIn grammar id) = id := by
    by_cases inside : id < other.rules.length
    · exact congrArg Fin.val ((reordered.move distinct).apply_symm_apply ⟨id, inside⟩)
    · rw [idIn_of_le other grammar (Nat.le_of_not_lt inside), idIn_of_le]
      exact reordered.length_eq ▸ Nat.le_of_not_lt inside
  exact Function.bijective_iff_has_inverse.mpr ⟨_, back, forth⟩

/-! ### Resolved forms -/

theorem findFinIdx?_head (name : String) :
    other.rules.findFinIdx? (·.head == name) =
      (grammar.rules.findFinIdx? (·.head == name)).map (reordered.move distinct) := by
  refine Option.ext fun index => ?_
  obtain ⟨index, rfl⟩ := (reordered.move distinct).surjective index
  rw [findFinIdx?_head_eq_some_iff (reordered.heads_nodup distinct),
    (reordered.rule_move distinct index).head_eq]
  simp [findFinIdx?_head_eq_some_iff distinct]

theorem resolveSymbol_eq_ok {head : String} {symbol : Symbol} {resolved}
    (success : grammar.resolveSymbol head symbol = .ok resolved) :
    other.resolveSymbol head symbol = .ok (resolved.map (reordered.move distinct)) := by
  cases symbol with
  | terminal bytes =>
      simp only [resolveSymbol] at success ⊢
      split at success
      · simp at success
      · rename_i proper
        obtain rfl := Except.ok.inj success
        rw [if_neg proper]
        rfl
  | nonTerminal name =>
      simp only [resolveSymbol, reordered.findFinIdx?_head distinct] at success ⊢
      split at success
      · rename_i index found
        obtain rfl := Except.ok.inj success
        simp [found, ResolvedSymbol.map]
      · rename_i absent
        split at success
        · rename_i builtin
          obtain rfl := Except.ok.inj success
          simp [absent, builtin, ResolvedSymbol.map]
        · simp at success
  | empty =>
      obtain rfl := Except.ok.inj success
      rfl

theorem resolveAlternative_eq_ok {head : String} {alternative : Alternative} {symbols}
    (success : grammar.resolveAlternative head alternative = .ok symbols) :
    other.resolveAlternative head alternative =
      .ok (symbols.map (ResolvedSymbol.map (reordered.move distinct))) := by
  rw [resolveAlternative] at success ⊢
  split at success
  · simp at success
  · rename_i filled
    rw [if_neg filled]
    split at success
    · simp at success
    · rename_i unmixed
      rw [if_neg unmixed, mapM_eq_ok_iff, List.forall₂_map_right_iff]
      exact (mapM_eq_ok_iff.mp success).imp fun _ _ => reordered.resolveSymbol_eq_ok distinct

theorem exists_resolveRule {rule image : Rule} (same : rule.Reordered image) {alternatives}
    (success : grammar.resolveRule rule = .ok alternatives) :
    ∃ others, other.resolveRule image = .ok others ∧ others.Perm
      (alternatives.map (List.map (ResolvedSymbol.map (reordered.move distinct)))) := by
  rw [resolveRule] at success
  split at success
  · simp at success
  · rename_i filled
    have each : List.Forall₂ (fun alternative symbols =>
        other.resolveAlternative image.head alternative = .ok symbols) rule.alternatives
        (alternatives.map (List.map (ResolvedSymbol.map (reordered.move distinct)))) := by
      rw [List.forall₂_map_right_iff, same.head_eq]
      exact (mapM_eq_ok_iff.mp success).imp fun _ _ =>
        reordered.resolveAlternative_eq_ok distinct
    -- Resolving alternative by alternative commutes with a change of their order.
    obtain ⟨others, eachOther, perm⟩ := List.perm_comp_forall₂ same.alternatives_perm each
    refine ⟨others, ?_, perm⟩
    rw [resolveRule, same.alternatives_perm.isEmpty_eq, if_neg filled]
    exact mapM_eq_ok_iff.mpr eachOther

end Move

/-- A grammar in another order is resolved to the same rules under other numbers. -/
theorem resolve_renumbers (reordered : grammar.Reordered other)
    (distinct : (grammar.rules.map Rule.head).Nodup) {resolved}
    (success : grammar.resolve = .ok resolved) :
    ∃ otherResolved, other.resolve = .ok otherResolved ∧
      resolved.Renumbers (reordered.move distinct) otherResolved := by
  have resolves := resolves_of_resolve_eq_ok success
  have resolvable : ∀ image ∈ other.rules, ∃ alternatives,
      other.resolveRule image = .ok alternatives := by
    intro image member
    obtain ⟨rule, found, same⟩ := reordered.symm.exists_reordered member
    obtain ⟨place, bound, rfl⟩ := List.getElem_of_mem found
    obtain ⟨others, success, _⟩ := reordered.exists_resolveRule distinct same.symm
      (resolves.rule_get ⟨place, bound⟩)
    exact ⟨others, success⟩
  obtain ⟨otherResolved, otherSuccess⟩ :=
    exists_resolve (reordered.heads_nodup distinct) resolvable
  have otherResolves := resolves_of_resolve_eq_ok otherSuccess
  refine ⟨otherResolved, otherSuccess, ?_, ?_, reordered.move_start_iff distinct⟩
  · intro index
    rw [otherResolves.head_get, resolves.head_get]
    exact (reordered.rule_move distinct index).head_eq
  · intro index
    obtain ⟨others, success, perm⟩ := reordered.exists_resolveRule distinct
      (reordered.rule_move distinct index) (resolves.rule_get index)
    have same := success.symm.trans (otherResolves.rule_get _)
    obtain rfl := Except.ok.inj same
    exact perm

end Reordered

end Grammar

end Lookahead
