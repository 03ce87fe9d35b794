import Mathlib.Data.List.Forall2

/-!
Computations that may fail, taken apart: a sequence succeeds exactly if each of its parts does.
-/

namespace Lookahead

variable {ε α β : Type}

theorem bind_eq_ok_iff {first : Except ε α} {next : α → Except ε β} {result : β} :
    (first >>= next) = .ok result ↔ ∃ value, first = .ok value ∧ next value = .ok result := by
  cases first with
  | error reason => simp [bind, Except.bind]
  | ok value => simp [bind, Except.bind]

theorem bind_eq_error_iff {first : Except ε α} {next : α → Except ε β} {reason : ε} :
    (first >>= next) = .error reason ↔
      first = .error reason ∨ ∃ value, first = .ok value ∧ next value = .error reason := by
  cases first with
  | error other => simp [bind, Except.bind]
  | ok value => simp [bind, Except.bind]

theorem mapError_eq_ok_iff {ε' : Type} {computation : Except ε α} {describe : ε → ε'} {result : α} :
    computation.mapError describe = .ok result ↔ computation = .ok result := by
  cases computation with
  | error reason => simp [Except.mapError]
  | ok value => simp [Except.mapError]

theorem mapM_eq_ok_iff {convert : α → Except ε β} {items : List α} {results : List β} :
    items.mapM convert = .ok results ↔
      List.Forall₂ (fun item result => convert item = .ok result) items results := by
  induction items generalizing results with
  | nil =>
      rw [List.mapM_nil, List.forall₂_nil_left_iff]
      exact ⟨fun same => (Except.ok.inj same).symm, fun same => same ▸ rfl⟩
  | cons item rest ih =>
      rw [List.mapM_cons, bind_eq_ok_iff, List.forall₂_cons_left_iff]
      constructor
      · rintro ⟨value, converted, remaining⟩
        obtain ⟨values, restConverted, same⟩ := bind_eq_ok_iff.mp remaining
        exact ⟨value, values, converted, ih.mp restConverted, (Except.ok.inj same).symm⟩
      · rintro ⟨value, values, converted, restConverted, rfl⟩
        exact ⟨value, converted, bind_eq_ok_iff.mpr ⟨values, ih.mpr restConverted, rfl⟩⟩

theorem forM_eq_ok_iff {check : α → Except ε Unit} {items : List α} :
    items.forM check = .ok () ↔ ∀ item ∈ items, check item = .ok () := by
  induction items with
  | nil => exact ⟨fun _ => List.forall_mem_nil _, fun _ => rfl⟩
  | cons item rest ih =>
      rw [List.forM, bind_eq_ok_iff, List.forall_mem_cons, ih]
      exact ⟨fun ⟨_, here, later⟩ => ⟨here, later⟩, fun ⟨here, later⟩ => ⟨(), here, later⟩⟩

theorem exists_of_forall₂_left {R : α → β → Prop} {left : List α} {right : List β}
    (related : List.Forall₂ R left right) {item : α} (member : item ∈ left) :
    ∃ other ∈ right, R item other := by
  induction related with
  | nil => simp at member
  | cons here _ ih =>
      rcases List.mem_cons.mp member with rfl | later
      · exact ⟨_, List.mem_cons_self, here⟩
      · obtain ⟨other, found, relates⟩ := ih later
        exact ⟨other, List.mem_cons_of_mem _ found, relates⟩

theorem exists_getElem?_of_forall₂ {R : α → β → Prop} {left : List α} {right : List β}
    (related : List.Forall₂ R left right) {place : Nat} {item : α}
    (found : left[place]? = some item) : ∃ other, right[place]? = some other ∧ R item other := by
  induction related generalizing place with
  | nil => simp at found
  | cons here _ ih =>
      cases place with
      | zero => exact ⟨_, rfl, Option.some.inj found ▸ here⟩
      | succ place => exact ih found

theorem exists_split_of_forall₂ {R : α → β → Prop} {left front : List α} {item : α}
    {back : List α} {right : List β} (split : left = front ++ item :: back)
    (related : List.Forall₂ R left right) :
    ∃ before other after, right = before ++ other :: after ∧ List.Forall₂ R front before ∧
      R item other ∧ List.Forall₂ R back after := by
  induction front generalizing left right with
  | nil =>
      subst split
      cases related with
      | cons here later => exact ⟨[], _, _, rfl, .nil, here, later⟩
  | cons first front ih =>
      subst split
      cases related with
      | cons here later =>
          obtain ⟨before, other, after, rfl, fronts, relates, backs⟩ := ih rfl later
          exact ⟨_ :: before, other, after, rfl, .cons here fronts, relates, backs⟩

theorem exists_forall₂_of_forall {R : α → β → Prop} {items : List α}
    (each : ∀ item ∈ items, ∃ other, R item other) : ∃ others, List.Forall₂ R items others := by
  induction items with
  | nil => exact ⟨[], .nil⟩
  | cons item rest ih =>
      obtain ⟨⟨other, here⟩, later⟩ := List.forall_mem_cons.mp each
      obtain ⟨others, related⟩ := ih later
      exact ⟨other :: others, .cons here related⟩

theorem exists_mapM_eq_ok_iff {convert : α → Except ε β} {items : List α} :
    (∃ results, items.mapM convert = .ok results) ↔
      ∀ item ∈ items, ∃ result, convert item = .ok result := by
  constructor
  · rintro ⟨results, converted⟩ item member
    obtain ⟨result, _, success⟩ := exists_of_forall₂_left (mapM_eq_ok_iff.mp converted) member
    exact ⟨result, success⟩
  · intro each
    obtain ⟨results, converted⟩ := exists_forall₂_of_forall each
    exact ⟨results, mapM_eq_ok_iff.mpr converted⟩

theorem exists_split_of_mapM_eq_error {convert : α → Except ε β} {items : List α} {reason : ε}
    (failed : items.mapM convert = .error reason) :
    ∃ front item back, items = front ++ item :: back ∧ convert item = .error reason ∧
      ∀ earlier ∈ front, ∃ result, convert earlier = .ok result := by
  induction items with
  | nil => simp [pure, Except.pure] at failed
  | cons item rest ih =>
      rw [List.mapM_cons, bind_eq_error_iff] at failed
      rcases failed with here | ⟨value, converted, later⟩
      · exact ⟨[], item, rest, rfl, here, by simp⟩
      · rcases bind_eq_error_iff.mp later with restFailed | ⟨_, _, impossible⟩
        · obtain ⟨front, other, back, rfl, failure, before⟩ := ih restFailed
          exact ⟨item :: front, other, back, rfl, failure,
            List.forall_mem_cons.mpr ⟨⟨value, converted⟩, before⟩⟩
        · simp [pure, Except.pure] at impossible

theorem exists_of_foldlM_eq_error {σ : Type} {step : σ → α → Except ε σ} {items : List α}
    {state : σ} {reason : ε} (failed : items.foldlM step state = .error reason) :
    ∃ between, ∃ item ∈ items, step between item = .error reason := by
  induction items generalizing state with
  | nil => simp [pure, Except.pure] at failed
  | cons item rest ih =>
      rw [List.foldlM_cons] at failed
      cases first : step state item with
      | error other =>
          rw [first] at failed
          exact ⟨state, item, List.mem_cons_self, first.trans failed⟩
      | ok next =>
          rw [first] at failed
          obtain ⟨between, other, member, failure⟩ := ih failed
          exact ⟨between, other, List.mem_cons_of_mem _ member, failure⟩

end Lookahead
