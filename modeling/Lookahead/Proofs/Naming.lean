import Lookahead.Table.Generate
import Mathlib.Data.List.Pairwise

/-!
The names of the rules of a grammar: an entry for each rule, in the order of the rules, and none
for any other kind.  Naming the kinds of such entries one after the other gives them back.
-/

namespace Lookahead

namespace NameMap

theorem get?_eq_some_iff {names : NameMap} {kind : NodeKind} {name : String} :
    names.get? kind = some name ↔ (kind, name) ∈ names.entries := by
  obtain ⟨entries, ordered⟩ := names
  change (entries.find? fun entry => entry.1 == kind).map (·.2) = some name ↔ _ ∈ entries
  induction entries with
  | nil => simp
  | cons entry rest ih =>
      obtain ⟨first, restOrdered⟩ := List.pairwise_cons.mp ordered
      by_cases here : entry.1 = kind
      · have beyond : (kind, name) ∉ rest := by
          intro later
          have less := first _ later
          rw [here] at less
          exact Nat.lt_irrefl _ less
        simp [here, beyond, Prod.ext_iff, eq_comm]
      · have different : (kind, name) ≠ entry := by
          rintro rfl
          exact here rfl
        rw [List.find?_cons_of_neg (by simpa using here), List.mem_cons,
          or_iff_right different]
        exact ih restOrdered

theorem placeEntry_of_last {kind : NodeKind} {name : String} {entries : List (NodeKind × String)}
    (last : ∀ entry ∈ entries, entry.1.rank < kind.rank) :
    placeEntry kind name entries = entries ++ [(kind, name)] := by
  induction entries with
  | nil => rfl
  | cons entry rest ih =>
      obtain ⟨here, later⟩ := List.forall_mem_cons.mp last
      have different : kind ≠ entry.1 := by
        rintro rfl
        exact Nat.lt_irrefl _ here
      rw [placeEntry, if_neg (by omega), if_neg different, ih later, List.cons_append]

theorem entries_foldl_insert {entries : List (NodeKind × String)} (names : NameMap)
    (ordered : (names.entries ++ entries).Pairwise fun left right => left.1.rank < right.1.rank) :
    (entries.foldl (fun names entry => names.insert entry.1 entry.2) names).entries =
      names.entries ++ entries := by
  induction entries generalizing names with
  | nil => simp
  | cons entry rest ih =>
      have last : ∀ before ∈ names.entries, before.1.rank < entry.1.rank := fun before member =>
        (List.pairwise_append.mp ordered).2.2 before member entry List.mem_cons_self
      have placed : (names.insert entry.1 entry.2).entries = names.entries ++ [entry] :=
        placeEntry_of_last last
      rw [List.foldl_cons, ih _ (by simpa [placed] using ordered), placed]
      simp

end NameMap

namespace Analysis

variable {n : Nat}

def nameEntries (analysis : Analysis n) : List (NodeKind × String) :=
  (List.finRange n).map fun rule => (.rule rule.val, analysis.grammar.heads.get rule)

theorem nameEntries_ordered (analysis : Analysis n) :
    analysis.nameEntries.Pairwise fun left right => left.1.rank < right.1.rank := by
  rw [nameEntries, List.pairwise_map]
  refine (List.pairwise_lt_finRange n).imp fun {left right} less => ?_
  have ids : left.val < right.val := less
  simpa only [NodeKind.rank, Nat.add_lt_add_iff_left] using ids

theorem names_eq_foldl (analysis : Analysis n) :
    analysis.names =
      analysis.nameEntries.foldl (fun names entry => names.insert entry.1 entry.2)
        NameMap.empty := by
  rw [names, nameEntries, List.foldl_map]

theorem entries_names (analysis : Analysis n) : analysis.names.entries = analysis.nameEntries := by
  rw [names_eq_foldl, NameMap.entries_foldl_insert _ analysis.nameEntries_ordered]
  rfl

end Analysis

end Lookahead
