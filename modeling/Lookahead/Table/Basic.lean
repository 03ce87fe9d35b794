import Lookahead.Table.Row

/-!
Parse tables: a row for each rule, with gaps allowed in a table that is built by hand.
-/

namespace Lookahead

structure Table where
  rows : Array (Option Row)
deriving DecidableEq

namespace Table

def empty : Table :=
  ⟨#[]⟩

instance : Inhabited Table := ⟨empty⟩

def insertRow (table : Table) (id : Nat) (row : Row) : Table :=
  let padded := table.rows ++ Array.replicate (id + 1 - table.rows.size) none
  ⟨padded.setIfInBounds id (some row)⟩

def row? (table : Table) (id : Nat) : Option Row :=
  table.rows[id]?.join

theorem row?_insertRow (table : Table) (id : Nat) (row : Row) (other : Nat) :
    (table.insertRow id row).row? other = if id = other then some row else table.row? other := by
  simp only [insertRow, row?, Array.getElem?_setIfInBounds]
  by_cases same : id = other
  · subst same
    have bound : id < (table.rows ++ Array.replicate (id + 1 - table.rows.size) none).size := by
      simp only [Array.size_append, Array.size_replicate]
      omega
    simp only [if_pos bound, if_true, Option.join_some]
  · simp only [if_neg same]
    rw [Array.getElem?_append]
    split
    · rfl
    · rename_i beyond
      have absent : table.rows[other]? = none := Array.getElem?_eq_none (by omega)
      rw [absent, Array.getElem?_replicate]
      split <;> rfl

/-- A table with a row for each of the first rules and for no other. -/
def ofRows (rows : List Row) : Table :=
  ⟨(rows.map some).toArray⟩

@[simp] theorem row?_ofRows (rows : List Row) (id : Nat) : (ofRows rows).row? id = rows[id]? := by
  cases found : rows[id]? <;> simp [row?, ofRows, found]

theorem insertRow_ofRows (rows : List Row) (row : Row) :
    (ofRows rows).insertRow rows.length row = ofRows (rows ++ [row]) := by
  simp [insertRow, ofRows]

theorem foldlM_insertRow {ε α : Type} (place : α → Nat) (make : α → Except ε Row)
    {items : List α} (before : List Row)
    (consecutive : items.map place = List.range' before.length items.length) :
    items.foldlM (fun (table : Table) item => return table.insertRow (place item) (← make item))
        (ofRows before) = do
      let rows ← items.mapM make
      return ofRows (before ++ rows) := by
  induction items generalizing before with
  | nil => simp
  | cons item rest ih =>
      rw [List.map_cons, List.length_cons, List.range'_succ] at consecutive
      obtain ⟨here, later⟩ := List.cons.inj consecutive
      rw [List.foldlM_cons, List.mapM_cons]
      cases made : make item with
      | error reason => rfl
      | ok row =>
          have behind := ih (before ++ [row]) (by simpa using later)
          change List.foldlM _ ((ofRows before).insertRow (place item) row) rest = _
          rw [here, insertRow_ofRows, behind]
          cases rest.mapM make with
          | error reason => rfl
          | ok rows => simp [bind, Except.bind, pure, Except.pure]

def presentRows (table : Table) : List (Nat × Row) :=
  table.rows.toList.zipIdx.filterMap fun (row, id) => row.map fun present => (id, present)

def size (table : Table) : Nat :=
  table.presentRows.length

def isEmpty (table : Table) : Bool :=
  table.size == 0

end Table

end Lookahead
