import Lookahead.Byte.Set

/-!
Rows of a parse table: which operations a rule expands to under which lookahead.
-/

namespace Lookahead

inductive Callee
  | rule (id : Nat)
  /-- The built-in line terminator: a line feed, alone or after a carriage return. -/
  | endOfLine
deriving DecidableEq

inductive Operation
  | invoke (callee : Callee)
  | matchLiteral (bytes : List UInt8)
  | endOfInput
deriving DecidableEq

/-- At most one number for each byte. -/
abbrev Cells := Vector (Option Nat) 256

namespace Cells

def empty : Cells :=
  Vector.replicate 256 none

def entry (cells : Cells) (byte : UInt8) : Option Nat :=
  cells.get ⟨byte.toNat, byte.toNat_lt⟩

def point (cells : Cells) (byte : UInt8) (number : Nat) : Cells :=
  cells.set byte.toNat (some number) byte.toNat_lt

/-- Gives a number to a byte.  A byte that has another one keeps it, and that one is returned. -/
def assign (cells : Cells) (byte : UInt8) (number : Nat) : Except Nat Cells :=
  match cells.entry byte with
  | some existing =>
    if existing = number then .ok (cells.point byte number) else .error existing
  | none => .ok (cells.point byte number)

@[simp] theorem entry_empty (byte : UInt8) : empty.entry byte = none := by
  simp [entry, empty, Vector.get]

theorem entry_point (cells : Cells) (byte : UInt8) (number : Nat) (other : UInt8) :
    (cells.point byte number).entry other =
      if other = byte then some number else cells.entry other := by
  have bound : other.toNat < 256 := other.toNat_lt
  change (cells.set byte.toNat (some number) byte.toNat_lt)[other.toNat] = _
  rw [Vector.getElem_set]
  simp only [UInt8.toNat_inj, eq_comm]
  rfl

theorem assign_eq_ok {cells : Cells} {byte : UInt8} {number : Nat}
    (vacant : ∀ existing, cells.entry byte = some existing → existing = number) :
    cells.assign byte number = .ok (cells.point byte number) := by
  rw [assign]
  cases here : cells.entry byte with
  | none => rfl
  | some existing => exact if_pos (vacant existing here)

theorem assign_eq_error {cells : Cells} {byte : UInt8} {existing number : Nat}
    (taken : cells.entry byte = some existing) (other : existing ≠ number) :
    cells.assign byte number = .error existing := by
  simp [assign, taken, other]

end Cells

structure Row where
  alternatives : Array (List Operation)
  cells : Cells
deriving DecidableEq

namespace Row

def empty : Row :=
  ⟨#[], Cells.empty⟩

instance : Inhabited Row := ⟨empty⟩

def cell (row : Row) (byte : UInt8) : Option Nat :=
  row.cells.entry byte

def push (row : Row) (operations : List Operation) : Row :=
  { row with alternatives := row.alternatives.push operations }

def point (row : Row) (byte : UInt8) (place : Nat) : Row :=
  { row with cells := row.cells.point byte place }

def assign (row : Row) (byte : UInt8) (alternative : Nat) : Except Nat Row :=
  (row.cells.assign byte alternative).map fun cells => { row with cells }

@[simp] theorem cell_empty (byte : UInt8) : empty.cell byte = none :=
  Cells.entry_empty byte

@[simp] theorem cell_push (row : Row) (operations : List Operation) (byte : UInt8) :
    (row.push operations).cell byte = row.cell byte := rfl

theorem cell_point (row : Row) (byte : UInt8) (place : Nat) (other : UInt8) :
    (row.point byte place).cell other = if other = byte then some place else row.cell other :=
  row.cells.entry_point byte place other

theorem assign_eq_ok {row : Row} {byte : UInt8} {place : Nat}
    (vacant : ∀ existing, row.cell byte = some existing → existing = place) :
    row.assign byte place = .ok (row.point byte place) := by
  rw [assign, Cells.assign_eq_ok vacant]
  rfl

theorem assign_eq_error {row : Row} {byte : UInt8} {existing place : Nat}
    (taken : row.cell byte = some existing) (other : existing ≠ place) :
    row.assign byte place = .error existing := by
  rw [assign, Cells.assign_eq_error taken other]
  rfl

def lookup (row : Row) (byte : UInt8) : Option (List Operation) :=
  (row.cell byte).bind fun alternative => row.alternatives[alternative]?

def assigned (row : Row) : List (UInt8 × Nat) :=
  ByteSet.allBytes.filterMap fun byte => (row.cell byte).map fun alternative => (byte, alternative)

def bytesOf (row : Row) (alternative : Nat) : List UInt8 :=
  ByteSet.allBytes.filter fun byte => row.cell byte == some alternative

def lookahead (row : Row) : ByteSet :=
  ByteSet.ofList (row.assigned.map (·.1))

end Row

end Lookahead
