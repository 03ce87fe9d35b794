import Lookahead.Proofs.Outcomes

/-!
Turns of the stack of operands.  A move takes the operand on top and puts others in its place; what
is below, and what was completed, has no part in it.
-/

namespace Lookahead.Machine

variable {machine : Machine}

/-- The operands that an operand is expanded to, and the kind of the node that collects them. -/
inductive Opens (machine : Machine) (offset : Nat) : Operand → NodeKind → List Operand → Prop
  | lineFeed : machine.lookahead offset = 10 →
      Opens machine offset (.invoke .endOfLine) .endOfLine [.matchLiteral [10]]
  | carriageReturn : machine.lookahead offset = 13 →
      Opens machine offset (.invoke .endOfLine) .endOfLine
        [.matchLiteral [13], .matchLiteral [10]]
  | rule {id row operations} : machine.table.row? id = some row →
      row.lookup (machine.lookahead offset) = some operations →
      Opens machine offset (.invoke (.rule id)) (.rule id) (operations.map Operation.operand)
  | literal {bytes} : Opens machine offset (.matchLiteral bytes) .literal (bytes.map .matchByte)

/-- What the operand on top is replaced by, and the offset after it. -/
inductive Turns (machine : Machine) : Nat → Operand → Nat → List Operand → Prop
  | opens {offset operand kind operands} : machine.Opens offset operand kind operands →
      Turns machine offset operand offset (operands ++ [.reduce kind offset operands.length])
  | byte {offset byte} : machine.lookahead offset = byte →
      Turns machine offset (.matchByte byte) (offset + 1) []
  | reduce {offset kind start count} :
      Turns machine offset (.reduce kind start count) offset []

theorem Opens.plain {offset : Nat} {operand : Operand} {kind : NodeKind}
    {operands : List Operand} (opens : machine.Opens offset operand kind operands) :
    isPlain operand = true ∧ ∀ other ∈ operands, isPlain other = true := by
  cases opens with
  | lineFeed _ | carriageReturn _ => simp [isPlain]
  | rule _ _ =>
      refine ⟨rfl, fun other member => ?_⟩
      obtain ⟨operation, _, rfl⟩ := List.mem_map.mp member
      exact isPlain_operand operation
  | literal => simp [isPlain]

theorem Moves.turns {state next : MachineState} (moves : machine.Moves state next) :
    ∃ operand below added, state.operands = operand :: below ∧ next.operands = added ++ below ∧
      machine.Turns state.offset operand next.offset added := by
  cases moves with
  | lineFeed ahead => exact ⟨_, _, [_, _], rfl, rfl, .opens (.lineFeed ahead)⟩
  | carriageReturn ahead => exact ⟨_, _, [_, _, _], rfl, rfl, .opens (.carriageReturn ahead)⟩
  | rule present found =>
      refine ⟨_, _, _, rfl, ?_, .opens (.rule present found)⟩
      simp
  | literal =>
      refine ⟨_, _, _, rfl, ?_, .opens .literal⟩
      simp
  | byte ahead => exact ⟨_, _, [], rfl, rfl, .byte ahead⟩
  | reduceLiteral => exact ⟨_, _, [], rfl, rfl, .reduce⟩
  | reduceNothing _ => exact ⟨_, _, [], rfl, rfl, .reduce⟩
  | reduceTrees _ _ => exact ⟨_, _, [], rfl, rfl, .reduce⟩

/-- The operands that a turn can put on the stack in place of another. -/
inductive Brings (machine : Machine) (operand : Operand) : Operand → Prop
  | offered {operation} : machine.table.Offers operation →
      Brings machine operand operation.operand
  | byte {bytes byte} : operand = .matchLiteral bytes → byte ∈ bytes →
      Brings machine operand (.matchByte byte)
  | lineEnd {byte} : byte = 10 ∨ byte = 13 → Brings machine operand (.matchLiteral [byte])
  | reduction {kind start count} : Brings machine operand (.reduce kind start count)

theorem Turns.brings {offset later : Nat} {operand : Operand} {added : List Operand}
    (turns : machine.Turns offset operand later added) :
    ∀ other ∈ added, machine.Brings operand other := by
  intro other member
  cases turns with
  | opens opened =>
      rcases List.mem_append.mp member with inside | closing
      · cases opened with
        | lineFeed _ =>
            obtain rfl := List.mem_singleton.mp inside
            exact .lineEnd (Or.inl rfl)
        | carriageReturn _ =>
            rcases List.mem_cons.mp inside with rfl | last
            · exact .lineEnd (Or.inr rfl)
            · obtain rfl := List.mem_singleton.mp last
              exact .lineEnd (Or.inl rfl)
        | @rule id row operations present found =>
            obtain ⟨operation, among, rfl⟩ := List.mem_map.mp inside
            exact .offered ⟨id, row, _, operations, present, found, among⟩
        | literal =>
            obtain ⟨byte, among, rfl⟩ := List.mem_map.mp inside
            exact .byte rfl among
      · obtain rfl := List.mem_singleton.mp closing
        exact .reduction
  | byte | reduce => simp at member

theorem Moves.forall_operands {holds : Operand → Prop}
    (adds : ∀ {offset operand later added}, holds operand →
      machine.Turns offset operand later added → ∀ other ∈ added, holds other)
    {state next : MachineState} (moves : machine.Moves state next)
    (all : ∀ operand ∈ state.operands, holds operand) :
    ∀ operand ∈ next.operands, holds operand := by
  obtain ⟨operand, below, added, before, after, turns⟩ := moves.turns
  rw [before] at all
  obtain ⟨top, others⟩ := List.forall_mem_cons.mp all
  rw [after]
  intro other member
  rcases List.mem_append.mp member with new | old
  · exact adds top turns other new
  · exact others other old

theorem Steps.forall_operands {holds : Operand → Prop}
    (adds : ∀ {offset operand later added}, holds operand →
      machine.Turns offset operand later added → ∀ other ∈ added, holds other)
    {state last : MachineState} (steps : machine.Steps state last)
    (all : ∀ operand ∈ state.operands, holds operand) :
    ∀ operand ∈ last.operands, holds operand :=
  steps.keeps (Moves.forall_operands adds) all

end Lookahead.Machine
