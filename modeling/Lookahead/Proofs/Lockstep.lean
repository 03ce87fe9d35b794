import Lookahead.Proofs.Outcomes
import Lookahead.Proofs.Termination
import Mathlib.Logic.Function.Basic

/-!
Machines whose tables differ in the ids of the rules only.  They go in lock step: each step of
one is the step of the other under the ids of the other, and so is each tree.
-/

namespace Lookahead

/-! ### Other ids -/

section Renumber

variable (number : Nat → Nat)

def Callee.renumber : Callee → Callee
  | .rule id => .rule (number id)
  | .endOfLine => .endOfLine

def Operation.renumber : Operation → Operation
  | .invoke callee => .invoke (callee.renumber number)
  | .matchLiteral bytes => .matchLiteral bytes
  | .endOfInput => .endOfInput

def NodeKind.renumber : NodeKind → NodeKind
  | .rule id => .rule (number id)
  | .literal => .literal
  | .endOfLine => .endOfLine
  | .nothing => .nothing

mutual

def Tree.renumber : Tree → Tree
  | .node serial kind span children =>
    .node serial (kind.renumber number) span (Tree.renumberAll children)

def Tree.renumberAll : List Tree → List Tree
  | [] => []
  | tree :: rest => tree.renumber :: Tree.renumberAll rest

end

theorem Tree.renumberAll_eq_map (trees : List Tree) :
    Tree.renumberAll number trees = trees.map (Tree.renumber number) := by
  induction trees with
  | nil => rfl
  | cons tree rest ih => rw [Tree.renumberAll, ih, List.map_cons]

def ParseTree.renumber (tree : ParseTree) : ParseTree :=
  ⟨tree.root.renumber number, tree.nodeCount⟩

def Operand.renumber : Operand → Operand
  | .invoke callee => .invoke (callee.renumber number)
  | .matchLiteral bytes => .matchLiteral bytes
  | .endOfInput => .endOfInput
  | .reduce kind start count => .reduce (kind.renumber number) start count
  | .matchByte byte => .matchByte byte

theorem Operation.operand_renumber (operation : Operation) :
    (operation.renumber number).operand = operation.operand.renumber number := by
  cases operation <;> rfl

def Production.renumber : Production → Production
  | .byte => .byte
  | .tree node => .tree (node.renumber number)

@[simp] theorem Production.isByte_renumber (production : Production) :
    (production.renumber number).isByte = production.isByte := by
  cases production <;> rfl

@[simp] theorem Production.tree?_renumber (production : Production) :
    (production.renumber number).tree? = production.tree?.map (Tree.renumber number) := by
  cases production <;> rfl

def MachineState.renumber (state : MachineState) : MachineState where
  offset := state.offset
  operands := state.operands.map (Operand.renumber number)
  productions := state.productions.map (Production.renumber number)
  nodeCount := state.nodeCount

@[simp] theorem MachineState.renumber_offset (state : MachineState) :
    (state.renumber number).offset = state.offset := rfl

def Step.renumber : Step → Step
  | .next state => .next (state.renumber number)
  | .stop result => .stop (result.map (ParseTree.renumber number))

end Renumber

variable {number : Nat → Nat}

@[simp] theorem NodeKind.renumber_eq_literal_iff (kind : NodeKind) :
    kind.renumber number = .literal ↔ kind = .literal := by
  cases kind <;> simp [renumber]

theorem popEntries_map {α β : Type} (convert : α → β) (taken : List α) (count : Nat)
    (stack : List α) :
    popEntries (taken.map convert) count (stack.map convert) =
      (popEntries taken count stack).map (Prod.map (List.map convert) (List.map convert)) := by
  fun_induction popEntries taken count stack with
  | case1 => simp [popEntries]
  | case2 => rfl
  | case3 taken count entry rest ih => exact ih

theorem mapM_tree?_renumber (productions : List Production) :
    (productions.map (Production.renumber number)).mapM Production.tree? =
      (productions.mapM Production.tree?).map (List.map (Tree.renumber number)) := by
  induction productions with
  | nil => rfl
  | cons production rest ih =>
      rw [List.map_cons, List.mapM_cons, List.mapM_cons, ih, Production.tree?_renumber]
      cases production.tree? with
      | none => rfl
      | some tree => cases rest.mapM Production.tree? <;> rfl

/-! ### Tables and machines under other ids -/

structure Table.Renumbers (number : Nat → Nat) (table other : Table) : Prop where
  absent : ∀ id, table.row? id = none → other.row? (number id) = none
  present : ∀ id row, table.row? id = some row →
    ∃ otherRow, other.row? (number id) = some otherRow ∧ ∀ byte,
      otherRow.lookup byte = (row.lookup byte).map (List.map (Operation.renumber number))

theorem Table.Renumbers.row?_eq_none_iff {table other : Table}
    (renumbers : table.Renumbers number other) (id : Nat) :
    other.row? (number id) = none ↔ table.row? id = none := by
  refine ⟨fun missing => ?_, renumbers.absent id⟩
  cases present : table.row? id with
  | none => rfl
  | some row =>
      obtain ⟨otherRow, otherPresent, _⟩ := renumbers.present id row present
      simp [missing] at otherPresent

namespace Machine

/-- The same machine, where the rules have other ids, except for the start rule. -/
structure Renumbers (number : Nat → Nat) (machine other : Machine) : Prop where
  bijective : Function.Bijective number
  start : number 0 = 0
  table : machine.table.Renumbers number other.table
  names : ∀ id, other.names.nameOf (.rule (number id)) = machine.names.nameOf (.rule id)
  input : other.input = machine.input

theorem expand_renumber (number : Nat → Nat) (state : MachineState) (below : List Operand)
    (kind : NodeKind) (operands : List Operand) :
    expand (state.renumber number) (below.map (Operand.renumber number)) (kind.renumber number)
        (operands.map (Operand.renumber number)) =
      (expand state below kind operands).renumber number := by
  simp [expand, Step.renumber, MachineState.renumber, Operand.renumber]

theorem complete_renumber (number : Nat → Nat) (state : MachineState) (below : List Operand)
    (productions : List Production) (kind : NodeKind) (start serial : Nat)
    (children : List Tree) :
    complete (state.renumber number) (below.map (Operand.renumber number))
        (productions.map (Production.renumber number)) (kind.renumber number) start serial
        (children.map (Tree.renumber number)) =
      (complete state below productions kind start serial children).renumber number := by
  simp [complete, Step.renumber, MachineState.renumber, Production.renumber, Tree.renumber,
    Tree.renumberAll_eq_map]

theorem stepReduce_renumber (number : Nat → Nat) (state : MachineState) (below : List Operand)
    (kind : NodeKind) (start count : Nat) :
    stepReduce (state.renumber number) (below.map (Operand.renumber number))
        (kind.renumber number) start count =
      (stepReduce state below kind start count).renumber number := by
  have popped : popEntries [] count (state.renumber number).productions =
      (popEntries [] count state.productions).map
        (Prod.map (List.map (Production.renumber number))
          (List.map (Production.renumber number))) :=
    popEntries_map (Production.renumber number) [] count state.productions
  simp only [stepReduce, popped, NodeKind.renumber_eq_literal_iff]
  cases popEntries [] count state.productions with
  | none => rfl
  | some entries =>
      obtain ⟨collected, productions⟩ := entries
      have allBytes : (collected.map (Production.renumber number)).all Production.isByte =
          collected.all Production.isByte := by
        simp [List.all_map, Function.comp_def]
      simp only [Option.map_some, Prod.map_apply, List.isEmpty_map, allBytes,
        mapM_tree?_renumber]
      split
      · split
        · exact complete_renumber number state below productions kind start _ []
        · rfl
      · split
        · exact complete_renumber number state below productions kind start (state.nodeCount + 1)
            [.node state.nodeCount .nothing ⟨start, start⟩ []]
        · cases collected.mapM Production.tree? with
          | none => rfl
          | some children =>
              exact complete_renumber number state below productions kind start _ children

namespace Renumbers

variable {machine other : Machine} (renumbers : machine.Renumbers number other)
include renumbers

theorem lookahead_eq (offset : Nat) : other.lookahead offset = machine.lookahead offset := by
  rw [lookahead, renumbers.input, lookahead]

theorem unexpected_eq (offset : Nat) (expected : Expected) :
    other.unexpected offset expected = machine.unexpected offset expected := by
  rw [unexpected, renumbers.input, unexpected]

theorem clamp_eq (offset : Nat) : other.clamp offset = machine.clamp offset := by
  rw [clamp, renumbers.input, clamp]

theorem stepEndOfLine_renumber (state : MachineState) (below : List Operand) :
    other.stepEndOfLine (state.renumber number) (below.map (Operand.renumber number)) =
      (machine.stepEndOfLine state below).renumber number := by
  simp only [stepEndOfLine, MachineState.renumber_offset, renumbers.lookahead_eq,
    renumbers.unexpected_eq]
  split
  · exact expand_renumber number state below .endOfLine [.matchLiteral [10]]
  · split
    · exact expand_renumber number state below .endOfLine
        [.matchLiteral [13], .matchLiteral [10]]
    · rfl

theorem stepRule_renumber (state : MachineState) (below : List Operand) (id : Nat) :
    other.stepRule (state.renumber number) (below.map (Operand.renumber number)) (number id) =
      (machine.stepRule state below id).renumber number := by
  simp only [stepRule, renumbers.names, MachineState.renumber_offset, renumbers.lookahead_eq,
    renumbers.unexpected_eq]
  cases present : machine.table.row? id with
  | none =>
      rw [renumbers.table.absent id present]
      rfl
  | some row =>
      obtain ⟨otherRow, otherPresent, lookups⟩ := renumbers.table.present id row present
      simp only [otherPresent, lookups]
      cases row.lookup (machine.lookahead state.offset) with
      | none => rfl
      | some operations =>
          simp only [Option.map_some]
          rw [← expand_renumber, List.map_map, List.map_map]
          congr 2
          funext operation
          exact operation.operand_renumber number

theorem stepByte_renumber (state : MachineState) (below : List Operand) (byte : UInt8) :
    other.stepByte (state.renumber number) (below.map (Operand.renumber number)) byte =
      (machine.stepByte state below byte).renumber number := by
  simp only [stepByte, MachineState.renumber_offset, renumbers.lookahead_eq,
    renumbers.unexpected_eq]
  split <;> rfl

theorem stepEndOfInput_renumber (state : MachineState) :
    other.stepEndOfInput (state.renumber number) =
      (machine.stepEndOfInput state).renumber number := by
  simp only [stepEndOfInput, MachineState.renumber_offset, renumbers.lookahead_eq]
  split
  · obtain ⟨offset, operands, productions, made⟩ := state
    rcases productions with _ | ⟨_ | node, _ | ⟨second, rest⟩⟩ <;> rfl
  · rfl

theorem step_renumber (state : MachineState) :
    other.step (state.renumber number) = (machine.step state).renumber number := by
  obtain ⟨offset, operands, productions, made⟩ := state
  cases operands with
  | nil => rfl
  | cons operand below =>
      cases operand with
      | invoke callee =>
          cases callee with
          | rule id => exact renumbers.stepRule_renumber ⟨offset, _, productions, made⟩ below id
          | endOfLine =>
              exact renumbers.stepEndOfLine_renumber ⟨offset, _, productions, made⟩ below
      | matchLiteral bytes =>
          have bytewise : (bytes.map Operand.matchByte).map (Operand.renumber number) =
              bytes.map .matchByte := by
            rw [List.map_map]
            rfl
          have expanded := expand_renumber number
            ⟨offset, .matchLiteral bytes :: below, productions, made⟩ below .literal
            (bytes.map .matchByte)
          rw [bytewise] at expanded
          exact expanded
      | endOfInput => exact renumbers.stepEndOfInput_renumber ⟨offset, _, productions, made⟩
      | reduce kind start count =>
          exact stepReduce_renumber number ⟨offset, _, productions, made⟩ below kind start count
      | matchByte byte =>
          exact renumbers.stepByte_renumber ⟨offset, _, productions, made⟩ below byte

theorem openRules_renumber (offset : Nat) (operands : List Operand) :
    other.openRules offset (operands.map (Operand.renumber number)) =
      (machine.openRules offset operands).map number := by
  induction operands with
  | nil => rfl
  | cons operand below ih =>
      cases operand with
      | reduce kind start count =>
          simp only [List.map_cons, Operand.renumber, openRules, renumbers.clamp_eq]
          split
          · cases kind with
            | rule id => exact congrArg (number id :: ·) ih
            | _ => exact ih
          · rfl
      | _ => exact ih

theorem reenters_renumber (state : MachineState) :
    other.reenters (state.renumber number) = machine.reenters state := by
  obtain ⟨offset, operands, productions, made⟩ := state
  cases operands with
  | nil => rfl
  | cons operand below =>
      cases operand with
      | invoke callee =>
          cases callee with
          | rule id =>
              refine Bool.eq_iff_iff.mpr ?_
              change (other.openRules offset (below.map (Operand.renumber number))).contains
                (number id) = true ↔ (machine.openRules offset below).contains id = true
              rw [renumbers.openRules_renumber, List.contains_iff_mem, List.contains_iff_mem]
              -- Different rules have different ids on both sides.
              exact List.mem_map_of_injective renumbers.bijective.1
          | endOfLine => rfl
      | _ => rfl

theorem run_renumber (state : MachineState) :
    other.run (state.renumber number) =
      (machine.run state).map (Except.map (ParseTree.renumber number)) := by
  have entered := renumbers.reenters_renumber
  have stepped := renumbers.step_renumber
  fun_induction machine.run state with
  | case1 state again => exact run_of_reenters ((entered state).trans again)
  | case2 state fresh result stopped =>
      refine run_of_stop ((entered state).trans (by simpa using fresh)) ?_
      rw [stepped, stopped]
      rfl
  | case3 state fresh next went ih =>
      have moves : other.Moves (state.renumber number) (next.renumber number) := by
        refine step_eq_next_iff.mp ?_
        rw [stepped, went]
        rfl
      rw [run_of_moves ((entered state).trans (by simpa using fresh)) moves]
      exact ih

theorem isEmpty_eq : other.table.isEmpty = machine.table.isEmpty := by
  rw [Bool.eq_iff_iff, Table.isEmpty_iff, Table.isEmpty_iff, renumbers.bijective.2.forall]
  exact forall_congr' renumbers.table.row?_eq_none_iff

theorem parse_renumber :
    other.parse = machine.parse.map (Except.map (ParseTree.renumber number)) := by
  have started : (other.table.row? 0).isNone = (machine.table.row? 0).isNone := by
    have same := renumbers.table.row?_eq_none_iff 0
    rw [renumbers.start] at same
    rw [Bool.eq_iff_iff, Option.isNone_iff_eq_none, Option.isNone_iff_eq_none, same]
  have begins : initial.renumber number = initial := by
    simp [initial, MachineState.renumber, Operand.renumber, Callee.renumber, renumbers.start]
  rw [parse, parse, renumbers.isEmpty_eq, started, renumbers.input]
  split
  · rfl
  · split
    · rfl
    · split
      · rfl
      · rw [← renumbers.run_renumber, begins]

end Renumbers

end Machine

end Lookahead
