import Lookahead.Error
import Lookahead.Names
import Lookahead.Table.Basic
import Lookahead.Tree.Basic

/-!
The machine that runs a table over an input.  It keeps a stack of operands still to be done and
a stack of what was completed.  `step` takes one operand; `run` repeats it, and has no result
exactly where the repetition would not end: a rule is invoked again at the offset at which it is
still open, so the machine would take the same way for ever.
-/

namespace Lookahead

inductive Operand
  | invoke (callee : Callee)
  | matchLiteral (bytes : List UInt8)
  | endOfInput
  /-- Makes a node of the last `count` completed things, begun at offset `start`. -/
  | reduce (kind : NodeKind) (start count : Nat)
  | matchByte (byte : UInt8)
deriving DecidableEq

def Operation.operand : Operation → Operand
  | .invoke callee => .invoke callee
  | .matchLiteral bytes => .matchLiteral bytes
  | .endOfInput => .endOfInput

inductive Production
  /-- A byte that waits to become part of a literal. -/
  | byte
  | tree (node : Tree)

namespace Production

def isByte : Production → Bool
  | byte => true
  | tree _ => false

def tree? : Production → Option Tree
  | byte => none
  | tree node => some node

end Production

structure Machine where
  table : Table
  names : NameMap
  input : Array UInt8

/-- Both stacks have their latest entry in front. -/
structure MachineState where
  offset : Nat
  operands : List Operand
  productions : List Production
  nodeCount : Nat

inductive Step
  | next (state : MachineState)
  | stop (result : Except Error ParseTree)

/-- The first `count` entries of a stack, latest last, and the entries below them. -/
def popEntries {α : Type} (taken : List α) : Nat → List α → Option (List α × List α)
  | 0, rest => some (taken, rest)
  | _ + 1, [] => none
  | count + 1, entry :: rest => popEntries (entry :: taken) count rest

namespace Machine

def initial : MachineState where
  offset := 0
  operands := [.invoke (.rule 0), .endOfInput]
  productions := []
  nodeCount := 0

/-- The byte at an offset, where the end-of-input byte stands after the last one. -/
def lookahead (machine : Machine) (offset : Nat) : UInt8 :=
  machine.input[offset]?.getD endOfInputByte

def unexpected (machine : Machine) (offset : Nat) (expected : Expected) : Error :=
  match machine.input[offset]? with
  | some got => .parse (.unexpectedByte expected got offset)
  | none => .parse (.unexpectedEndOfInput expected offset)

def expand (state : MachineState) (below : List Operand) (kind : NodeKind)
    (operands : List Operand) : Step :=
  .next
    { state with
      operands := operands ++ .reduce kind state.offset operands.length :: below }

def stepEndOfLine (machine : Machine) (state : MachineState) (below : List Operand) : Step :=
  let lookahead := machine.lookahead state.offset
  if lookahead == 10 then expand state below .endOfLine [.matchLiteral [10]]
  else if lookahead == 13 then
    expand state below .endOfLine [.matchLiteral [13], .matchLiteral [10]]
  else .stop (.error (machine.unexpected state.offset .endOfLine))

def stepRule (machine : Machine) (state : MachineState) (below : List Operand) (id : Nat) : Step :=
  let name := machine.names.nameOf (.rule id)
  match machine.table.row? id with
  | none => .stop (.error (.table (.missingRow name)))
  | some row =>
    match row.lookup (machine.lookahead state.offset) with
    | none => .stop (.error (machine.unexpected state.offset (.rule name)))
    | some operations => expand state below (.rule id) (operations.map Operation.operand)

def stepByte (machine : Machine) (state : MachineState) (below : List Operand) (byte : UInt8) :
    Step :=
  if machine.lookahead state.offset == byte then
    .next
      { state with
        offset := state.offset + 1
        operands := below
        productions := .byte :: state.productions }
  else .stop (.error (machine.unexpected state.offset (.byte byte)))

def complete (state : MachineState) (below : List Operand) (productions : List Production)
    (kind : NodeKind) (start serial : Nat) (children : List Tree) : Step :=
  .next
    { state with
      operands := below
      productions := .tree (.node serial kind ⟨start, state.offset⟩ children) :: productions
      nodeCount := serial + 1 }

/-- Collects completed things into a node.  Bytes become a literal, nodes become children, and
where there is nothing to collect a placeholder becomes the only child. -/
def stepReduce (state : MachineState) (below : List Operand) (kind : NodeKind)
    (start count : Nat) : Step :=
  match popEntries [] count state.productions with
  | none => .stop (.error (.table .inconsistentReduction))
  | some (collected, productions) =>
    if kind = .literal then
      if collected.all Production.isByte then
        complete state below productions kind start state.nodeCount []
      else .stop (.error (.table .inconsistentReduction))
    else if collected.isEmpty then
      let placeholder := .node state.nodeCount .nothing ⟨start, start⟩ []
      complete state below productions kind start (state.nodeCount + 1) [placeholder]
    else
      match collected.mapM Production.tree? with
      | some children => complete state below productions kind start state.nodeCount children
      | none => .stop (.error (.table .inconsistentReduction))

def stepEndOfInput (machine : Machine) (state : MachineState) : Step :=
  let lookahead := machine.lookahead state.offset
  if lookahead == endOfInputByte then
    match state.productions with
    | [.tree root] => .stop (.ok ⟨root, state.nodeCount⟩)
    | _ => .stop (.error (.table .inconsistentReduction))
  else .stop (.error (.parse (.trailingInput lookahead state.offset)))

def step (machine : Machine) (state : MachineState) : Step :=
  match state.operands with
  | [] => .stop (.error (.table .inconsistentReduction))
  | .invoke .endOfLine :: below => machine.stepEndOfLine state below
  | .invoke (.rule id) :: below => machine.stepRule state below id
  | .matchLiteral bytes :: below => expand state below .literal (bytes.map .matchByte)
  | .matchByte byte :: below => machine.stepByte state below byte
  | .reduce kind start count :: below => stepReduce state below kind start count
  | .endOfInput :: _ => machine.stepEndOfInput state

/-- The offset as the lookahead depends on it: all offsets after the last byte are alike. -/
def clamp (machine : Machine) (offset : Nat) : Nat :=
  min offset machine.input.size

/-- The rules that are still open and were invoked with the same input ahead. -/
def openRules (machine : Machine) (offset : Nat) : List Operand → List Nat
  | [] => []
  | .reduce kind start _ :: below =>
    if machine.clamp start = machine.clamp offset then
      match kind with
      | .rule id => id :: machine.openRules offset below
      | _ => machine.openRules offset below
    else []
  | .invoke _ :: below | .matchLiteral _ :: below | .endOfInput :: below
  | .matchByte _ :: below => machine.openRules offset below

def reenters (machine : Machine) (state : MachineState) : Bool :=
  match state.operands with
  | .invoke (.rule id) :: below => (machine.openRules state.offset below).contains id
  | _ => false

end Machine

end Lookahead
