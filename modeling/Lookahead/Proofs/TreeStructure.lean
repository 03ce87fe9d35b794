import Lookahead.Proofs.Divergence
import Lookahead.Proofs.Recognition

/-!
The tree of any parse, whatever table was run.  Its nodes are numbered in post-order and each node
is tiled by its children; a table without reserved bytes in its literals reads no further than the
input, so the literals of the tree spell the input.
-/

namespace Lookahead

def Operand.Unreserved : Operand → Prop
  | .matchLiteral bytes => endOfInputByte ∉ bytes
  | .matchByte byte => byte ≠ endOfInputByte
  | .invoke _ | .endOfInput | .reduce .. => True

namespace Machine

variable {machine : Machine}

theorem Turns.unreserved
    (proper : ∀ bytes, machine.table.Offers (.matchLiteral bytes) → endOfInputByte ∉ bytes)
    {offset later : Nat} {operand : Operand} {added : List Operand}
    (unreserved : operand.Unreserved) (turns : machine.Turns offset operand later added) :
    ∀ other ∈ added, other.Unreserved := by
  intro other member
  cases turns.brings other member with
  | @offered operation offers =>
      cases operation with
      | matchLiteral bytes => exact proper bytes offers
      | invoke | endOfInput => trivial
  | byte same among =>
      subst same
      rintro rfl
      exact unreserved among
  | lineEnd either => rcases either with rfl | rfl <;> simp [Operand.Unreserved, endOfInputByte]
  | reduction => trivial

theorem Moves.within {state next : MachineState} (moves : machine.Moves state next)
    (unreserved : ∀ operand ∈ state.operands, operand.Unreserved)
    (within : state.offset ≤ machine.input.size) : next.offset ≤ machine.input.size := by
  cases moves with
  | @byte offset byte below productions made ahead =>
      exact lt_size_of_lookahead ahead (unreserved (.matchByte byte) List.mem_cons_self)
  | _ => exact within

theorem Steps.within
    (proper : ∀ bytes, machine.table.Offers (.matchLiteral bytes) → endOfInputByte ∉ bytes)
    {last : MachineState} (steps : machine.Steps initial last) :
    last.offset ≤ machine.input.size := by
  induction steps with
  | refl => exact Nat.zero_le _
  | tail reached moves ih =>
      refine moves.within (Steps.forall_operands (Turns.unreserved proper) reached ?_) ih
      simp [initial, Operand.Unreserved]

/-- Whatever the table, a tree that a parse returns is numbered in post-order, starts at 0 and is
tiled node by node.  If the table has no reserved byte in its literals, the tree covers the input
and nothing else, and its literals spell the input. -/
theorem parse_tree_sound (machine : Machine) {tree : ParseTree}
    (parsed : machine.parse = some (.ok tree)) :
    tree.Numbered ∧ tree.root.span.start = 0 ∧
      (∀ node ∈ tree.root.nodes, node.children ≠ [] →
        Tiles node.span.start node.span.stop node.children) ∧
      ((∀ bytes, machine.table.Offers (.matchLiteral bytes) → endOfInputByte ∉ bytes) →
        (∀ node ∈ tree.root.nodes,
          node.span.start ≤ node.span.stop ∧ node.span.stop ≤ machine.input.size) ∧
        tree.root.span = ⟨0, machine.input.size⟩ ∧
        Tree.spelling machine.input [tree.root] = some machine.input.toList) := by
  obtain ⟨unreserved, last, steps, stopped⟩ := exists_steps_of_parse parsed
  have coherent := steps.coherent coherent_initial
  cases stops_of_step stopped with
  | @accepted offset below root made ends =>
      obtain ⟨startIs, tiled, stopIs⟩ :
          root.span.start = 0 ∧ root.Tiled ∧ root.span.stop = offset := by
        have covers : Covers offset [.tree root] := coherent.covers
        generalize startIs : root.span.start = start at covers
        cases covers with
        | tree tiled covers =>
            rw [startIs] at covers
            cases covers
            exact ⟨rfl, tiled, rfl⟩
      have numbered : (ParseTree.mk root made).Numbered := by
        apply ParseTree.numbered_of_postorder
        simpa [completedTrees, Production.tree?] using coherent.numbered
      refine ⟨numbered, startIs, ?_, ?_⟩
      · intro node inside nonempty
        exact (tiled.of_mem_nodes inside).tiles nonempty
      · intro proper
        have within : offset ≤ machine.input.size := steps.within proper
        have whole : offset = machine.input.size := by
          have ahead := rest_eq_nil_of_lookahead unreserved ends
          rw [rest, List.drop_eq_nil_iff, Array.length_toList] at ahead
          omega
        have spanIs : root.span = ⟨0, machine.input.size⟩ := by
          rw [← startIs, ← whole, ← stopIs]
        refine ⟨?_, spanIs, ?_⟩
        · intro node inside
          obtain ⟨_, ordered, stops⟩ := tiled.within root List.mem_cons_self node inside
          rw [stopIs] at stops
          exact ⟨ordered, stops.trans within⟩
        · rw [tiled.spelling_eq (stopIs.symm ▸ within), Tree.text?, spanIs]
          simp [Span.text?]

/-- A table in which the start rule ends the input itself, and which has an empty literal. -/
def endingTable : Table :=
  ⟨#[some (.uniform [.invoke (.rule 1), .endOfInput]),
    some (.uniform [.matchLiteral [97], .matchLiteral []])]⟩

theorem endingTable_parse_tree :
    ∃ tree, (Machine.mk endingTable .empty #[97]).parse = some (.ok tree) ∧
      tree.root.kind = .rule 1 ∧ tree.Numbered ∧ tree.root.span = ⟨0, 1⟩ ∧
      Tiles 0 1 tree.root.children ∧ Tree.spelling #[97] [tree.root] = some [97] := by
  have parsed : (Machine.mk endingTable .empty #[97]).parse =
      some (.ok ⟨.node 2 (.rule 1) ⟨0, 1⟩
        [.node 0 .literal ⟨0, 1⟩ [], .node 1 .literal ⟨1, 1⟩ []], 3⟩) := by
    rw [parse_eq_run _ rfl (by decide)]
    exact (run_eq_some_iff .refl).mpr ⟨9, rfl⟩
  have proper : ∀ bytes, endingTable.Offers (.matchLiteral bytes) → endOfInputByte ∉ bytes := by
    intro bytes offers
    have member := offers.mem_operations
    simp only [Table.operations, endingTable, Row.uniform] at member
    simp at member
    rcases member with rfl | rfl <;> decide
  obtain ⟨numbered, _, tiles, whole⟩ := parse_tree_sound _ parsed
  obtain ⟨_, spanIs, spelled⟩ := whole proper
  exact ⟨_, parsed, rfl, numbered, spanIs, tiles _ (Tree.mem_nodes_self _) (List.cons_ne_nil _ _),
    spelled⟩

end Machine

end Lookahead
