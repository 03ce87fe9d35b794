import Lookahead.Proofs.Correctness
import Lookahead.Proofs.Forms
import Lookahead.Proofs.Turns

/-!
What the machine has read is always the beginning of a sentential form.  The operands on the stack
stand for the rest of the form, and each turn of the stack is a derivation.
-/

namespace Lookahead

def Operand.form (grammar : Grammar) : Operand → List ByteSymbol
  | .invoke .endOfLine => [.nonterminal endOfLineName]
  | .invoke (.rule id) => grammar.rules[id]?.toList.map fun rule => .nonterminal rule.head
  | .matchLiteral bytes => bytes.map .terminal
  | .matchByte byte => [.terminal byte]
  | .endOfInput | .reduce .. => []

variable {grammar : Grammar} {analysis : Analysis grammar.rules.length}

theorem form_operands {alternative : Alternative}
    {symbols : List (ResolvedSymbol grammar.rules.length)}
    (symbolwise : List.Forall₂ grammar.ResolvesTo alternative symbols) :
    (operands symbols).flatMap (Operand.form grammar) = alternative.flatMap Symbol.form := by
  induction symbolwise with
  | nil => rfl
  | cons here _ ih =>
      cases here with
      | terminal _ _ => simp [ih, Operand.form, Symbol.form]
      | rule index => simp [ih, Operand.form, Symbol.form]
      | endOfLine _ => simp [ih, Operand.form, Symbol.form]
      | empty => simp [ih, Symbol.form]

theorem Grammar.Resolves.exists_alternative (resolves : grammar.Resolves analysis.grammar)
    (start : String) {index : Fin grammar.rules.length}
    {symbols : List (ResolvedSymbol grammar.rules.length)}
    (chosen : symbols ∈ analysis.grammar.rules.get index) :
    ∃ alternative, List.Forall₂ grammar.ResolvesTo alternative symbols ∧
      (grammar.contextFree start).Derives ((Operand.invoke (.rule index.val)).form grammar)
        (alternative.flatMap Symbol.form) := by
  obtain ⟨alternative, symbolwise, rewrites⟩ := resolves.exists_alternative_of_chosen chosen
  have derives := (rewrites_iff start).mp rewrites
  exact ⟨alternative, symbolwise, by simpa [Operand.form] using derives⟩

namespace Machine

variable {machine : Machine}

section Generated

variable (sound : analysis.Sound) (resolves : grammar.Resolves analysis.grammar)
  (realizes : machine.table.Realizes analysis)

include resolves realizes in
theorem builtin_of_offers (offers : machine.table.Offers (.invoke .endOfLine)) :
    grammar.rule? endOfLineName = none := by
  obtain ⟨id, row, byte, operations, present, found, member⟩ := offers
  obtain ⟨symbols, chosen, taken⟩ :=
    (realizes.lookup_iff ⟨id, realizes.lt_of_row? present⟩ present).mp found
  rcases taken with ⟨_, _, rfl⟩ | ⟨_, _, rfl⟩
  · obtain ⟨symbol, among, same⟩ := List.mem_filterMap.mp member
    obtain ⟨alternative, symbolwise, _⟩ := resolves.exists_alternative "" chosen
    obtain ⟨original, _, resolution⟩ := exists_of_forall₂_left symbolwise.flip among
    cases resolution with
    | endOfLine builtin => exact builtin
    | terminal | rule | empty => simp [ResolvedSymbol.operation?] at same
  · simp at member

include sound resolves realizes in
theorem Opens.derives (start : String) {offset : Nat} {operand : Operand} {kind : NodeKind}
    {operands : List Operand} (opens : machine.Opens offset operand kind operands)
    (builtin : operand = .invoke .endOfLine → grammar.rule? endOfLineName = none) :
    (grammar.contextFree start).Derives (operand.form grammar)
      (operands.flatMap (Operand.form grammar)) := by
  cases opens with
  | lineFeed _ =>
      have production := Grammar.mem_productions.mpr (Or.inr ⟨builtin rfl, List.mem_cons_self⟩)
      exact (Grammar.produces_head production).single
  | carriageReturn _ =>
      have production := Grammar.mem_productions.mpr
        (Or.inr ⟨builtin rfl, List.mem_cons_of_mem _ List.mem_cons_self⟩)
      exact (Grammar.produces_head production).single
  | @rule id row operations present found =>
      have bound := realizes.lt_of_row? present
      obtain ⟨symbols, chosen, taken⟩ := (realizes.lookup_iff ⟨id, bound⟩ present).mp found
      obtain ⟨alternative, symbolwise, derives⟩ := resolves.exists_alternative start chosen
      rcases taken with ⟨_, _, rfl⟩ | ⟨marked, _, rfl⟩
      · rw [← form_operands symbolwise] at derives
        exact derives
      · obtain ⟨trees, vacant⟩ := Resolved.nullable_of_contains_firstOf sound.first_marks
          (sound.wellFormed _ symbols chosen) marked
        have original := resolves.derives_of_resolved vacant alternative symbolwise
        exact derives.trans (Grammar.contextFree_derives original start)
  | @literal bytes =>
      have same : (bytes.map Operand.matchByte).flatMap (Operand.form grammar) =
          (Operand.matchLiteral bytes).form grammar := by
        rw [List.flatMap_map]
        exact List.map_eq_flatMap.symm
      rw [same]

include sound resolves realizes in
theorem Turns.derives (start : String) {offset later : Nat} {operand : Operand}
    {added : List Operand} (turns : machine.Turns offset operand later added)
    (sane : operand.Sane grammar.rules.length offset)
    (builtin : operand = .invoke .endOfLine → grammar.rule? endOfLineName = none) :
    ∃ read : List UInt8,
      machine.input.toList.take later = machine.input.toList.take offset ++ read ∧
      (grammar.contextFree start).Derives (operand.form grammar)
        (read.map .terminal ++ added.flatMap (Operand.form grammar)) := by
  cases turns with
  | opens opened =>
      refine ⟨[], (List.append_nil _).symm, ?_⟩
      rw [List.flatMap_append]
      simpa [Operand.form] using opened.derives sound resolves realizes start builtin
  | @byte byte ahead =>
      have inside := lt_size_of_lookahead ahead sane
      have here : machine.input[offset] = byte := by
        simpa [lookahead, inside] using ahead
      refine ⟨[byte], ?_, .refl _⟩
      rw [List.take_add_one, Array.getElem?_toList, Array.getElem?_eq_getElem inside, here]
      rfl
  | reduce => exact ⟨[], (List.append_nil _).symm, .refl _⟩

include resolves realizes in
theorem Steps.builtin {last : MachineState} (steps : machine.Steps initial last) :
    ∀ operand ∈ last.operands, operand = .invoke .endOfLine →
      grammar.rule? endOfLineName = none := by
  refine steps.forall_operands ?_ (by simp [initial])
  intro offset operand later added _ turns other member
  cases turns.brings other member with
  | @offered operation offers =>
      intro same
      cases operation with
      | invoke callee =>
          obtain rfl : callee = .endOfLine := Operand.invoke.inj same
          exact builtin_of_offers resolves realizes offers
      | matchLiteral | endOfInput => simp [Operation.operand] at same
  | byte | lineEnd | reduction => simp

include sound resolves realizes in
/-- What has been read begins a sentential form, and the operands stand for the rest of it. -/
theorem Steps.viable {start : Rule} (first : grammar.startRule? = some start)
    {last : MachineState} (steps : machine.Steps initial last) :
    (grammar.contextFree start.head).Derives [.nonterminal start.head]
      ((machine.input.toList.take last.offset).map .terminal ++
        last.operands.flatMap (Operand.form grammar)) := by
  have found : grammar.rules[0]? = some start := by
    rw [← List.head?_eq_getElem?]
    exact first
  have positive : 0 < grammar.rules.length := (List.getElem?_eq_some_iff.mp found).1
  induction steps with
  | refl =>
      have whole : initial.operands.flatMap (Operand.form grammar) =
          [.nonterminal start.head] := by
        simp [initial, Operand.form, found]
      rw [whole]
      exact .refl _
  | @tail state next reached moves ih =>
      have healthy := (healthy_initial positive machine).steps sound realizes reached
      have builtin := Steps.builtin resolves realizes reached
      obtain ⟨operand, below, added, before, after, turns⟩ := moves.turns
      have top : operand ∈ state.operands := before ▸ List.mem_cons_self
      obtain ⟨read, taken, derives⟩ := turns.derives sound resolves realizes start.head
        (healthy.sane operand top) (builtin operand top)
      rw [before, List.flatMap_cons] at ih
      rw [after, taken, List.flatMap_append, List.map_append, List.append_assoc]
      have onward := (derives.append_right (below.flatMap (Operand.form grammar))).append_left
        ((machine.input.toList.take state.offset).map .terminal)
      exact ih.trans (by simpa using onward)

end Generated

end Machine

end Lookahead
