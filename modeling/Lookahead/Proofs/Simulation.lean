import Lookahead.Proofs.Depiction
import Lookahead.Proofs.Execution
import Lookahead.Proofs.Unambiguity

/-!
The machine follows a derivation: where the text of a derivation is ahead, the machine reads it,
takes the operands of its symbols off the stack and leaves the nodes that show it.
-/

namespace Lookahead

variable {n : Nat} {analysis : Analysis n}

def operands (symbols : List (ResolvedSymbol n)) : List Operand :=
  (symbols.filterMap ResolvedSymbol.operation?).map Operation.operand

@[simp] theorem operands_terminal (bytes : List UInt8) (rest : List (ResolvedSymbol n)) :
    operands (.terminal bytes :: rest) = .matchLiteral bytes :: operands rest := rfl

@[simp] theorem operands_empty (rest : List (ResolvedSymbol n)) :
    operands (.empty :: rest) = operands rest := rfl

@[simp] theorem operands_endOfLine (rest : List (ResolvedSymbol n)) :
    operands (.endOfLine :: rest) = .invoke .endOfLine :: operands rest := rfl

@[simp] theorem operands_rule (index : Fin n) (rest : List (ResolvedSymbol n)) :
    operands (.rule index :: rest) = .invoke (.rule index.val) :: operands rest := rfl

theorem Resolved.Derives.length_depictAll {grammar : Resolved n} {symbols trees text}
    (derives : grammar.Derives symbols trees text) (offset made : Nat) :
    (Derivation.depictAll offset made trees).length = (operands symbols).length := by
  induction derives generalizing offset made with
  | nil => rfl
  | terminal bytes _ ih => simpa [Derivation.depictAll, Derivation.depict] using ih _ _
  | empty _ ih => exact ih _ _
  | lineFeed _ ih => simpa [Derivation.depictAll, Derivation.depict] using ih _ _
  | carriageReturn _ ih => simpa [Derivation.depictAll, Derivation.depict] using ih _ _
  | rule _ _ _ _ ih => simpa [Derivation.depictAll, Derivation.depict] using ih _ _

namespace Table.Realizes

variable {table : Table} {index : Fin n} {symbols : List (ResolvedSymbol n)}

theorem lookup_of_derives (realizes : table.Realizes analysis) (sound : analysis.Sound)
    (chosen : symbols ∈ analysis.grammar.rules.get index) {trees : List Derivation}
    {text rest : List UInt8} (derives : analysis.grammar.Derives symbols trees text)
    (follows : (analysis.follow.get index).contains (rest.headD endOfInputByte) = true) :
    ∃ row, table.row? index.val = some row ∧
      row.lookup ((text ++ rest).headD endOfInputByte) =
        some (if text = [] then [] else symbols.filterMap ResolvedSymbol.operation?) := by
  obtain ⟨row, present, _⟩ := realizes.present index
  have proper := sound.wellFormed index symbols chosen
  have begins := Resolved.contains_firstOf_of_derives sound.wellFormed sound.first_closed derives
    proper
  refine ⟨row, present, (realizes.lookup_iff index present).mpr ⟨symbols, chosen, ?_⟩⟩
  cases text with
  | nil => exact Or.inr ⟨begins, follows, rfl⟩
  | cons byte text =>
      refine Or.inl ⟨begins, ?_, by simp⟩
      have unreserved := derives.reserved_not_mem sound.wellFormed proper
      rintro rfl
      simp at unreserved

end Table.Realizes

namespace Machine

variable {machine : Machine}

/-- A rule is invoked, its operations are carried out where its text is not empty, and a node takes
what they leave, or a placeholder where it is. -/
theorem steps_rule (sound : analysis.Sound) (realizes : machine.table.Realizes analysis)
    {index : Fin n} {alternative : List (ResolvedSymbol n)} {children : List Derivation}
    {inner later : List UInt8} (chosen : alternative ∈ analysis.grammar.rules.get index)
    (derives : analysis.grammar.Derives alternative children inner) {offset : Nat}
    (ahead : machine.rest offset = inner ++ later)
    (follows : (analysis.follow.get index).contains (later.headD endOfInputByte) = true)
    {below : List Operand} {productions : List Production} {made : Nat}
    (inside : machine.Steps
      ⟨offset, operands alternative ++
        .reduce (.rule index.val) offset (operands alternative).length :: below, productions, made⟩
      ⟨offset + inner.length,
        .reduce (.rule index.val) offset (operands alternative).length :: below,
        ((Derivation.depictAll offset made children).map Production.tree).reverse ++ productions,
        made + Tree.sizes (Derivation.depictAll offset made children)⟩) :
    machine.Steps ⟨offset, .invoke (.rule index.val) :: below, productions, made⟩
      ⟨offset + inner.length, below,
        (((Derivation.rule index.val children).depict offset made).map Production.tree).reverse ++
          productions,
        made + Tree.sizes ((Derivation.rule index.val children).depict offset made)⟩ := by
  obtain ⟨row, present, found⟩ := realizes.lookup_of_derives sound chosen derives follows
  rw [← ahead, ← lookahead_eq] at found
  have opened : machine.Steps
      ⟨offset, .invoke (.rule index.val) :: below, productions, made⟩ _ :=
    .single (.rule present found)
  by_cases vacant : inner = []
  · subst vacant
    rw [if_pos rfl] at opened
    have whole := opened.tail (.reduceNothing (by simp))
    simpa [Derivation.depict, derives.yields_eq, Tree.sizes, Tree.size, Nat.add_assoc] using whole
  · rw [if_neg vacant] at opened
    have nonempty : Derivation.depictAll offset made children ≠ [] := fun none =>
      vacant (derives.yields_eq ▸ Derivation.yields_eq_nil_of_depictAll none)
    have closed : machine.Moves
        ⟨offset + inner.length,
          .reduce (.rule index.val) offset (Derivation.depictAll offset made children).length ::
            below,
          ((Derivation.depictAll offset made children).map Production.tree).reverse ++ productions,
          made + Tree.sizes (Derivation.depictAll offset made children)⟩ _ :=
      .reduceTrees NodeKind.noConfusion nonempty
    rw [derives.length_depictAll] at closed
    rw [operands, List.length_map] at inside closed
    have whole := opened.trans (inside.tail closed)
    simpa [Derivation.depict, derives.yields_eq, vacant, Tree.sizes, Tree.size, Nat.add_comm,
      Nat.add_left_comm] using whole

/-- The induction is on the derivation; the productions and the operands below stay as they are,
so the nodes of an alternative are on top when the reduction of its rule comes. -/
theorem steps_of_derives (sound : analysis.Sound) (realizes : machine.table.Realizes analysis)
    {symbols trees text} (derives : analysis.grammar.Derives symbols trees text)
    (proper : Resolved.Proper symbols) {after : ByteSet}
    (followed : Resolved.Followed analysis.first analysis.follow after symbols) {offset : Nat}
    {later : List UInt8} (ahead : machine.rest offset = text ++ later)
    (follows : after.contains (later.headD endOfInputByte) = true) (below : List Operand)
    (productions : List Production) (made : Nat) :
    machine.Steps ⟨offset, operands symbols ++ below, productions, made⟩
      ⟨offset + text.length, below,
        ((Derivation.depictAll offset made trees).map Production.tree).reverse ++ productions,
        made + Tree.sizes (Derivation.depictAll offset made trees)⟩ := by
  induction derives generalizing after offset later below productions made with
  | nil => exact .refl
  | @terminal symbols trees text bytes _ ih =>
      rw [List.append_assoc] at ahead
      have here := steps_literal bytes ahead (operands symbols ++ below) productions made
      have rest := ih proper.2.2 followed (rest_add _ ahead) follows below
        (.tree (.node made .literal ⟨offset, offset + bytes.length⟩ []) :: productions) (made + 1)
      have whole := here.trans rest
      simpa [Derivation.depictAll, Derivation.depict, Derivation.yield, Tree.sizes, Tree.size,
        Nat.add_assoc] using whole
  | empty derives ih =>
      obtain rfl : _ = [] := proper
      cases derives
      exact ih trivial trivial ahead follows below productions made
  | @lineFeed symbols trees text _ ih =>
      have here := steps_lineFeed ahead (operands symbols ++ below) productions made
      have rest := ih proper followed (rest_add [10] ahead) follows below
      have whole := here.trans (rest _ _)
      simpa [Derivation.depictAll, Derivation.depict, Derivation.yield, Tree.sizes, Tree.size,
        Nat.add_assoc, Nat.add_comm text.length] using whole
  | @carriageReturn symbols trees text _ ih =>
      have here := steps_carriageReturn ahead (operands symbols ++ below) productions made
      have rest := ih proper followed (rest_add [13, 10] ahead) follows below
      have whole := here.trans (rest _ _)
      simpa [Derivation.depictAll, Derivation.depict, Derivation.yield, Tree.sizes, Tree.size,
        Nat.add_assoc, show text.length + (1 + 1) = 2 + text.length by omega] using whole
  | @rule symbols trees text index alternative children inner chosen innerDerives derives innerIh
      ih =>
      rw [List.append_assoc] at ahead
      have innerFollows := Resolved.contains_follow_of_derives sound.wellFormed
        sound.first_closed followed derives proper follows
      have inside := innerIh (sound.wellFormed _ _ chosen) (sound.follow_closed _ _ chosen) ahead
        innerFollows (.reduce (.rule index.val) offset (operands alternative).length ::
          (operands symbols ++ below)) productions made
      have here := steps_rule sound realizes chosen innerDerives ahead innerFollows inside
      have rest := ih proper followed.2 (rest_add _ ahead) follows below
      have whole := here.trans (rest _ _)
      simpa [Derivation.depictAll, Derivation.yield, innerDerives.yields_eq, Tree.sizes_append,
        Nat.add_assoc] using whole

end Machine

end Lookahead
