import Lookahead.Proofs.Reentry

/-!
What the machine accepts is derived.  The operands on the stack stand for texts, and each move
reads off the front what they stand for; so the input ahead of an accepting run is a text of the
operands that it starts from.
-/

namespace Lookahead

variable {n : Nat} {analysis : Analysis n}

/-- The operands of a stack, down to the end of the input, stand for the text. -/
inductive Resolved.Accounts (grammar : Resolved n) : List Operand → List UInt8 → Prop
  | endOfInput {below} : Accounts grammar (.endOfInput :: below) []
  | reduce {kind start count below text} : Accounts grammar below text →
      Accounts grammar (.reduce kind start count :: below) text
  | byte {byte below text} : Accounts grammar below text →
      Accounts grammar (.matchByte byte :: below) (byte :: text)
  | literal {bytes below text} : Accounts grammar below text →
      Accounts grammar (.matchLiteral bytes :: below) (bytes ++ text)
  | lineFeed {below text} : Accounts grammar below text →
      Accounts grammar (.invoke .endOfLine :: below) (10 :: text)
  | carriageReturn {below text} : Accounts grammar below text →
      Accounts grammar (.invoke .endOfLine :: below) (13 :: 10 :: text)
  | rule {index below tree inner text} : grammar.Derives [.rule index] [tree] inner →
      Accounts grammar below text →
      Accounts grammar (.invoke (.rule index.val) :: below) (inner ++ text)

namespace Resolved

variable {grammar : Resolved n}

theorem Derives.cons_rule {index : Fin n} {symbols : List (ResolvedSymbol n)}
    {tree : Derivation} {trees : List Derivation} {inner text : List UInt8}
    (here : grammar.Derives [.rule index] [tree] inner)
    (later : grammar.Derives symbols trees text) :
    grammar.Derives (.rule index :: symbols) (tree :: trees) (inner ++ text) := by
  cases here with
  | rule chosen inside none =>
      cases none
      rw [List.append_nil]
      exact .rule chosen inside later

theorem Accounts.bytes {bytes : List UInt8} {below : List Operand} {text : List UInt8}
    (accounts : grammar.Accounts (bytes.map .matchByte ++ below) text) :
    ∃ later, text = bytes ++ later ∧ grammar.Accounts below later := by
  induction bytes generalizing text with
  | nil => exact ⟨text, rfl, accounts⟩
  | cons byte bytes ih =>
      cases accounts with
      | byte rest =>
          obtain ⟨later, rfl, belowAccounts⟩ := ih rest
          exact ⟨later, rfl, belowAccounts⟩

theorem Accounts.operands (symbols : List (ResolvedSymbol n)) {below : List Operand}
    {text : List UInt8} (accounts : grammar.Accounts (operands symbols ++ below) text) :
    ∃ trees inner later, grammar.Derives symbols trees inner ∧ text = inner ++ later ∧
      grammar.Accounts below later := by
  induction symbols generalizing text with
  | nil => exact ⟨[], [], text, .nil, rfl, accounts⟩
  | cons symbol rest ih =>
      cases symbol with
      | empty =>
          obtain ⟨trees, inner, later, derives, rfl, belowAccounts⟩ := ih accounts
          exact ⟨_, inner, later, .empty derives, rfl, belowAccounts⟩
      | terminal bytes =>
          cases accounts with
          | literal accounts =>
              obtain ⟨trees, inner, later, derives, rfl, belowAccounts⟩ := ih accounts
              exact ⟨_, _, later, .terminal bytes derives, by simp, belowAccounts⟩
      | endOfLine =>
          cases accounts with
          | lineFeed accounts =>
              obtain ⟨trees, inner, later, derives, rfl, belowAccounts⟩ := ih accounts
              exact ⟨_, _, later, .lineFeed derives, rfl, belowAccounts⟩
          | carriageReturn accounts =>
              obtain ⟨trees, inner, later, derives, rfl, belowAccounts⟩ := ih accounts
              exact ⟨_, _, later, .carriageReturn derives, rfl, belowAccounts⟩
      | rule index =>
          rw [operands_rule, List.cons_append] at accounts
          generalize idIs : index.val = id at accounts
          cases accounts with
          | @rule other _ tree front _ here accounts =>
              obtain rfl := Fin.ext idIs
              obtain ⟨trees, inner, later, derives, rfl, belowAccounts⟩ := ih accounts
              exact ⟨_, _, later, here.cons_rule derives, by simp, belowAccounts⟩

end Resolved

namespace Machine

variable {machine : Machine}

theorem accounts_rule (sound : analysis.Sound) (realizes : machine.table.Realizes analysis)
    {index : Fin n} {row : Row} {byte : UInt8} {operations : List Operation}
    (present : machine.table.row? index.val = some row)
    (found : row.lookup byte = some operations) {below : List Operand} {kind : NodeKind}
    {start count : Nat} {text : List UInt8}
    (accounts : analysis.grammar.Accounts
      (operations.map Operation.operand ++ .reduce kind start count :: below) text) :
    analysis.grammar.Accounts (.invoke (.rule index.val) :: below) text := by
  obtain ⟨symbols, chosen, ⟨_, _, rfl⟩ | ⟨marked, _, rfl⟩⟩ :=
    (realizes.lookup_iff index present).mp found
  · obtain ⟨trees, inner, later, derives, split, accounts⟩ :=
      Resolved.Accounts.operands symbols accounts
    cases accounts with
    | reduce accounts =>
        rw [split]
        have rule : analysis.grammar.Derives [.rule index] [.rule index.val trees] inner := by
          simpa using Resolved.Derives.rule chosen derives .nil
        exact .rule rule accounts
  · obtain ⟨trees, derives⟩ := Resolved.nullable_of_contains_firstOf sound.first_marks
      (sound.wellFormed _ symbols chosen) marked
    cases accounts with
    | reduce accounts =>
        have rule : analysis.grammar.Derives [.rule index] [.rule index.val trees] [] := by
          simpa using Resolved.Derives.rule chosen derives .nil
        exact .rule rule accounts

theorem rest_eq_cons {offset : Nat} {byte : UInt8} (ahead : machine.lookahead offset = byte)
    (inside : offset < machine.input.size) :
    machine.rest offset = byte :: machine.rest (offset + 1) := by
  have here : machine.input[offset] = byte := by
    simpa [lookahead, inside] using ahead
  rw [rest, List.drop_eq_getElem_cons (by simpa using inside)]
  simp [rest, here]

theorem Moves.accounts (sound : analysis.Sound) (realizes : machine.table.Realizes analysis)
    {state next : MachineState} (healthy : machine.Healthy analysis state)
    (moves : machine.Moves state next)
    (accounts : analysis.grammar.Accounts next.operands (machine.rest next.offset)) :
    analysis.grammar.Accounts state.operands (machine.rest state.offset) := by
  cases moves with
  | @lineFeed offset below productions made ahead =>
      generalize machine.rest offset = text at accounts ⊢
      cases accounts with
      | literal accounts =>
          cases accounts with
          | reduce accounts => exact .lineFeed accounts
  | @carriageReturn offset below productions made ahead =>
      generalize machine.rest offset = text at accounts ⊢
      cases accounts with
      | literal accounts =>
          cases accounts with
          | literal accounts =>
              cases accounts with
              | reduce accounts => exact .carriageReturn accounts
  | @rule offset id below productions made row operations present found =>
      have bound : id < n := healthy.sane_top
      have row : machine.table.row? (⟨id, bound⟩ : Fin n).val = some row := present
      exact accounts_rule sound realizes row found accounts
  | @literal offset bytes below productions made =>
      obtain ⟨later, split, accounts⟩ := accounts.bytes
      cases accounts with
      | reduce accounts =>
          rw [split]
          exact .literal accounts
  | @byte offset byte below productions made ahead =>
      rw [rest_eq_cons ahead (lt_size_of_lookahead ahead healthy.sane_top)]
      exact .byte accounts
  | reduceLiteral => exact .reduce accounts
  | reduceNothing inner => exact .reduce accounts
  | reduceTrees inner nonempty => exact .reduce accounts

/-- By induction on the moves, from the accepting state back. -/
theorem Steps.accounts (sound : analysis.Sound) (realizes : machine.table.Realizes analysis)
    {state last : MachineState} (healthy : machine.Healthy analysis state)
    (steps : machine.Steps state last)
    (accounts : analysis.grammar.Accounts last.operands (machine.rest last.offset)) :
    analysis.grammar.Accounts state.operands (machine.rest state.offset) := by
  induction steps using Relation.ReflTransGen.head_induction_on with
  | refl => exact accounts
  | head moves _ ih =>
      exact moves.accounts sound realizes healthy (ih (healthy.moves sound realizes moves))

theorem rest_eq_nil_of_lookahead (unreserved : endOfInputByte ∉ machine.input.toList)
    {offset : Nat} (ends : machine.lookahead offset = endOfInputByte) :
    machine.rest offset = [] := by
  rw [lookahead_eq] at ends
  cases ahead : machine.rest offset with
  | nil => rfl
  | cons byte later =>
      rw [ahead, List.headD_cons] at ends
      have member : byte ∈ machine.rest offset := by simp [ahead]
      exact absurd (ends ▸ List.mem_of_mem_drop member) unreserved

variable (machine) (sound : analysis.Sound) (realizes : machine.table.Realizes analysis)
include sound realizes

theorem not_reenters_of_steps (positive : 0 < n) {state : MachineState}
    (steps : machine.Steps initial state) : machine.reenters state = false :=
  ((healthy_initial positive machine).steps sound realizes steps).not_reenters sound

/-- A run over a generated table ends, with an error inside the input or with a tree. -/
theorem exists_run (positive : 0 < n) :
    ∃ result, machine.run initial = some result ∧ ∀ error position,
      result = .error error → error.position? = some position → position ≤ machine.input.size := by
  obtain ⟨last, result, steps, stopped, same⟩ := exists_stop fun state steps =>
    not_reenters_of_steps machine sound realizes positive steps
  refine ⟨result, same, ?_⟩
  rintro error position rfl placed
  rw [(stops_of_step stopped).position_eq placed]
  exact ((healthy_initial positive machine).steps sound realizes steps).within

theorem derives_of_run (positive : 0 < n) (unreserved : endOfInputByte ∉ machine.input.toList)
    {tree : ParseTree} (accepted : machine.run initial = some (.ok tree)) :
    ∃ derivation,
      analysis.grammar.Derives [.rule ⟨0, positive⟩] [derivation] machine.input.toList := by
  obtain ⟨last, result, steps, stopped, same⟩ := exists_stop fun state steps =>
    not_reenters_of_steps machine sound realizes positive steps
  obtain rfl := Option.some.inj (same.symm.trans accepted)
  have ends : analysis.grammar.Accounts last.operands (machine.rest last.offset) := by
    cases stops_of_step stopped with
    | accepted ahead =>
        rw [rest_eq_nil_of_lookahead unreserved ahead]
        exact .endOfInput
  have accounts : analysis.grammar.Accounts (.invoke (.rule 0) :: [.endOfInput])
      machine.input.toList :=
    steps.accounts sound realizes (healthy_initial positive machine) ends
  obtain ⟨trees, inner, later, derives, split, accounts⟩ :=
    Resolved.Accounts.operands [.rule ⟨0, positive⟩] accounts
  cases accounts
  rw [split, List.append_nil]
  cases derives with
  | rule chosen inside none =>
      cases none
      exact ⟨_, .rule chosen inside .nil⟩

theorem run_of_derives (positive : 0 < n) {derivation : Derivation}
    (derives : analysis.grammar.Derives [.rule ⟨0, positive⟩] [derivation]
      machine.input.toList) :
    ∃ root, derivation.depict 0 0 = [root] ∧
      machine.run initial = some (.ok ⟨root, root.size⟩) := by
  obtain ⟨root, shown⟩ : ∃ root, derivation.depict 0 0 = [root] := by
    generalize machine.input.toList = text at derives
    cases derives with
    | rule => exact ⟨_, rfl⟩
  have ends : (ByteSet.ofList [endOfInputByte]).contains
      (([] : List UInt8).headD endOfInputByte) = true :=
    ByteSet.contains_ofList_iff.mpr List.mem_cons_self
  have ahead : machine.rest 0 = machine.input.toList ++ [] := by simp [rest]
  have steps := steps_of_derives sound realizes derives trivial (sound.followed_start rfl) ahead
    ends [.endOfInput] [] 0
  have whole : Derivation.depictAll 0 0 [derivation] = [root] := by
    simp [Derivation.depictAll, shown]
  rw [whole] at steps
  refine ⟨root, shown, run_of_steps (fun state reached =>
    not_reenters_of_steps machine sound realizes positive reached) steps ?_⟩
  simp [step, stepEndOfInput, lookahead, Tree.sizes]

end Machine

end Lookahead
