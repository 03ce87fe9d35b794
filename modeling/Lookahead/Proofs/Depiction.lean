import Lookahead.Proofs.Resolution
import Lookahead.Tree.Basic

/-!
The tree of nodes that shows a derivation, and what such a tree looks like.  A rule that derives
the empty text is cut down to a node with a placeholder below it.
-/

namespace Lookahead

namespace Derivation

mutual

/-- The nodes that show a derivation whose text begins at the offset, where some nodes are made
already.  Nodes are numbered in the order in which they are completed. -/
def depict (offset made : Nat) : Derivation → List Tree
  | terminal bytes => [.node made .literal ⟨offset, offset + bytes.length⟩ []]
  | empty => []
  | lineFeed =>
      [.node (made + 1) .endOfLine ⟨offset, offset + 1⟩
        [.node made .literal ⟨offset, offset + 1⟩ []]]
  | carriageReturn =>
      [.node (made + 2) .endOfLine ⟨offset, offset + 2⟩
        [.node made .literal ⟨offset, offset + 1⟩ [],
          .node (made + 1) .literal ⟨offset + 1, offset + 2⟩ []]]
  | rule id children =>
      let inner :=
        if yields children = [] then [.node made .nothing ⟨offset, offset⟩ []]
        else depictAll offset made children
      [.node (made + Tree.sizes inner) (.rule id)
        ⟨offset, offset + (yields children).length⟩ inner]

def depictAll (offset made : Nat) : List Derivation → List Tree
  | [] => []
  | tree :: rest =>
      let here := depict offset made tree
      here ++ depictAll (offset + tree.yield.length) (made + Tree.sizes here) rest

end

theorem yields_eq_nil_of_depictAll {offset made : Nat} {trees : List Derivation}
    (none : depictAll offset made trees = []) : yields trees = [] := by
  induction trees generalizing offset made with
  | nil => rfl
  | cons tree rest ih =>
      obtain ⟨here, later⟩ := List.append_eq_nil_iff.mp none
      cases tree with
      | empty => simpa [yields, yield] using ih later
      | _ => simp [depict] at here

end Derivation

namespace Grammar

/-- Each tree shows the symbol at its place: a literal has the text of its terminal, a line
terminator the literals of its bytes, and a node of a rule shows one of its alternatives or,
where the rule may be empty, a placeholder. -/
inductive Shows (grammar : Grammar) (input : Array UInt8) : List Symbol → List Tree → Prop
  | nil : Shows grammar input [] []
  | terminal {symbols trees bytes serial span} : span.text? input = some bytes →
      Shows grammar input symbols trees →
      Shows grammar input (.terminal bytes :: symbols) (.node serial .literal span [] :: trees)
  | lineFeed {symbols trees serial span} : grammar.rule? endOfLineName = none →
      Shows grammar input [.terminal [10]] [.node serial .literal span []] →
      Shows grammar input symbols trees →
      Shows grammar input (.nonTerminal endOfLineName :: symbols)
        (.node (serial + 1) .endOfLine span [.node serial .literal span []] :: trees)
  | carriageReturn {symbols trees serial start middle stop} :
      grammar.rule? endOfLineName = none →
      Shows grammar input [.terminal [13], .terminal [10]]
        [.node serial .literal ⟨start, middle⟩ [], .node (serial + 1) .literal ⟨middle, stop⟩ []] →
      Shows grammar input symbols trees →
      Shows grammar input (.nonTerminal endOfLineName :: symbols)
        (.node (serial + 2) .endOfLine ⟨start, stop⟩
          [.node serial .literal ⟨start, middle⟩ [],
            .node (serial + 1) .literal ⟨middle, stop⟩ []] :: trees)
  | empty {symbols trees id rule derivation serial offset} : grammar.rules[id]? = some rule →
      grammar.Derives [.nonTerminal rule.head] [derivation] [] →
      Shows grammar input symbols trees →
      Shows grammar input (.nonTerminal rule.head :: symbols)
        (.node (serial + 1) (.rule id) ⟨offset, offset⟩
          [.node serial .nothing ⟨offset, offset⟩ []] :: trees)
  | rule {symbols trees id rule alternative children serial span} :
      grammar.rules[id]? = some rule → alternative ∈ rule.alternatives →
      span.start < span.stop → Shows grammar input alternative children →
      Shows grammar input symbols trees →
      Shows grammar input (.nonTerminal rule.head :: symbols)
        (.node serial (.rule id) span children :: trees)

end Grammar

theorem Span.text?_of_append {input : Array UInt8} {front text rest : List UInt8}
    (whole : input.toList = front ++ text ++ rest) :
    (Span.mk front.length (front.length + text.length)).text? input = some text := by
  have size : input.size = front.length + text.length + rest.length := by
    simpa [Nat.add_assoc] using congrArg List.length whole
  rw [Span.text?, if_pos (by simp only; omega)]
  simp [whole]

namespace Grammar

variable {grammar : Grammar}

def EmptyAlone (grammar : Grammar) : Prop :=
  ∀ rule ∈ grammar.rules, ∀ alternative ∈ rule.alternatives,
    .empty ∈ alternative → alternative = [.empty]

theorem Resolves.emptyAlone {resolved : Resolved grammar.rules.length}
    (resolves : grammar.Resolves resolved) : grammar.EmptyAlone := by
  intro rule member alternative chosen mixed
  obtain ⟨id, bound, rfl⟩ := List.getElem_of_mem member
  obtain ⟨_, _, _, unmixed⟩ :=
    exists_of_forall₂_left (resolves.forall₂_alternatives ⟨id, bound⟩) chosen
  cases alternative with
  | nil => simp at mixed
  | cons symbol rest =>
      cases rest with
      | nil => simpa [eq_comm] using mixed
      | cons other rest => exact absurd mixed (unmixed (by simp))

theorem Derives.shows (alone : grammar.EmptyAlone) {symbols trees text}
    (derives : grammar.Derives symbols trees text) (solid : .empty ∉ symbols)
    {input : Array UInt8} (front rest : List UInt8)
    (whole : input.toList = front ++ text ++ rest) (made : Nat) :
    grammar.Shows input symbols (Derivation.depictAll front.length made trees) := by
  induction derives generalizing front rest made with
  | nil => exact .nil
  | @terminal symbols trees text bytes _ ih =>
      have here : input.toList = front ++ bytes ++ (text ++ rest) := by simpa using whole
      refine .terminal (Span.text?_of_append here) ?_
      have later := ih (by simp_all) (front ++ bytes) rest (by simpa using whole)
      simpa [Derivation.yield] using later _
  | empty => simp at solid
  | @lineFeed symbols trees text builtin _ ih =>
      have here : input.toList = front ++ [10] ++ (text ++ rest) := by simpa using whole
      have later := ih (by simp_all) (front ++ [10]) rest (by simpa using whole)
      exact .lineFeed builtin (.terminal (Span.text?_of_append here) .nil)
        (by simpa [Derivation.yield] using later _)
  | @carriageReturn symbols trees text builtin _ ih =>
      have one : input.toList = front ++ [13] ++ (10 :: (text ++ rest)) := by simpa using whole
      have two : input.toList = (front ++ [13]) ++ [10] ++ (text ++ rest) := by
        simpa using whole
      have later := ih (by simp_all) (front ++ [13, 10]) rest (by simpa using whole)
      have second := Span.text?_of_append two
      simp only [List.length_append, List.length_singleton, Nat.add_assoc] at second
      exact .carriageReturn builtin
        (.terminal (Span.text?_of_append one) (.terminal second .nil))
        (by simpa [Derivation.yield] using later _)
  | @rule symbols trees text id rule alternative children inner found chosen innerDerives _
      innerIh ih =>
      have later := ih (by simp_all) (front ++ inner) rest (by simpa using whole)
      simp only [Derivation.depictAll, Derivation.depict, Derivation.yield,
        innerDerives.yields_eq, List.cons_append, List.nil_append]
      by_cases vacant : inner = []
      · subst vacant
        rw [if_pos rfl]
        have vacantly : grammar.Derives [.nonTerminal rule.head] [.rule id children] [] := by
          simpa using Derives.rule found chosen innerDerives .nil
        exact .empty found vacantly (by simpa using later _)
      · rw [if_neg vacant]
        have extent := List.length_pos_iff.mpr vacant
        refine .rule found chosen (by simp only; omega) ?_ (by simpa using later _)
        refine innerIh ?_ front (text ++ rest) (by simpa using whole) made
        intro mixed
        obtain rfl := alone rule (List.mem_of_getElem? found) alternative chosen mixed
        cases innerDerives with
        | empty none =>
            cases none
            exact vacant rfl

end Grammar

end Lookahead
