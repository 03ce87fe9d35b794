import Lookahead.Proofs.Derivation
import Mathlib.Computability.ContextFreeGrammar

/-!
The context-free language of a grammar: terminals derive their bytes, and a name that no rule has
derives the two line terminators if it is the name of the built-in one.  A text is in the
language exactly if it has a derivation tree.
-/

abbrev ByteSymbol := Symbol UInt8 String

namespace Lookahead

def Symbol.form : Symbol → List ByteSymbol
  | terminal bytes => bytes.map .terminal
  | nonTerminal name => [.nonterminal name]
  | empty => []

theorem Symbol.form_eq_terminal_cons {symbol : Symbol} {byte : UInt8} {form : List ByteSymbol}
    (begins : symbol.form = .terminal byte :: form) :
    ∃ bytes, symbol = .terminal (byte :: bytes) ∧ form = bytes.map .terminal := by
  cases symbol with
  | terminal bytes =>
      cases bytes with
      | nil => simp [Symbol.form] at begins
      | cons first bytes =>
          obtain ⟨same, rfl⟩ := List.cons.inj begins
          cases same
          exact ⟨bytes, rfl, rfl⟩
  | nonTerminal name => simp [Symbol.form] at begins
  | empty => simp [Symbol.form] at begins

theorem Symbol.form_eq_nonterminal_cons {symbol : Symbol} {name : String}
    {form : List ByteSymbol} (begins : symbol.form = .nonterminal name :: form) :
    symbol = .nonTerminal name ∧ form = [] := by
  cases symbol with
  | terminal bytes => cases bytes <;> simp [Symbol.form] at begins
  | nonTerminal other =>
      obtain ⟨same, rfl⟩ := List.cons.inj begins
      cases same
      exact ⟨rfl, rfl⟩
  | empty => simp [Symbol.form] at begins

theorem exists_first_of_form {symbols : List Symbol} {first : ByteSymbol} {form : List ByteSymbol}
    (begins : symbols.flatMap Symbol.form = first :: form) :
    ∃ front symbol rest inner, symbols = front ++ symbol :: rest ∧
      (∀ other ∈ front, Symbol.form other = []) ∧ symbol.form = first :: inner ∧
      form = inner ++ rest.flatMap Symbol.form := by
  induction symbols with
  | nil => simp at begins
  | cons symbol rest ih =>
      rw [List.flatMap_cons] at begins
      rcases List.append_eq_cons_iff.mp begins with ⟨vanishes, begins⟩ | ⟨inner, own, rfl⟩
      · obtain ⟨front, next, rest, inner, rfl, vanish, own, rfl⟩ := ih begins
        exact ⟨symbol :: front, next, rest, inner, rfl, by simpa [vanishes] using vanish, own, rfl⟩
      · exact ⟨[], symbol, rest, inner, rfl, by simp, own, rfl⟩

namespace Grammar

def endOfLineProductions : List (ContextFreeRule UInt8 String) :=
  [⟨endOfLineName, [.terminal 10]⟩, ⟨endOfLineName, [.terminal 13, .terminal 10]⟩]

def productions (grammar : Grammar) : List (ContextFreeRule UInt8 String) :=
  (grammar.rules.flatMap fun rule =>
    rule.alternatives.map fun symbols => ⟨rule.head, symbols.flatMap Symbol.form⟩) ++
  if grammar.rule? endOfLineName = none then endOfLineProductions else []

abbrev contextFree (grammar : Grammar) (start : String) : ContextFreeGrammar UInt8 where
  NT := String
  initial := start
  rules := grammar.productions.toFinset

/-- The texts that the rule with the given name derives. -/
def language (grammar : Grammar) (start : String) : Language UInt8 :=
  (grammar.contextFree start).language

variable {grammar : Grammar}

theorem mem_rules_contextFree {start : String} {production : ContextFreeRule UInt8 String} :
    production ∈ (grammar.contextFree start).rules ↔ production ∈ grammar.productions :=
  List.mem_toFinset

theorem mem_productions {production : ContextFreeRule UInt8 String} :
    production ∈ grammar.productions ↔
      (∃ rule ∈ grammar.rules, ∃ symbols ∈ rule.alternatives,
        production = ⟨rule.head, symbols.flatMap Symbol.form⟩) ∨
      (grammar.rule? endOfLineName = none ∧ production ∈ endOfLineProductions) := by
  simp only [productions, List.mem_append, List.mem_flatMap, List.mem_map]
  split
  · rename_i builtin
    simp only [builtin, true_and, eq_comm]
  · rename_i defined
    simp only [defined, false_and, List.not_mem_nil, or_false, eq_comm]

/-- A sentential form expands to a text by replacing each of its rules once and for all. -/
inductive Expands (grammar : Grammar) : List ByteSymbol → List UInt8 → Prop
  | nil : Expands grammar [] []
  | byte {form text} (byte : UInt8) : Expands grammar form text →
      Expands grammar (.terminal byte :: form) (byte :: text)
  | production {form text head output inner} :
      (⟨head, output⟩ : ContextFreeRule UInt8 String) ∈ grammar.productions →
      Expands grammar output inner → Expands grammar form text →
      Expands grammar (.nonterminal head :: form) (inner ++ text)

theorem Expands.append {left right leftText rightText} (one : grammar.Expands left leftText)
    (two : grammar.Expands right rightText) :
    grammar.Expands (left ++ right) (leftText ++ rightText) := by
  induction one with
  | nil => exact two
  | byte byte _ ih => exact Expands.byte byte ih
  | production member inner _ _ ih => simpa using Expands.production member inner ih

theorem Expands.split {left right text} (expands : grammar.Expands (left ++ right) text) :
    ∃ leftText rightText, text = leftText ++ rightText ∧
      grammar.Expands left leftText ∧ grammar.Expands right rightText := by
  induction left generalizing text with
  | nil => exact ⟨[], text, rfl, Expands.nil, expands⟩
  | cons symbol left ih =>
      cases expands with
      | byte byte rest =>
          obtain ⟨leftText, rightText, rfl, one, two⟩ := ih rest
          exact ⟨byte :: leftText, rightText, rfl, Expands.byte byte one, two⟩
      | production member inner rest =>
          obtain ⟨leftText, rightText, rfl, one, two⟩ := ih rest
          exact ⟨_ ++ leftText, rightText, by rw [List.append_assoc],
            Expands.production member inner one, two⟩

theorem expands_terminals (text : List UInt8) : grammar.Expands (text.map .terminal) text := by
  induction text with
  | nil => exact Expands.nil
  | cons byte rest ih => exact Expands.byte byte ih

theorem Expands.of_produces {start : String} {before after : List ByteSymbol} {text}
    (step : (grammar.contextFree start).Produces before after)
    (expands : grammar.Expands after text) : grammar.Expands before text := by
  obtain ⟨production, member, rewrites⟩ := step
  obtain ⟨front, back, rfl, rfl⟩ := rewrites.exists_parts
  obtain ⟨frontInner, backText, rfl, one, backExpands⟩ := Expands.split expands
  obtain ⟨frontText, inner, rfl, frontExpands, innerExpands⟩ := Expands.split one
  have single := Expands.production (mem_rules_contextFree.mp member) innerExpands Expands.nil
  rw [List.append_nil] at single
  exact (frontExpands.append single).append backExpands

theorem expands_of_derives {start : String} {form : List ByteSymbol} {text : List UInt8}
    (derives : (grammar.contextFree start).Derives form (text.map .terminal)) :
    grammar.Expands form text := by
  induction derives using Relation.ReflTransGen.head_induction_on with
  | refl => exact expands_terminals text
  | head step _ ih => exact Expands.of_produces step ih

theorem derives_endOfLine {symbols trees text output inner}
    (builtin : grammar.rule? endOfLineName = none)
    (member : (⟨endOfLineName, output⟩ : ContextFreeRule UInt8 String) ∈ endOfLineProductions)
    (expands : grammar.Expands output inner) (rest : grammar.Derives symbols trees text) :
    ∃ tree, grammar.Derives (.nonTerminal endOfLineName :: symbols) (tree :: trees)
      (inner ++ text) := by
  simp only [endOfLineProductions, List.mem_cons, ContextFreeRule.mk.injEq, true_and,
    List.not_mem_nil, or_false] at member
  rcases member with rfl | rfl
  · cases expands with
    | byte byte rest' =>
        cases rest'
        exact ⟨_, Derives.lineFeed builtin rest⟩
  · cases expands with
    | byte byte rest' =>
        cases rest' with
        | byte byte rest'' =>
            cases rest''
            exact ⟨_, Derives.carriageReturn builtin rest⟩

theorem Derives.behind {front symbols trees text}
    (vanish : ∀ symbol ∈ front, Symbol.form symbol = [])
    (derives : grammar.Derives symbols trees text) :
    ∃ trees, grammar.Derives (front ++ symbols) trees text := by
  induction front with
  | nil => exact ⟨trees, derives⟩
  | cons symbol front ih =>
      have vanishes := vanish symbol List.mem_cons_self
      obtain ⟨trees, derives⟩ := ih fun other member =>
        vanish other (List.mem_cons_of_mem _ member)
      cases symbol with
      | terminal bytes =>
          obtain rfl := List.map_eq_nil_iff.mp vanishes
          exact ⟨_, Derives.terminal [] derives⟩
      | nonTerminal name => simp [Symbol.form] at vanishes
      | empty => exact ⟨_, Derives.empty derives⟩

theorem exists_derives_of_production {head output inner symbols trees text}
    (member : (⟨head, output⟩ : ContextFreeRule UInt8 String) ∈ grammar.productions)
    (expands : grammar.Expands output inner)
    (derives : ∀ symbols : List Symbol, output = symbols.flatMap Symbol.form →
      ∃ trees, grammar.Derives symbols trees inner)
    (rest : grammar.Derives symbols trees text) :
    ∃ tree, grammar.Derives (.nonTerminal head :: symbols) (tree :: trees) (inner ++ text) := by
  rcases mem_productions.mp member with ⟨rule, inGrammar, chosen, among, equal⟩ |
    ⟨builtin, member⟩
  · simp only [ContextFreeRule.mk.injEq] at equal
    obtain ⟨rfl, rfl⟩ := equal
    obtain ⟨id, found⟩ := List.mem_iff_getElem?.mp inGrammar
    obtain ⟨children, innerDerives⟩ := derives chosen rfl
    exact ⟨_, Derives.rule found among innerDerives rest⟩
  · have named : head = endOfLineName := by
      simp only [endOfLineProductions, List.mem_cons, ContextFreeRule.mk.injEq,
        List.not_mem_nil, or_false] at member
      rcases member with equal | equal <;> exact equal.1
    subst named
    exact derives_endOfLine builtin member expands rest

/-- An expansion of symbols is the text of derivation trees.  The induction is on the expansion;
where a terminal begins, the symbols are cut inside it. -/
theorem exists_derives_of_expands {form text} (expands : grammar.Expands form text) :
    ∀ symbols : List Symbol, form = symbols.flatMap Symbol.form →
      ∃ trees, grammar.Derives symbols trees text := by
  induction expands with
  | nil =>
      intro symbols same
      simpa using Derives.behind (List.flatMap_eq_nil_iff.mp same.symm) Derives.nil
  | byte byte _ ih =>
      intro symbols same
      obtain ⟨front, symbol, rest, inner, rfl, vanish, own, rfl⟩ := exists_first_of_form same.symm
      obtain ⟨bytes, rfl, rfl⟩ := Symbol.form_eq_terminal_cons own
      obtain ⟨trees, derives⟩ := ih (.terminal bytes :: rest) rfl
      cases derives with
      | terminal _ derives => exact (Derives.terminal (byte :: bytes) derives).behind vanish
  | production member expands _ innerIh ih =>
      intro symbols same
      obtain ⟨front, symbol, rest, inner, rfl, vanish, own, rfl⟩ := exists_first_of_form same.symm
      obtain ⟨rfl, rfl⟩ := Symbol.form_eq_nonterminal_cons own
      obtain ⟨trees, derives⟩ := ih rest rfl
      obtain ⟨tree, derives⟩ := exists_derives_of_production member expands innerIh derives
      exact derives.behind vanish

theorem produces_head {start head : String} {output form : List ByteSymbol}
    (member : (⟨head, output⟩ : ContextFreeRule UInt8 String) ∈ grammar.productions) :
    (grammar.contextFree start).Produces (.nonterminal head :: form) (output ++ form) :=
  ⟨⟨head, output⟩, mem_rules_contextFree.mpr member, .head form⟩

theorem contextFree_derives {symbols trees text} (derives : grammar.Derives symbols trees text)
    (start : String) :
    (grammar.contextFree start).Derives (symbols.flatMap Symbol.form) (text.map .terminal) := by
  induction derives with
  | nil => exact ContextFreeGrammar.Derives.refl _
  | terminal bytes _ ih =>
      rw [List.flatMap_cons, List.map_append]
      exact ContextFreeGrammar.Derives.append_left ih _
  | empty _ ih => exact ih
  | lineFeed builtin _ ih =>
      have member := mem_productions.mpr (Or.inr ⟨builtin, List.mem_cons_self⟩)
      refine .head (produces_head member) ?_
      exact ContextFreeGrammar.Derives.append_left ih [.terminal 10]
  | carriageReturn builtin _ ih =>
      have member := mem_productions.mpr
        (Or.inr ⟨builtin, List.mem_cons_of_mem _ List.mem_cons_self⟩)
      refine .head (produces_head member) ?_
      exact ContextFreeGrammar.Derives.append_left ih [.terminal 13, .terminal 10]
  | rule found chosen _ _ innerIh ih =>
      have member := mem_productions.mpr
        (Or.inl ⟨_, List.mem_of_getElem? found, _, chosen, rfl⟩)
      refine .head (produces_head member) ?_
      rw [List.map_append]
      exact (ContextFreeGrammar.Derives.append_right innerIh _).trans
        (ContextFreeGrammar.Derives.append_left ih _)

theorem Derives.length_eq {symbols trees text} (derives : grammar.Derives symbols trees text) :
    trees.length = symbols.length := by
  induction derives <;> simp_all

theorem mem_language_iff {start : String} {text : List UInt8} :
    text ∈ grammar.language start ↔
      ∃ tree, grammar.Derives [.nonTerminal start] [tree] text := by
  constructor
  · intro member
    obtain ⟨trees, derives⟩ := exists_derives_of_expands (expands_of_derives member)
      [.nonTerminal start] rfl
    obtain ⟨tree, rfl⟩ := List.length_eq_one_iff.mp derives.length_eq
    exact ⟨tree, derives⟩
  · rintro ⟨tree, derives⟩
    exact contextFree_derives derives start

end Grammar

end Lookahead
