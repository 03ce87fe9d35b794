import Lookahead.Proofs.Language
import Lookahead.Proofs.Prediction

/-!
Sentential forms.  A form shows a byte where the first of its symbols stands for it, and what a
rewriting step puts in the place of a rule shows nothing that the FIRST set of the rule does not
hold.
-/

namespace Lookahead

namespace Grammar

/-- A form can be rewritten to the other.  The start of a derivation has no part in this. -/
def Rewrites (grammar : Grammar) (before after : List ByteSymbol) : Prop :=
  (grammar.contextFree "").Derives before after

/-- The symbol stands for a text that begins with the byte: it is the byte, or the built-in line
terminator, which begins with a line feed or a carriage return. -/
inductive Leads (grammar : Grammar) : ByteSymbol → UInt8 → Prop
  | byte (byte : UInt8) : Leads grammar (.terminal byte) byte
  | lineFeed : grammar.rule? endOfLineName = none → Leads grammar (.nonterminal endOfLineName) 10
  | carriageReturn :
      grammar.rule? endOfLineName = none → Leads grammar (.nonterminal endOfLineName) 13

def Begins (grammar : Grammar) (form : List ByteSymbol) (byte : UInt8) : Prop :=
  ∃ symbol rest, grammar.Rewrites form (symbol :: rest) ∧ grammar.Leads symbol byte

variable {grammar : Grammar}

theorem rewrites_iff (start : String) {before after : List ByteSymbol} :
    grammar.Rewrites before after ↔ (grammar.contextFree start).Derives before after :=
  Iff.rfl

theorem nil_mem_language_iff {head : String} :
    [] ∈ grammar.language head ↔ grammar.Rewrites [.nonterminal head] [] :=
  Iff.rfl

theorem Rewrites.refl (form : List ByteSymbol) : grammar.Rewrites form form :=
  Relation.ReflTransGen.refl

theorem Rewrites.trans {before between after : List ByteSymbol}
    (one : grammar.Rewrites before between) (two : grammar.Rewrites between after) :
    grammar.Rewrites before after :=
  ContextFreeGrammar.Derives.trans one two

theorem Rewrites.within {before after : List ByteSymbol} (rewrites : grammar.Rewrites before after)
    (front back : List ByteSymbol) :
    grammar.Rewrites (front ++ (before ++ back)) (front ++ (after ++ back)) :=
  (ContextFreeGrammar.Derives.append_right rewrites back).append_left front

theorem rewrites_of_mem {head : String} {output : List ByteSymbol}
    (member : (⟨head, output⟩ : ContextFreeRule UInt8 String) ∈ grammar.productions) :
    grammar.Rewrites [.nonterminal head] output := by
  have produces : (grammar.contextFree "").Produces [.nonterminal head] (output ++ []) :=
    produces_head member
  rw [List.append_nil] at produces
  exact produces.single

theorem Begins.of_rewrites {before after : List ByteSymbol} {byte : UInt8}
    (rewrites : grammar.Rewrites before after) (begins : grammar.Begins after byte) :
    grammar.Begins before byte := by
  obtain ⟨symbol, rest, later, leads⟩ := begins
  exact ⟨symbol, rest, rewrites.trans later, leads⟩

theorem Begins.append_right {form : List ByteSymbol} {byte : UInt8}
    (begins : grammar.Begins form byte) (back : List ByteSymbol) :
    grammar.Begins (form ++ back) byte := by
  obtain ⟨symbol, rest, rewrites, leads⟩ := begins
  exact ⟨symbol, rest ++ back, rewrites.within [] back, leads⟩

/-! ### Forms with their names resolved -/

/-- The counterpart of a symbol of a form.  A name that no rule has is that of the built-in line
terminator in all forms that are rewritten from a rule. -/
def resolveByteSymbol (grammar : Grammar) :
    ByteSymbol → ResolvedSymbol grammar.rules.length
  | .terminal byte => .terminal [byte]
  | .nonterminal name =>
      match grammar.rules.findFinIdx? (·.head == name) with
      | some index => .rule index
      | none => .endOfLine

abbrev resolveForm (grammar : Grammar) (form : List ByteSymbol) :
    List (ResolvedSymbol grammar.rules.length) :=
  form.map grammar.resolveByteSymbol

theorem resolveByteSymbol_head (distinct : (grammar.rules.map Rule.head).Nodup)
    (index : Fin grammar.rules.length) :
    grammar.resolveByteSymbol (.nonterminal (grammar.rules.get index).head) = .rule index := by
  have found : grammar.rules.findFinIdx? (·.head == (grammar.rules.get index).head) = some index :=
    (findFinIdx?_head_eq_some_iff distinct).mpr rfl
  simp only [resolveByteSymbol, found]

theorem resolveByteSymbol_endOfLine (builtin : grammar.rule? endOfLineName = none) :
    grammar.resolveByteSymbol (.nonterminal endOfLineName) = .endOfLine := by
  have absent : grammar.rules.findFinIdx? (·.head == endOfLineName) = none := by
    simpa [rule?] using builtin
  simp only [resolveByteSymbol, absent]

end Grammar

def ResolvedSymbol.spell {n : Nat} : ResolvedSymbol n → List (ResolvedSymbol n)
  | .terminal bytes => bytes.map fun byte => .terminal [byte]
  | .empty => []
  | .rule index => [.rule index]
  | .endOfLine => [.endOfLine]

theorem resolveForm_alternative {grammar : Grammar}
    (distinct : (grammar.rules.map Rule.head).Nodup) {alternative : Alternative}
    {symbols : List (ResolvedSymbol grammar.rules.length)}
    (symbolwise : List.Forall₂ grammar.ResolvesTo alternative symbols) :
    grammar.resolveForm (alternative.flatMap Symbol.form) =
      symbols.flatMap ResolvedSymbol.spell := by
  induction symbolwise with
  | nil => rfl
  | cons here _ ih =>
      rw [List.flatMap_cons, List.flatMap_cons, ← ih, Grammar.resolveForm, List.map_append]
      congr 1
      cases here with
      | terminal _ _ =>
          simp [Symbol.form, ResolvedSymbol.spell, Grammar.resolveByteSymbol]
      | rule index =>
          exact congrArg ([·]) (Grammar.resolveByteSymbol_head distinct index)
      | endOfLine builtin =>
          exact congrArg ([·]) (Grammar.resolveByteSymbol_endOfLine builtin)
      | empty => rfl

namespace Resolved

variable {n : Nat} {grammar : Resolved n} {first follow : Vector ByteSet n}

inductive Replaces (grammar : Resolved n) : ResolvedSymbol n → List (ResolvedSymbol n) → Prop
  | rule {index symbols} : symbols ∈ grammar.rules.get index →
      Replaces grammar (.rule index) (symbols.flatMap ResolvedSymbol.spell)
  | lineFeed : Replaces grammar .endOfLine [.terminal [10]]
  | carriageReturn : Replaces grammar .endOfLine [.terminal [13], .terminal [10]]

theorem contains_firstOf_cons {left right : List (ResolvedSymbol n)} {byte : UInt8}
    (within : ∀ byte, (firstOf first left).contains byte = true →
      (firstOf first right).contains byte = true) (symbol : ResolvedSymbol n)
    (begins : (firstOf first (symbol :: left)).contains byte = true) :
    (firstOf first (symbol :: right)).contains byte = true := by
  cases symbol with
  | rule index =>
      rw [contains_firstOf_rule] at begins ⊢
      exact begins.imp_right (And.imp_right (within byte))
  | terminal | endOfLine | empty => simpa using begins

theorem contains_firstOf_append {left right : List (ResolvedSymbol n)}
    (within : ∀ byte, (firstOf first left).contains byte = true →
      (firstOf first right).contains byte = true) (front : List (ResolvedSymbol n)) :
    ∀ byte, (firstOf first (front ++ left)).contains byte = true →
      (firstOf first (front ++ right)).contains byte = true := by
  induction front with
  | nil => exact within
  | cons symbol front ih => exact fun _ => contains_firstOf_cons ih symbol

theorem predicts_of_spell {symbols back : List (ResolvedSymbol n)} (proper : Proper symbols)
    {byte : UInt8}
    (begins : (firstOf first (symbols.flatMap ResolvedSymbol.spell ++ back)).contains byte = true) :
    Predicts first (firstOf first back) symbols byte := by
  induction symbols with
  | nil => exact Or.inr ⟨by simp, begins⟩
  | cons symbol rest ih =>
      cases symbol with
      | terminal bytes =>
          obtain ⟨head, tail, rfl⟩ := List.exists_cons_of_ne_nil proper.1
          obtain rfl : head = byte := by simpa [ResolvedSymbol.spell] using begins
          refine Or.inl ⟨by simp, ?_⟩
          rintro rfl
          simp [Proper] at proper
      | endOfLine =>
          have either : byte = 10 ∨ byte = 13 := by simpa [ResolvedSymbol.spell] using begins
          refine Or.inl ⟨by simpa using either, ?_⟩
          rcases either with rfl | rfl <;> decide
      | empty =>
          obtain rfl : rest = [] := proper
          exact Or.inr ⟨by simp, begins⟩
      | rule index =>
          have onward {byte : UInt8} (later : (firstOf first rest).contains byte = true)
              (nullable : (first.get index).contains endOfInputByte = true) :
              (firstOf first (.rule index :: rest)).contains byte = true :=
            (contains_firstOf_rule _ _ _).mpr (Or.inr ⟨nullable, later⟩)
          have spelled : (firstOf first
              (.rule index :: (rest.flatMap ResolvedSymbol.spell ++ back))).contains byte = true :=
            begins
          rcases (contains_firstOf_rule _ _ _).mp spelled with here | ⟨nullable, later⟩
          · exact Or.inl ⟨(contains_firstOf_rule _ _ _).mpr (Or.inl here), here.2⟩
          · rcases ih proper later with ⟨starts, different⟩ | ⟨vanish, after⟩
            · exact Or.inl ⟨onward starts nullable, different⟩
            · exact Or.inr ⟨onward vanish nullable, after⟩

theorem predicts_of_predicts_spell {after bound : ByteSet} {symbols back : List (ResolvedSymbol n)}
    (proper : Proper symbols)
    (within : ∀ byte, Predicts first after back byte → bound.contains byte = true) {byte : UInt8}
    (predicts : Predicts first after (symbols.flatMap ResolvedSymbol.spell ++ back) byte) :
    Predicts first bound symbols byte := by
  rcases predicts with ⟨begins, different⟩ | ⟨vanishes, follows⟩
  · rcases predicts_of_spell proper begins with here | ⟨nullable, later⟩
    · exact Or.inl here
    · exact Or.inr ⟨nullable, within byte (Or.inl ⟨later, different⟩)⟩
  · rcases predicts_of_spell proper vanishes with ⟨_, different⟩ | ⟨nullable, later⟩
    · exact absurd rfl different
    · exact Or.inr ⟨nullable, within byte (Or.inr ⟨later, follows⟩)⟩

theorem followed_terminals {after : ByteSet} (bytes : List UInt8)
    {rest : List (ResolvedSymbol n)} (followed : Followed first follow after rest) :
    Followed first follow after ((bytes.map fun byte => .terminal [byte]) ++ rest) := by
  induction bytes with
  | nil => exact followed
  | cons byte bytes ih => exact ih

theorem followed_spell {after bound : ByteSet} {symbols back : List (ResolvedSymbol n)}
    (proper : Proper symbols)
    (within : ∀ byte, Predicts first after back byte → bound.contains byte = true)
    (inside : Followed first follow bound symbols) (behind : Followed first follow after back) :
    Followed first follow after (symbols.flatMap ResolvedSymbol.spell ++ back) := by
  induction symbols with
  | nil => exact behind
  | cons symbol rest ih =>
      rw [List.flatMap_cons, List.append_assoc]
      cases symbol with
      | terminal bytes => exact followed_terminals bytes (ih proper.2.2 inside)
      | endOfLine => exact ih proper inside
      | empty =>
          obtain rfl : rest = [] := proper
          exact behind
      | rule index =>
          have restProper : Proper rest := proper
          exact ⟨fun byte predicts => inside.1 byte
            (predicts_of_predicts_spell restProper within predicts), ih restProper inside.2⟩

section Closed

variable (wellFormed : grammar.WellFormed) (closed : grammar.FirstClosed first)
include wellFormed closed

theorem Replaces.contains_firstOf {symbol : ResolvedSymbol n} {output : List (ResolvedSymbol n)}
    (replaces : grammar.Replaces symbol output) (back : List (ResolvedSymbol n)) :
    ∀ byte, (firstOf first (output ++ back)).contains byte = true →
      (firstOf first (symbol :: back)).contains byte = true := by
  intro byte begins
  cases replaces with
  | @rule index symbols chosen =>
      rw [contains_firstOf_rule]
      rcases predicts_of_spell (wellFormed index symbols chosen) begins with
        ⟨here, different⟩ | ⟨nullable, later⟩
      · exact Or.inl ⟨closed index symbols chosen byte here, different⟩
      · exact Or.inr ⟨closed index symbols chosen _ nullable, later⟩
  | lineFeed =>
      have same : 10 = byte := by simpa using begins
      simp [← same]
  | carriageReturn =>
      have same : 13 = byte := by simpa using begins
      simp [← same]

theorem Replaces.followed {symbol : ResolvedSymbol n} {output : List (ResolvedSymbol n)}
    (replaces : grammar.Replaces symbol output) (followClosed : grammar.FollowClosed first follow)
    {after : ByteSet} (front : List (ResolvedSymbol n)) {back : List (ResolvedSymbol n)}
    (followed : Followed first follow after (front ++ symbol :: back)) :
    Followed first follow after (front ++ (output ++ back)) := by
  induction front with
  | nil =>
      cases replaces with
      | lineFeed | carriageReturn => exact followed
      | @rule index symbols chosen =>
          exact followed_spell (wellFormed index symbols chosen) followed.1
            (followClosed index symbols chosen) followed.2
  | cons other front ih =>
      cases other with
      | rule index =>
          refine ⟨fun byte predicts => followed.1 byte ?_, ih followed.2⟩
          have within := contains_firstOf_append
            (replaces.contains_firstOf wellFormed closed back) front
          exact predicts.imp (And.imp_left (within byte)) (And.imp_left (within _))
      | terminal | endOfLine | empty => exact ih followed

end Closed

end Resolved

namespace Grammar.Resolves

variable {grammar : Grammar} {resolved : Resolved grammar.rules.length}
  {first follow : Vector ByteSet grammar.rules.length}

/-- A rewriting step of a form replaces one symbol of its resolved counterpart. -/
theorem exists_replaces (resolves : grammar.Resolves resolved) {start : String}
    {before after : List ByteSymbol} (step : (grammar.contextFree start).Produces before after) :
    ∃ front symbol output back, resolved.Replaces symbol output ∧
      grammar.resolveForm before = front ++ symbol :: back ∧
      grammar.resolveForm after = front ++ (output ++ back) := by
  obtain ⟨production, member, rewrites⟩ := step
  obtain ⟨front, back, rfl, rfl⟩ := rewrites.exists_parts
  rcases mem_productions.mp (mem_rules_contextFree.mp member) with
    ⟨rule, inGrammar, alternative, chosen, rfl⟩ | ⟨builtin, member⟩
  · obtain ⟨index, rfl⟩ := List.mem_iff_get.mp inGrammar
    obtain ⟨symbols, among, symbolwise, _⟩ :=
      exists_of_forall₂_left (resolves.forall₂_alternatives index) chosen
    refine ⟨grammar.resolveForm front, _, _, grammar.resolveForm back, .rule among, ?_, ?_⟩
    · have same := resolveByteSymbol_head resolves.heads_nodup index
      simpa using same
    · have same := resolveForm_alternative resolves.heads_nodup symbolwise
      simpa using same
  · have same := resolveByteSymbol_endOfLine builtin
    simp only [endOfLineProductions, List.mem_cons, List.not_mem_nil, or_false] at member
    rcases member with rfl | rfl
    · exact ⟨grammar.resolveForm front, _, _, grammar.resolveForm back, .lineFeed,
        by simpa using same, by simp [resolveByteSymbol]⟩
    · exact ⟨grammar.resolveForm front, _, _, grammar.resolveForm back, .carriageReturn,
        by simpa using same, by simp [resolveByteSymbol]⟩

theorem exists_alternative_of_chosen (resolves : grammar.Resolves resolved)
    {index : Fin grammar.rules.length} {symbols : List (ResolvedSymbol grammar.rules.length)}
    (chosen : symbols ∈ resolved.rules.get index) :
    ∃ alternative, List.Forall₂ grammar.ResolvesTo alternative symbols ∧
      grammar.Rewrites [.nonterminal (grammar.rules.get index).head]
        (alternative.flatMap Symbol.form) := by
  obtain ⟨alternative, member, symbolwise, _⟩ :=
    exists_of_forall₂_left (resolves.forall₂_alternatives index).flip chosen
  exact ⟨alternative, symbolwise, rewrites_of_mem (mem_productions.mpr
    (Or.inl ⟨_, List.getElem_mem index.isLt, alternative, member, rfl⟩))⟩

theorem contains_firstOf_of_rewrites (resolves : grammar.Resolves resolved)
    (closed : resolved.FirstClosed first) {before after : List ByteSymbol}
    (rewrites : grammar.Rewrites before after) {byte : UInt8}
    (begins : (Resolved.firstOf first (grammar.resolveForm after)).contains byte = true) :
    (Resolved.firstOf first (grammar.resolveForm before)).contains byte = true := by
  induction rewrites with
  | refl => exact begins
  | tail _ step ih =>
      obtain ⟨front, symbol, output, back, replaces, same, other⟩ := resolves.exists_replaces step
      rw [other] at begins
      rw [same] at ih
      exact ih (Resolved.contains_firstOf_append
        (replaces.contains_firstOf resolves.wellFormed closed back) front byte begins)

theorem followed_of_rewrites (resolves : grammar.Resolves resolved)
    (closed : resolved.FirstClosed first) (followClosed : resolved.FollowClosed first follow)
    {after : ByteSet} {before later : List ByteSymbol} (rewrites : grammar.Rewrites before later)
    (followed : Resolved.Followed first follow after (grammar.resolveForm before)) :
    Resolved.Followed first follow after (grammar.resolveForm later) := by
  induction rewrites with
  | refl => exact followed
  | tail _ step ih =>
      obtain ⟨front, symbol, output, back, replaces, same, other⟩ := resolves.exists_replaces step
      rw [same] at ih
      rw [other]
      exact replaces.followed resolves.wellFormed closed followClosed front ih

end Grammar.Resolves

end Lookahead
