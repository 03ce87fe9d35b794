import Lookahead.Grammar.Resolved
import Lookahead.Proofs.Derivation
import Lookahead.Proofs.Sequencing

/-!
What resolving a grammar keeps.  The resolved symbols derive the same trees and texts as those
they are resolved from, and their terminals are neither empty nor hold the reserved byte.
-/

namespace Lookahead

namespace Resolved

variable {n : Nat}

/-- Terminals are not empty and hold no reserved byte; nothing comes after the empty symbol. -/
def Proper : List (ResolvedSymbol n) → Prop
  | [] => True
  | .terminal bytes :: rest => bytes ≠ [] ∧ endOfInputByte ∉ bytes ∧ Proper rest
  | .empty :: rest => rest = []
  | .rule _ :: rest | .endOfLine :: rest => Proper rest

/-- The counterpart of `Grammar.Derives` for symbols that are resolved. -/
inductive Derives (grammar : Resolved n) :
    List (ResolvedSymbol n) → List Derivation → List UInt8 → Prop
  | nil : Derives grammar [] [] []
  | terminal {symbols trees text} (bytes : List UInt8) : Derives grammar symbols trees text →
      Derives grammar (.terminal bytes :: symbols) (.terminal bytes :: trees) (bytes ++ text)
  | empty {symbols trees text} : Derives grammar symbols trees text →
      Derives grammar (.empty :: symbols) (.empty :: trees) text
  | lineFeed {symbols trees text} : Derives grammar symbols trees text →
      Derives grammar (.endOfLine :: symbols) (.lineFeed :: trees) (10 :: text)
  | carriageReturn {symbols trees text} : Derives grammar symbols trees text →
      Derives grammar (.endOfLine :: symbols) (.carriageReturn :: trees) (13 :: 10 :: text)
  | rule {symbols trees text index alternative children inner} :
      alternative ∈ grammar.rules.get index →
      Derives grammar alternative children inner → Derives grammar symbols trees text →
      Derives grammar (.rule index :: symbols) (.rule index.val children :: trees) (inner ++ text)

def WellFormed (grammar : Resolved n) : Prop :=
  ∀ index, ∀ alternative ∈ grammar.rules.get index, Proper alternative

variable {grammar : Resolved n}

theorem Derives.yields_eq {symbols trees text} (derives : grammar.Derives symbols trees text) :
    Derivation.yields trees = text := by
  induction derives with
  | nil => rfl
  | terminal bytes _ ih => simp [Derivation.yields, Derivation.yield, ih]
  | empty _ ih => simp [Derivation.yields, Derivation.yield, ih]
  | lineFeed _ ih => simp [Derivation.yields, Derivation.yield, ih]
  | carriageReturn _ ih => simp [Derivation.yields, Derivation.yield, ih]
  | rule _ _ _ innerIh ih => simp [Derivation.yields, Derivation.yield, innerIh, ih]

theorem Derives.reserved_not_mem {symbols trees text} (wellFormed : grammar.WellFormed)
    (derives : grammar.Derives symbols trees text) (proper : Proper symbols) :
    endOfInputByte ∉ text := by
  induction derives with
  | nil => simp
  | terminal bytes _ ih => simp [proper.2.1, ih proper.2.2]
  | empty _ ih =>
      obtain rfl : _ = [] := proper
      exact ih trivial
  | lineFeed _ ih => simpa [endOfInputByte] using ih proper
  | carriageReturn _ ih => simpa [endOfInputByte] using ih proper
  | rule chosen _ _ innerIh ih => simp [innerIh (wellFormed _ _ chosen), ih proper]

end Resolved

namespace Grammar

structure Resolves (grammar : Grammar) (resolved : Resolved grammar.rules.length) : Prop where
  heads_nodup : (grammar.rules.map Rule.head).Nodup
  head_get : ∀ index, resolved.heads.get index = (grammar.rules.get index).head
  rule_get : ∀ index, grammar.resolveRule (grammar.rules.get index) = .ok (resolved.rules.get index)

theorem duplicateHead?_eq_none_iff (seen : List String) (rules : List Rule) :
    duplicateHead? seen rules = none ↔
      (rules.map Rule.head).Nodup ∧ ∀ rule ∈ rules, rule.head ∉ seen := by
  induction rules generalizing seen with
  | nil => simp [duplicateHead?]
  | cons rule rest ih =>
      rw [duplicateHead?]
      by_cases repeated : rule.head ∈ seen
      · simp [repeated]
      · simp only [List.contains_eq_mem, repeated, decide_false, Bool.false_eq_true, if_false, ih,
          List.map_cons, List.nodup_cons, List.mem_map, List.mem_cons, not_or, not_exists,
          not_and, forall_eq_or_imp, not_false_eq_true, true_and]
        constructor
        · rintro ⟨distinct, fresh⟩
          exact ⟨⟨fun other member same => (fresh other member).1 same, distinct⟩,
            fun other member => (fresh other member).2⟩
        · rintro ⟨⟨different, distinct⟩, fresh⟩
          exact ⟨distinct, fun other member =>
            ⟨fun same => different other member same, fresh other member⟩⟩

theorem resolves_of_resolve_eq_ok {grammar : Grammar} {resolved : Resolved grammar.rules.length}
    (resolution : grammar.resolve = .ok resolved) : grammar.Resolves resolved := by
  rw [resolve] at resolution
  split at resolution
  · simp at resolution
  · rename_i distinct
    split at resolution
    · simp at resolution
    · rename_i rules found
      simp only [Except.ok.injEq] at resolution
      subst resolution
      have each := mapM_eq_ok_iff.mp found
      refine ⟨((duplicateHead?_eq_none_iff [] _).mp distinct).1, ?_, ?_⟩
      · intro index
        simp [Vector.get]
      · intro index
        have here := (List.forall₂_iff_get.mp each).2 index.val index.isLt
          (by rw [← each.length_eq]; exact index.isLt)
        simpa [Vector.get] using here

theorem exists_resolve {grammar : Grammar} (distinct : (grammar.rules.map Rule.head).Nodup)
    (resolvable : ∀ rule ∈ grammar.rules, ∃ alternatives,
      grammar.resolveRule rule = .ok alternatives) :
    ∃ resolved, grammar.resolve = .ok resolved := by
  have noDuplicate : duplicateHead? [] grammar.rules = none :=
    (duplicateHead?_eq_none_iff [] _).mpr ⟨distinct, by simp⟩
  obtain ⟨rules, found⟩ := exists_mapM_eq_ok_iff.mpr resolvable
  rw [resolve]
  split
  · rename_i repeated
    simp [noDuplicate] at repeated
  · split
    · rename_i defect failed
      simp [found] at failed
    · exact ⟨_, rfl⟩

inductive ResolvesTo (grammar : Grammar) : Symbol → ResolvedSymbol grammar.rules.length → Prop
  | terminal {bytes} : bytes ≠ [] → endOfInputByte ∉ bytes →
      ResolvesTo grammar (.terminal bytes) (.terminal bytes)
  | rule (index : Fin grammar.rules.length) :
      ResolvesTo grammar (.nonTerminal (grammar.rules.get index).head) (.rule index)
  | endOfLine : grammar.rule? endOfLineName = none →
      ResolvesTo grammar (.nonTerminal endOfLineName) .endOfLine
  | empty : ResolvesTo grammar .empty .empty

variable {grammar : Grammar}

theorem index_eq_of_head_eq (distinct : (grammar.rules.map Rule.head).Nodup)
    {left right : Fin grammar.rules.length}
    (same : (grammar.rules.get left).head = (grammar.rules.get right).head) : left = right := by
  refine Fin.ext (eq_of_head_eq distinct ?_ ?_ same)
  · exact List.getElem?_eq_getElem left.isLt
  · exact List.getElem?_eq_getElem right.isLt

theorem findFinIdx?_head_eq_some_iff (distinct : (grammar.rules.map Rule.head).Nodup)
    {name : String} {index : Fin grammar.rules.length} :
    grammar.rules.findFinIdx? (·.head == name) = some index ↔
      (grammar.rules.get index).head = name := by
  rw [List.findFinIdx?_eq_some_iff]
  constructor
  · rintro ⟨named, _⟩
    exact eq_of_beq named
  · rintro rfl
    refine ⟨by simp, fun earlier before => ?_⟩
    simp only [Bool.not_eq_true, beq_eq_false_iff_ne]
    intro same
    exact absurd (index_eq_of_head_eq distinct same) (Fin.ne_of_lt before)

theorem ResolvesTo.cases_name {name : String} {resolved}
    (resolution : grammar.ResolvesTo (.nonTerminal name) resolved) :
    (∃ index : Fin grammar.rules.length,
        resolved = .rule index ∧ (grammar.rules.get index).head = name) ∨
      (grammar.rule? endOfLineName = none ∧ name = endOfLineName ∧ resolved = .endOfLine) := by
  cases resolution with
  | rule index => exact Or.inl ⟨index, rfl, rfl⟩
  | endOfLine builtin => exact Or.inr ⟨builtin, rfl, rfl⟩

theorem rule?_head_ne_none {rule : Rule} (member : rule ∈ grammar.rules) :
    grammar.rule? rule.head ≠ none := by
  intro absent
  have fails := List.find?_eq_none.mp absent rule member
  simp at fails

theorem resolvesTo_of_resolveSymbol {head : String} {symbol : Symbol} {resolved}
    (resolution : grammar.resolveSymbol head symbol = .ok resolved) :
    grammar.ResolvesTo symbol resolved := by
  cases symbol with
  | terminal bytes =>
      simp only [resolveSymbol] at resolution
      split at resolution
      · simp at resolution
      · rename_i proper
        simp only [Bool.or_eq_true, List.isEmpty_iff, List.contains_eq_mem, decide_eq_true_eq,
          not_or] at proper
        simp only [Except.ok.injEq] at resolution
        exact resolution ▸ .terminal proper.1 proper.2
  | nonTerminal name =>
      simp only [resolveSymbol] at resolution
      split at resolution
      · rename_i index found
        obtain ⟨named, _⟩ := List.findFinIdx?_eq_some_iff.mp found
        simp only [Except.ok.injEq] at resolution
        rw [← resolution, ← eq_of_beq named]
        exact .rule index
      · rename_i absent
        split at resolution
        · rename_i builtin
          simp only [Except.ok.injEq] at resolution
          rw [← resolution, eq_of_beq builtin]
          refine .endOfLine ?_
          simpa [rule?, eq_of_beq builtin] using absent
        · simp at resolution
  | empty =>
      simp only [resolveSymbol, Except.ok.injEq] at resolution
      exact resolution ▸ .empty

theorem forall₂_of_resolveAlternative {head : String} {alternative : Alternative} {symbols}
    (resolution : grammar.resolveAlternative head alternative = .ok symbols) :
    List.Forall₂ grammar.ResolvesTo alternative symbols ∧
      (1 < alternative.length → .empty ∉ alternative) := by
  rw [resolveAlternative] at resolution
  split at resolution
  · simp at resolution
  · split at resolution
    · simp at resolution
    · rename_i unmixed
      refine ⟨(mapM_eq_ok_iff.mp resolution).imp fun _ _ => resolvesTo_of_resolveSymbol, ?_⟩
      intro several member
      exact unmixed (by simpa [several] using ⟨_, member, rfl⟩)

namespace Resolves

variable {resolved : Resolved grammar.rules.length}

theorem forall₂_alternatives (resolves : grammar.Resolves resolved)
    (index : Fin grammar.rules.length) :
    List.Forall₂ (fun alternative symbols =>
        List.Forall₂ grammar.ResolvesTo alternative symbols ∧
          (1 < alternative.length → .empty ∉ alternative))
      (grammar.rules.get index).alternatives (resolved.rules.get index) := by
  have resolution := resolves.rule_get index
  rw [resolveRule] at resolution
  split at resolution
  · simp at resolution
  · exact (mapM_eq_ok_iff.mp resolution).imp fun _ _ => forall₂_of_resolveAlternative

theorem proper_of_forall₂ {alternative symbols}
    (symbolwise : List.Forall₂ grammar.ResolvesTo alternative symbols)
    (unmixed : 1 < alternative.length → .empty ∉ alternative) : Resolved.Proper symbols := by
  induction symbolwise with
  | nil => trivial
  | @cons symbol other alternative symbols here rest ih =>
      have proper := ih fun several member =>
        unmixed (by simp only [List.length_cons]; omega) (List.mem_cons_of_mem _ member)
      cases here with
      | terminal nonempty unreserved => exact ⟨nonempty, unreserved, proper⟩
      | rule index => exact proper
      | endOfLine => exact proper
      | empty =>
          cases rest with
          | nil => rfl
          | cons => exact absurd List.mem_cons_self (unmixed (by simp))

theorem wellFormed (resolves : grammar.Resolves resolved) : resolved.WellFormed := by
  intro index symbols member
  obtain ⟨alternative, _, symbolwise, unmixed⟩ :=
    exists_of_forall₂_left (resolves.forall₂_alternatives index).flip member
  exact proper_of_forall₂ symbolwise unmixed

theorem eq_endOfLine_of_builtin {symbol} (builtin : grammar.rule? endOfLineName = none)
    (resolution : grammar.ResolvesTo (.nonTerminal endOfLineName) symbol) :
    symbol = .endOfLine := by
  rcases resolution.cases_name with ⟨index, _, named⟩ | ⟨_, _, same⟩
  · exact absurd builtin (named ▸ rule?_head_ne_none (List.getElem_mem index.isLt))
  · exact same

theorem eq_rule_of_found (resolves : grammar.Resolves resolved) {id : Nat} {rule : Rule} {symbol}
    (found : grammar.rules[id]? = some rule)
    (resolution : grammar.ResolvesTo (.nonTerminal rule.head) symbol) :
    ∃ index : Fin grammar.rules.length,
      symbol = .rule index ∧ index.val = id ∧ (grammar.rules.get index) = rule := by
  rcases resolution.cases_name with ⟨index, same, named⟩ | ⟨builtin, named, _⟩
  · have here : grammar.rules[index.val]? = some (grammar.rules.get index) :=
      List.getElem?_eq_getElem index.isLt
    obtain rfl : index.val = id := eq_of_head_eq resolves.heads_nodup here found named
    exact ⟨index, same, rfl, Option.some.inj (here.symm.trans found)⟩
  · exact absurd builtin (named ▸ rule?_head_ne_none (List.mem_of_getElem? found))

theorem derives_resolved (resolves : grammar.Resolves resolved) {alternative trees text}
    (derives : grammar.Derives alternative trees text) :
    ∀ symbols, List.Forall₂ grammar.ResolvesTo alternative symbols →
      resolved.Derives symbols trees text := by
  induction derives with
  | nil => rintro _ ⟨⟩; exact .nil
  | terminal bytes _ ih => rintro _ (_ | ⟨⟨⟩, rest⟩); exact .terminal bytes (ih _ rest)
  | empty _ ih => rintro _ (_ | ⟨⟨⟩, rest⟩); exact .empty (ih _ rest)
  | lineFeed builtin _ ih =>
      rintro _ (_ | ⟨here, rest⟩)
      exact eq_endOfLine_of_builtin builtin here ▸ .lineFeed (ih _ rest)
  | carriageReturn builtin _ ih =>
      rintro _ (_ | ⟨here, rest⟩)
      exact eq_endOfLine_of_builtin builtin here ▸ .carriageReturn (ih _ rest)
  | rule found chosen _ _ innerIh ih =>
      rintro _ (_ | ⟨here, rest⟩)
      obtain ⟨index, rfl, rfl, rfl⟩ := resolves.eq_rule_of_found found here
      obtain ⟨symbols, member, symbolwise, _⟩ :=
        exists_of_forall₂_left (resolves.forall₂_alternatives index) chosen
      exact .rule member (innerIh symbols symbolwise) (ih _ rest)

theorem derives_of_resolved (resolves : grammar.Resolves resolved) {symbols trees text}
    (derives : resolved.Derives symbols trees text) :
    ∀ alternative, List.Forall₂ grammar.ResolvesTo alternative symbols →
      grammar.Derives alternative trees text := by
  induction derives with
  | nil => rintro _ ⟨⟩; exact .nil
  | terminal bytes _ ih => rintro _ (_ | ⟨⟨⟩, rest⟩); exact .terminal bytes (ih _ rest)
  | empty _ ih => rintro _ (_ | ⟨⟨⟩, rest⟩); exact .empty (ih _ rest)
  | lineFeed _ ih => rintro _ (_ | ⟨⟨⟩, rest⟩); exact .lineFeed ‹_› (ih _ rest)
  | carriageReturn _ ih => rintro _ (_ | ⟨⟨⟩, rest⟩); exact .carriageReturn ‹_› (ih _ rest)
  | @rule _ _ _ index _ _ _ chosen _ _ innerIh ih =>
      rintro _ (_ | ⟨⟨⟩, rest⟩)
      obtain ⟨alternative, member, symbolwise, _⟩ :=
        exists_of_forall₂_left (resolves.forall₂_alternatives index).flip chosen
      exact .rule (List.getElem?_eq_getElem index.isLt) member (innerIh alternative symbolwise)
        (ih _ rest)

/-- A rule derives the same trees and texts by its name and by its number. -/
theorem derives_name_iff (resolves : grammar.Resolves resolved)
    (index : Fin grammar.rules.length) {trees text} :
    grammar.Derives [.nonTerminal (grammar.rules.get index).head] trees text ↔
      resolved.Derives [.rule index] trees text := by
  have symbolwise : List.Forall₂ grammar.ResolvesTo
      [.nonTerminal (grammar.rules.get index).head] [.rule index] := .cons (.rule index) .nil
  exact ⟨fun derives => resolves.derives_resolved derives _ symbolwise,
    fun derives => resolves.derives_of_resolved derives _ symbolwise⟩

end Resolves

end Grammar

end Lookahead
