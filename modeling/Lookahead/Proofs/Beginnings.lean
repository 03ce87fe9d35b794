import Lookahead.Proofs.Correctness
import Lookahead.Proofs.Forms

/-!
FIRST sets are exact.  They are closed, so they hold what the forms of a rule begin with; and the
bytes that the forms begin with are closed as well, so the least sets hold nothing else.
-/

namespace Lookahead

noncomputable def ByteSet.ofProperty (holds : UInt8 → Prop) : ByteSet :=
  open Classical in ofList (allBytes.filter fun byte => holds byte)

@[simp] theorem ByteSet.contains_ofProperty {holds : UInt8 → Prop} {byte : UInt8} :
    (ofProperty holds).contains byte = true ↔ holds byte := by
  simp [ofProperty, contains_ofList_iff, mem_allBytes]

noncomputable def setsOf {n : Nat} (holds : Fin n → UInt8 → Prop) : Vector ByteSet n :=
  Vector.ofFn fun index => ByteSet.ofProperty (holds index)

theorem contains_get_setsOf {n : Nat} {holds : Fin n → UInt8 → Prop} {index : Fin n}
    {byte : UInt8} : ((setsOf holds).get index).contains byte = true ↔ holds index byte := by
  have same : (setsOf holds).get index = ByteSet.ofProperty (holds index) := by
    change (Vector.ofFn _)[index.val] = _
    rw [Vector.getElem_ofFn]
  rw [same, ByteSet.contains_ofProperty]

namespace Grammar

/-- What a FIRST set stands for: the bytes that a form can begin with, and the reserved byte where
nothing may be left of it. -/
def HasFirst (grammar : Grammar) (form : List ByteSymbol) (byte : UInt8) : Prop :=
  (byte ≠ endOfInputByte ∧ grammar.Begins form byte) ∨
    (byte = endOfInputByte ∧ grammar.Rewrites form [])

variable {grammar : Grammar} {resolved : Resolved grammar.rules.length}
  {first : Vector ByteSet grammar.rules.length} {alternative : Alternative}
  {symbols : List (ResolvedSymbol grammar.rules.length)}

theorem HasFirst.of_rewrites {before after : List ByteSymbol} {byte : UInt8}
    (rewrites : grammar.Rewrites before after) (has : grammar.HasFirst after byte) :
    grammar.HasFirst before byte :=
  has.imp (And.imp_right (Begins.of_rewrites rewrites)) (And.imp_right rewrites.trans)

theorem hasFirst_nil : grammar.HasFirst [] endOfInputByte :=
  Or.inr ⟨rfl, .refl _⟩

theorem hasFirst_of_leads {symbol : ByteSymbol} {rest : List ByteSymbol} {byte : UInt8}
    (different : byte ≠ endOfInputByte) (leads : grammar.Leads symbol byte) :
    grammar.HasFirst (symbol :: rest) byte :=
  Or.inl ⟨different, symbol, rest, .refl _, leads⟩

theorem hasFirst_of_contains_firstOf
    (shown : ∀ (index : Fin grammar.rules.length) (byte : UInt8),
      (first.get index).contains byte = true →
        grammar.HasFirst [.nonterminal (grammar.rules.get index).head] byte)
    (symbolwise : List.Forall₂ grammar.ResolvesTo alternative symbols)
    (proper : Resolved.Proper symbols) {byte : UInt8}
    (contains : (Resolved.firstOf first symbols).contains byte = true) :
    grammar.HasFirst (alternative.flatMap Symbol.form) byte := by
  induction symbolwise with
  | nil =>
      obtain rfl := (Resolved.contains_firstOf_nil byte).mp contains
      exact hasFirst_nil
  | cons here later ih =>
      cases here with
      | @terminal bytes nonempty unreserved =>
          obtain ⟨head, tail, rfl⟩ := List.exists_cons_of_ne_nil nonempty
          obtain rfl : head = byte := by simpa using contains
          refine hasFirst_of_leads ?_ (.byte head)
          rintro rfl
          simp at unreserved
      | endOfLine builtin =>
          rcases (Resolved.contains_firstOf_endOfLine _ byte).mp contains with rfl | rfl
          · exact hasFirst_of_leads (by decide) (.lineFeed builtin)
          · exact hasFirst_of_leads (by decide) (.carriageReturn builtin)
      | empty =>
          obtain rfl : _ = [] := proper
          obtain rfl := (Resolved.contains_firstOf_empty _ byte).mp contains
          cases later
          exact hasFirst_nil
      | rule index =>
          rcases (Resolved.contains_firstOf_rule _ _ _).mp contains with
            ⟨own, different⟩ | ⟨nullable, others⟩
          · rcases shown index byte own with ⟨_, begins⟩ | ⟨same, _⟩
            · exact Or.inl ⟨different, begins.append_right _⟩
            · exact absurd same different
          · rcases shown index _ nullable with ⟨absurdity, _⟩ | ⟨_, vanishes⟩
            · exact absurd rfl absurdity
            · exact (ih proper others).of_rewrites (vanishes.within [] _)

theorem contains_firstOf_of_leads {symbol : ByteSymbol} {rest : List ByteSymbol} {byte : UInt8}
    (leads : grammar.Leads symbol byte) :
    (Resolved.firstOf first (grammar.resolveForm (symbol :: rest))).contains byte = true := by
  cases leads with
  | byte => simp [resolveByteSymbol]
  | lineFeed builtin | carriageReturn builtin => simp [resolveByteSymbol_endOfLine builtin]

namespace Resolves

theorem rewrites_nil_iff (resolves : grammar.Resolves resolved)
    (index : Fin grammar.rules.length) :
    grammar.Rewrites [.nonterminal (grammar.rules.get index).head] [] ↔
      resolved.Nullable [.rule index] := by
  rw [← nil_mem_language_iff, mem_language_iff]
  constructor
  · rintro ⟨tree, derives⟩
    exact ⟨[tree], (resolves.derives_name_iff index).mp derives⟩
  · rintro ⟨trees, derives⟩
    have original := (resolves.derives_name_iff index).mpr derives
    obtain ⟨tree, rfl⟩ := List.length_eq_one_iff.mp original.length_eq
    exact ⟨tree, original⟩

theorem hasFirst_of_contains_firstSets (resolves : grammar.Resolves resolved)
    (index : Fin grammar.rules.length) (byte : UInt8)
    (contains : ((resolved.firstSets resolved.nullableRules).get index).contains byte = true) :
    grammar.HasFirst [.nonterminal (grammar.rules.get index).head] byte := by
  -- What the forms truly begin with is closed, and the FIRST sets are the least that are closed.
  let bound := setsOf fun (index : Fin grammar.rules.length) =>
    grammar.HasFirst [.nonterminal (grammar.rules.get index).head]
  have closed : resolved.FirstClosed bound := by
    intro owner symbols chosen byte begins
    obtain ⟨alternative, symbolwise, rewrites⟩ := resolves.exists_alternative_of_chosen chosen
    have has := hasFirst_of_contains_firstOf (fun _ _ => contains_get_setsOf.mp) symbolwise
      (resolves.wellFormed owner symbols chosen) begins
    exact contains_get_setsOf.mpr (has.of_rewrites rewrites)
  refine contains_get_setsOf.mp
    (Resolved.firstSets_least (fun rule marked => ?_) closed index byte contains)
  have nullable := (Resolved.nullableRules_iff resolves.wellFormed rule).mp marked
  exact contains_get_setsOf.mpr (Or.inr ⟨rfl, (resolves.rewrites_nil_iff rule).mpr nullable⟩)

theorem contains_firstOf_of_hasFirst (resolves : grammar.Resolves resolved)
    (closed : resolved.FirstClosed first)
    (symbolwise : List.Forall₂ grammar.ResolvesTo alternative symbols)
    (proper : Resolved.Proper symbols) {byte : UInt8}
    (has : grammar.HasFirst (alternative.flatMap Symbol.form) byte) :
    (Resolved.firstOf first symbols).contains byte = true := by
  have shown : (Resolved.firstOf first
      (grammar.resolveForm (alternative.flatMap Symbol.form))).contains byte = true := by
    rcases has with ⟨_, symbol, rest, rewrites, leads⟩ | ⟨rfl, vanishes⟩
    · exact resolves.contains_firstOf_of_rewrites closed rewrites (contains_firstOf_of_leads leads)
    · exact resolves.contains_firstOf_of_rewrites closed vanishes (by simp)
  rw [resolveForm_alternative resolves.heads_nodup symbolwise,
    ← List.append_nil (symbols.flatMap _)] at shown
  rcases Resolved.predicts_of_spell proper shown with ⟨begins, _⟩ | ⟨vanishes, ends⟩
  · exact begins
  · obtain rfl := (Resolved.contains_firstOf_nil byte).mp ends
    exact vanishes

theorem contains_firstOf_iff (resolves : grammar.Resolves resolved)
    (symbolwise : List.Forall₂ grammar.ResolvesTo alternative symbols)
    (proper : Resolved.Proper symbols) (byte : UInt8) :
    (Resolved.firstOf resolved.analysis.first symbols).contains byte = true ↔
      grammar.HasFirst (alternative.flatMap Symbol.form) byte :=
  ⟨hasFirst_of_contains_firstOf resolves.hasFirst_of_contains_firstSets symbolwise proper,
    resolves.contains_firstOf_of_hasFirst (resolved.firstClosed_firstSets _) symbolwise proper⟩

theorem contains_first_iff (resolves : grammar.Resolves resolved)
    (index : Fin grammar.rules.length) (byte : UInt8) :
    (resolved.analysis.first.get index).contains byte = true ↔
      grammar.HasFirst [.nonterminal (grammar.rules.get index).head] byte := by
  have symbolwise : List.Forall₂ grammar.ResolvesTo
      [.nonTerminal (grammar.rules.get index).head] [.rule index] := .cons (.rule index) .nil
  refine ⟨resolves.hasFirst_of_contains_firstSets index byte, fun has => ?_⟩
  have contains := (resolves.contains_firstOf_iff symbolwise trivial byte).mpr has
  rw [Resolved.contains_firstOf_rule] at contains
  rcases contains with ⟨own, _⟩ | ⟨nullable, ends⟩
  · exact own
  · obtain rfl := (Resolved.contains_firstOf_nil byte).mp ends
    exact nullable

end Resolves

/-- FIRST of a rule holds the bytes that a form of it can begin with, and the reserved byte where
it derives the empty text, which is where it is marked as nullable. -/
theorem first_sets_are_exact {analysis : Analysis grammar.rules.length}
    (analyzed : grammar.analyze = .ok analysis) (index : Fin grammar.rules.length) :
    (∀ byte, byte ≠ endOfInputByte → ((analysis.first.get index).contains byte = true ↔
      grammar.Begins [.nonterminal (grammar.rules.get index).head] byte)) ∧
    ((analysis.first.get index).contains endOfInputByte = true ↔
      [] ∈ grammar.language (grammar.rules.get index).head) ∧
    (analysis.grammar.nullableRules.get index = true ↔
      [] ∈ grammar.language (grammar.rules.get index).head) := by
  obtain ⟨resolved, resolution, _, rfl⟩ := analyze_eq_ok_iff.mp analyzed
  have resolves := resolves_of_resolve_eq_ok resolution
  refine ⟨fun byte different => ?_, ?_, ?_⟩
  · rw [resolves.contains_first_iff, HasFirst]
    simp [different]
  · rw [resolves.contains_first_iff, HasFirst, nil_mem_language_iff]
    simp
  · rw [nil_mem_language_iff, resolves.rewrites_nil_iff]
    exact Resolved.nullableRules_iff resolves.wellFormed index

theorem letterLines_first_sets :
    ∃ analysis, Parser.letterLines.analyze = .ok analysis ∧
      (analysis.first.get ⟨1, by decide⟩).contains 13 = true ∧
      (analysis.first.get ⟨1, by decide⟩).contains endOfInputByte = true := by
  obtain ⟨table, names, generated⟩ := Parser.exists_generate_letterLines
  obtain ⟨analysis, analyzed, _⟩ := generate_eq_ok_iff.mp generated
  obtain ⟨begins, vanishes, _⟩ := first_sets_are_exact analyzed ⟨1, by decide⟩
  have ends : Parser.letterLines.Rewrites [.nonterminal "more"] [] :=
    rewrites_of_mem (by decide)
  have breaks : Parser.letterLines.Rewrites [.nonterminal "more"]
      [.nonterminal endOfLineName, .nonterminal "lines"] := rewrites_of_mem (by decide)
  exact ⟨analysis, analyzed,
    (begins 13 (by decide)).mpr ⟨_, _, breaks, .carriageReturn rfl⟩, vanishes.mpr ends⟩

end Grammar

end Lookahead
