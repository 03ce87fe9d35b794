import Lookahead.Proofs.Beginnings

/-!
Left recursion in the grammar itself.  A rule enters what stands in one of its alternatives behind
names of rules that derive the empty text; the analysis fails exactly if a rule can enter itself
in one or more steps, and the rule that it names is one of these.
-/

namespace Lookahead.Grammar

def Vanishes (grammar : Grammar) (symbol : Symbol) : Prop :=
  ∃ rule ∈ grammar.rules, symbol = .nonTerminal rule.head ∧ [] ∈ grammar.language rule.head

/-- A rule has an alternative in which another one is preceded only by rules that derive the empty
text. -/
def Enters (grammar : Grammar) (rule next : Fin grammar.rules.length) : Prop :=
  ∃ before after,
    before ++ .nonTerminal (grammar.rules.get next).head :: after ∈
        (grammar.rules.get rule).alternatives ∧
      ∀ symbol ∈ before, grammar.Vanishes symbol

variable {grammar : Grammar} {resolved : Resolved grammar.rules.length}

namespace Resolves

theorem vanishes_head_iff (resolves : grammar.Resolves resolved)
    (index : Fin grammar.rules.length) :
    grammar.Vanishes (.nonTerminal (grammar.rules.get index).head) ↔
      resolved.Nullable [.rule index] := by
  rw [← resolves.rewrites_nil_iff, ← nil_mem_language_iff]
  constructor
  · rintro ⟨rule, _, same, vanishes⟩
    rwa [Symbol.nonTerminal.inj same]
  · intro vanishes
    exact ⟨_, List.getElem_mem index.isLt, rfl, vanishes⟩

theorem nullable_iff_forall_vanishes (resolves : grammar.Resolves resolved)
    {before : List Symbol} {symbols : List (ResolvedSymbol grammar.rules.length)}
    (symbolwise : List.Forall₂ grammar.ResolvesTo before symbols)
    {next : Fin grammar.rules.length} {after : List (ResolvedSymbol grammar.rules.length)}
    (proper : Resolved.Proper (symbols ++ .rule next :: after)) :
    resolved.Nullable symbols ↔ ∀ symbol ∈ before, grammar.Vanishes symbol := by
  induction symbolwise with
  | nil => simpa using ⟨[], .nil⟩
  | cons here _ ih =>
      rw [List.forall_mem_cons]
      cases here with
      | rule index =>
          rw [Resolved.nullable_cons_rule_iff, resolves.vanishes_head_iff, ih proper]
      | terminal nonempty _ =>
          refine iff_of_false (Resolved.not_nullable_terminal nonempty) ?_
          rintro ⟨⟨_, _, impossible, _⟩, _⟩
          simp at impossible
      | endOfLine builtin =>
          refine iff_of_false Resolved.not_nullable_endOfLine ?_
          rintro ⟨⟨rule, member, same, _⟩, _⟩
          exact rule?_head_ne_none member (Symbol.nonTerminal.inj same ▸ builtin)
      | empty => simp [Resolved.Proper] at proper

theorem resolvesTo_head_iff (resolves : grammar.Resolves resolved)
    {index : Fin grammar.rules.length} {symbol : ResolvedSymbol grammar.rules.length} :
    grammar.ResolvesTo (.nonTerminal (grammar.rules.get index).head) symbol ↔
      symbol = .rule index := by
  constructor
  · intro resolution
    rcases resolution.cases_name with ⟨other, rfl, same⟩ | ⟨builtin, same, _⟩
    · rw [index_eq_of_head_eq resolves.heads_nodup same]
    · exact absurd builtin (same ▸ rule?_head_ne_none (List.getElem_mem index.isLt))
  · rintro rfl
    exact .rule index

theorem leftCorner_iff (resolves : grammar.Resolves resolved)
    (rule next : Fin grammar.rules.length) :
    resolved.LeftCorner rule next ↔ grammar.Enters rule next := by
  constructor
  · rintro ⟨before, after, chosen, nullable⟩
    obtain ⟨alternative, member, symbolwise, _⟩ :=
      exists_of_forall₂_left (resolves.forall₂_alternatives rule).flip chosen
    obtain ⟨front, symbol, back, rfl, fronts, here, _⟩ :=
      exists_split_of_forall₂ rfl symbolwise.flip
    cases here with
    | rule =>
        have proper := resolves.wellFormed rule _ chosen
        exact ⟨front, back, member,
          (resolves.nullable_iff_forall_vanishes fronts.flip proper).mp nullable⟩
  · rintro ⟨before, after, member, vanish⟩
    obtain ⟨symbols, chosen, symbolwise, _⟩ :=
      exists_of_forall₂_left (resolves.forall₂_alternatives rule) member
    obtain ⟨front, symbol, back, rfl, fronts, here, _⟩ := exists_split_of_forall₂ rfl symbolwise
    obtain rfl := resolves.resolvesTo_head_iff.mp here
    exact ⟨front, back, chosen,
      (resolves.nullable_iff_forall_vanishes fronts (resolves.wellFormed rule _ chosen)).mpr vanish⟩

theorem leftCorner_eq (resolves : grammar.Resolves resolved) :
    resolved.LeftCorner = grammar.Enters := by
  funext rule next
  exact propext (resolves.leftCorner_iff rule next)

end Resolves

theorem exists_analyze_iff (resolution : grammar.resolve = .ok resolved) :
    (∃ analysis, grammar.analyze = .ok analysis) ↔
      ∀ rule, ¬ Relation.TransGen grammar.Enters rule rule := by
  have resolves := resolves_of_resolve_eq_ok resolution
  rw [← resolves.leftCorner_eq, ← Resolved.checkLeftRecursion_eq_ok_iff resolves.wellFormed]
  constructor
  · rintro ⟨_, analyzed⟩
    obtain ⟨_, same, checked, _⟩ := analyze_eq_ok_iff.mp analyzed
    rwa [Except.ok.inj (resolution.symm.trans same)]
  · intro checked
    exact ⟨_, analyze_eq_ok_iff.mpr ⟨resolved, resolution, checked, rfl⟩⟩

theorem cycle_of_analyze_eq_error (resolution : grammar.resolve = .ok resolved)
    {error : GrammarError} (failed : grammar.analyze = .error error) :
    ∃ rule, error = .leftRecursion (grammar.rules.get rule).head ∧
      Relation.TransGen grammar.Enters rule rule := by
  have resolves := resolves_of_resolve_eq_ok resolution
  rcases bind_eq_error_iff.mp failed with unresolved | ⟨_, same, rest⟩
  · simp [resolution] at unresolved
  · obtain rfl := Except.ok.inj (resolution.symm.trans same)
    rcases bind_eq_error_iff.mp rest with refused | ⟨_, _, impossible⟩
    · obtain ⟨rule, named, cycle⟩ :=
        Resolved.cycle_of_checkLeftRecursion_eq_error resolves.wellFormed refused
      exact ⟨rule, resolves.head_get rule ▸ named, resolves.leftCorner_eq ▸ cycle⟩
    · simp [pure, Except.pure] at impossible

/-- The analysis of a grammar whose names are resolved fails exactly if a rule can enter itself
again, and then for such a rule. -/
theorem left_recursion_is_detected (resolution : grammar.resolve = .ok resolved) :
    ((∃ head, grammar.analyze = .error (.leftRecursion head)) ↔
      ∃ rule, Relation.TransGen grammar.Enters rule rule) ∧
    (∀ error, grammar.analyze = .error error →
      ∃ rule, error = .leftRecursion (grammar.rules.get rule).head ∧
        Relation.TransGen grammar.Enters rule rule) ∧
    ((∀ rule, ¬ Relation.TransGen grammar.Enters rule rule) →
      ∃ analysis, grammar.analyze = .ok analysis) := by
  refine ⟨⟨?_, ?_⟩, fun error => cycle_of_analyze_eq_error resolution,
    (exists_analyze_iff resolution).mpr⟩
  · rintro ⟨head, failed⟩
    obtain ⟨rule, _, cycle⟩ := cycle_of_analyze_eq_error resolution failed
    exact ⟨rule, cycle⟩
  · rintro ⟨rule, cycle⟩
    cases analyzed : grammar.analyze with
    | ok analysis =>
        exact absurd cycle ((exists_analyze_iff resolution).mp ⟨analysis, analyzed⟩ rule)
    | error error =>
        obtain ⟨found, rfl, _⟩ := cycle_of_analyze_eq_error resolution analyzed
        exact ⟨_, rfl⟩

def gappedLetters : Grammar :=
  ⟨[⟨"letters", [[.nonTerminal "gap", .nonTerminal "letters", .terminal [97]], [.terminal [98]]]⟩,
    ⟨"gap", [[.terminal [32]], [.empty]]⟩]⟩

theorem gappedLetters_left_recursion :
    ∃ resolved, gappedLetters.resolve = .ok resolved ∧
      ∃ head, gappedLetters.analyze = .error (.leftRecursion head) := by
  have resolution : ∃ resolved, gappedLetters.resolve = .ok resolved := ⟨_, rfl⟩
  obtain ⟨resolved, resolution⟩ := resolution
  have vanishes : gappedLetters.Vanishes (.nonTerminal "gap") :=
    ⟨gappedLetters.rules[1], List.getElem_mem _, rfl, rewrites_of_mem (by decide)⟩
  have enters : gappedLetters.Enters ⟨0, by decide⟩ ⟨0, by decide⟩ :=
    ⟨[.nonTerminal "gap"], [.terminal [97]], by decide, by simpa using vanishes⟩
  obtain ⟨detected, _⟩ := left_recursion_is_detected resolution
  exact ⟨resolved, resolution, detected.mpr ⟨_, .single enters⟩⟩

end Lookahead.Grammar
