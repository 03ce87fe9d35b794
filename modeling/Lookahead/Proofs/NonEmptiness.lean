import Lookahead.Proofs.Cycles
import Lookahead.Proofs.PredictiveTable
import Mathlib.Data.Fintype.Card

/-!
No set of a grammar that is analyzed is empty without need.  A repetition that only adds bytes
would end with empty sets as well; that it does not is owed to the check for left recursion, by
which the rules can be taken in an order where FIRST of what stands in front is known.  What comes
after a rule is then handed on to all rules that the start rule reaches.
-/

namespace Lookahead

theorem wellFounded_flip_of_acyclic {α : Type} [Finite α] {related : α → α → Prop}
    (acyclic : ∀ item, ¬ Relation.TransGen related item item) :
    WellFounded (Function.swap related) := by
  have transitive : IsTrans α (Relation.TransGen (Function.swap related)) :=
    ⟨fun _ _ _ => Relation.TransGen.trans⟩
  have irreflexive : Std.Irrefl (Relation.TransGen (Function.swap related)) :=
    ⟨fun item cycle => acyclic item (Relation.transGen_swap.mp cycle)⟩
  have closure : WellFounded (Relation.TransGen (Function.swap related)) :=
    Finite.wellFounded_of_trans_of_irrefl _
  exact Subrelation.wf (fun step => Relation.TransGen.single step) closure

theorem Row.exists_assigned_of_lookup {row : Row} {byte : UInt8} {operations : List Operation}
    (found : row.lookup byte = some operations) :
    ∃ place, (byte, place) ∈ row.assigned ∧ row.alternatives[place]? = some operations := by
  obtain ⟨place, pointed, present⟩ := Option.bind_eq_some_iff.mp found
  refine ⟨place, List.mem_filterMap.mpr ⟨byte, ByteSet.mem_allBytes byte, ?_⟩, present⟩
  rw [pointed]
  rfl

namespace Resolved

variable {n : Nat} {grammar : Resolved n} {first : Vector ByteSet n}

theorem exists_contains_firstOf (marks : grammar.FirstMarksNullable first)
    {symbols : List (ResolvedSymbol n)} (proper : Proper symbols)
    (inhabited : ∀ before index after, symbols = before ++ .rule index :: after →
      grammar.Nullable before → ∃ byte, (first.get index).contains byte = true) :
    ∃ byte, (firstOf first symbols).contains byte = true := by
  induction symbols with
  | nil => exact ⟨endOfInputByte, by simp⟩
  | cons symbol rest ih =>
      cases symbol with
      | empty => exact ⟨endOfInputByte, by simp⟩
      | endOfLine => exact ⟨10, by simp⟩
      | terminal bytes =>
          obtain ⟨head, tail, rfl⟩ := List.exists_cons_of_ne_nil proper.1
          exact ⟨head, by simp⟩
      | rule index =>
          obtain ⟨byte, own⟩ := inhabited [] index rest rfl ⟨[], .nil⟩
          by_cases different : byte ≠ endOfInputByte
          · exact ⟨byte, (contains_firstOf_rule _ _ _).mpr (Or.inl ⟨own, different⟩)⟩
          · -- The rule derives the empty text, so what stands behind it can be in front.
            obtain rfl := not_not.mp different
            have nullable := marks index own
            obtain ⟨later, begins⟩ := ih proper fun before other after split vanishes =>
              inhabited (.rule index :: before) other after (congrArg _ split)
                (nullable_cons_rule_iff.mpr ⟨nullable, vanishes⟩)
            exact ⟨later, (contains_firstOf_rule _ _ _).mpr (Or.inr ⟨own, begins⟩)⟩

theorem exists_predicts {after : ByteSet} {symbols : List (ResolvedSymbol n)}
    (begins : ∃ byte, (firstOf first symbols).contains byte = true)
    (follows : ∃ byte, after.contains byte = true) : ∃ byte, Predicts first after symbols byte := by
  obtain ⟨byte, begins⟩ := begins
  by_cases different : byte ≠ endOfInputByte
  · exact ⟨byte, Or.inl ⟨begins, different⟩⟩
  · obtain rfl := not_not.mp different
    obtain ⟨later, follows⟩ := follows
    exact ⟨later, Or.inr ⟨begins, follows⟩⟩

theorem proper_of_append {front back : List (ResolvedSymbol n)} (proper : Proper (front ++ back)) :
    Proper back := by
  induction front with
  | nil => exact proper
  | cons symbol front ih =>
      cases symbol with
      | terminal => exact ih proper.2.2
      | rule | endOfLine => exact ih proper
      | empty =>
          obtain ⟨rfl, rfl⟩ := List.append_eq_nil_iff.mp proper
          trivial

end Resolved

namespace Analysis.Sound

variable {n : Nat} {analysis : Analysis n}

theorem exists_contains_first (sound : analysis.Sound)
    (nonempty : ∀ index, analysis.grammar.rules.get index ≠ []) (index : Fin n) :
    ∃ byte, (analysis.first.get index).contains byte = true := by
  -- Along the left corners, which do not lead back: what can stand in front comes before.
  induction index using (wellFounded_flip_of_acyclic sound.acyclic).induction with
  | h index ih =>
      obtain ⟨symbols, others, same⟩ := List.exists_cons_of_ne_nil (nonempty index)
      have chosen : symbols ∈ analysis.grammar.rules.get index := same ▸ List.mem_cons_self
      obtain ⟨byte, begins⟩ := Resolved.exists_contains_firstOf sound.first_marks
        (sound.wellFormed index symbols chosen) fun before other after split vanishes =>
          ih other ⟨before, after, split ▸ chosen, vanishes⟩
      exact ⟨byte, sound.first_closed index symbols chosen byte begins⟩

section Complete

variable (sound : analysis.Sound) (nonempty : ∀ index, analysis.grammar.rules.get index ≠ [])
include sound nonempty

theorem exists_contains_firstOf {symbols : List (ResolvedSymbol n)}
    (proper : Resolved.Proper symbols) :
    ∃ byte, (Resolved.firstOf analysis.first symbols).contains byte = true :=
  Resolved.exists_contains_firstOf sound.first_marks proper fun _ other _ _ _ =>
    sound.exists_contains_first nonempty other

theorem exists_lookup {table : Table} (realizes : table.Realizes analysis) {index : Fin n}
    {row : Row} (present : table.row? index.val = some row)
    (follows : ∃ byte, (analysis.follow.get index).contains byte = true) :
    ∃ byte operations, row.lookup byte = some operations := by
  obtain ⟨symbols, others, same⟩ := List.exists_cons_of_ne_nil (nonempty index)
  have chosen : symbols ∈ analysis.grammar.rules.get index := same ▸ List.mem_cons_self
  have begins := sound.exists_contains_firstOf nonempty (sound.wellFormed index symbols chosen)
  rcases Resolved.exists_predicts begins follows with
    ⟨byte, ⟨begins, different⟩ | ⟨vanishes, after⟩⟩
  · exact ⟨byte, _, (realizes.lookup_iff index present).mpr
      ⟨symbols, chosen, Or.inl ⟨begins, different, rfl⟩⟩⟩
  · exact ⟨byte, _, (realizes.lookup_iff index present).mpr
      ⟨symbols, chosen, Or.inr ⟨vanishes, after, rfl⟩⟩⟩

end Complete

end Analysis.Sound

namespace Grammar

def Mentions (grammar : Grammar) (rule next : Fin grammar.rules.length) : Prop :=
  ∃ alternative ∈ (grammar.rules.get rule).alternatives,
    .nonTerminal (grammar.rules.get next).head ∈ alternative

/-- The rule is the start rule, or is reached from it by alternatives of rules. -/
def Reachable (grammar : Grammar) (index : Fin grammar.rules.length) : Prop :=
  ∃ start : Fin grammar.rules.length, start.val = 0 ∧
    Relation.ReflTransGen grammar.Mentions start index

variable {grammar : Grammar}

namespace Resolves

variable {resolved : Resolved grammar.rules.length}

theorem alternatives_ne_nil (resolves : grammar.Resolves resolved)
    (index : Fin grammar.rules.length) : resolved.rules.get index ≠ [] := by
  have resolution := resolves.rule_get index
  rw [resolveRule] at resolution
  split at resolution
  · simp at resolution
  · rename_i nonempty
    intro vacant
    have lengths := (resolves.forall₂_alternatives index).length_eq
    rw [vacant, List.length_nil, List.length_eq_zero_iff] at lengths
    exact nonempty (List.isEmpty_iff.mpr lengths)

theorem exists_chosen_of_mentions (resolves : grammar.Resolves resolved)
    {rule next : Fin grammar.rules.length} (mentions : grammar.Mentions rule next) :
    ∃ front back, front ++ .rule next :: back ∈ resolved.rules.get rule := by
  obtain ⟨alternative, member, among⟩ := mentions
  obtain ⟨symbols, chosen, symbolwise, _⟩ :=
    exists_of_forall₂_left (resolves.forall₂_alternatives rule) member
  obtain ⟨before, after, split⟩ := List.append_of_mem among
  obtain ⟨front, symbol, back, rfl, _, here, _⟩ := exists_split_of_forall₂ split symbolwise
  obtain rfl := resolves.resolvesTo_head_iff.mp here
  exact ⟨front, back, chosen⟩

end Resolves

section Analyzed

variable {analysis : Analysis grammar.rules.length} {index : Fin grammar.rules.length}

theorem exists_contains_follow (analyzed : grammar.analyze = .ok analysis)
    (reachable : grammar.Reachable index) :
    ∃ byte, (analysis.follow.get index).contains byte = true := by
  obtain ⟨sound, resolves⟩ := sound_of_analyze analyzed
  obtain ⟨start, first, path⟩ := reachable
  -- The input may end after the start rule, and a rule hands on what comes after it.
  induction path with
  | refl => exact ⟨endOfInputByte, sound.follow_start start first⟩
  | @tail rule next _ mentions ih =>
      obtain ⟨front, back, chosen⟩ := resolves.exists_chosen_of_mentions mentions
      have proper : Resolved.Proper (.rule next :: back) :=
        Resolved.proper_of_append (sound.wellFormed rule _ chosen)
      have backProper : Resolved.Proper back := proper
      have begins := sound.exists_contains_firstOf resolves.alternatives_ne_nil backProper
      obtain ⟨byte, predicts⟩ := Resolved.exists_predicts begins ih
      exact ⟨byte, Resolved.contains_of_followed (sound.follow_closed rule _ chosen) predicts⟩

variable {table : Table} {names : NameMap} (generated : grammar.generate = .ok (table, names))
  (reachable : grammar.Reachable index)
include generated reachable

theorem exists_assigned_of_generate :
    ∃ row, table.row? index.val = some row ∧
      ∃ byte place operations, (byte, place) ∈ row.assigned ∧
        row.alternatives[place]? = some operations := by
  obtain ⟨analysis, analyzed, tabulated, _⟩ := generate_eq_ok_iff.mp generated
  obtain ⟨sound, resolves⟩ := sound_of_analyze analyzed
  have realizes := Analysis.realizes_of_table tabulated
  obtain ⟨row, present, _⟩ := realizes.present index
  obtain ⟨byte, operations, found⟩ := sound.exists_lookup resolves.alternatives_ne_nil realizes
    present (exists_contains_follow analyzed reachable)
  obtain ⟨place, assigned, points⟩ := Row.exists_assigned_of_lookup found
  exact ⟨row, present, byte, place, operations, assigned, points⟩

theorem eq_of_vanish_of_generate {one two : Nat} {alternative other : Alternative}
    (found : (grammar.rules.get index).alternatives[one]? = some alternative)
    (otherFound : (grammar.rules.get index).alternatives[two]? = some other)
    (vanishes : grammar.Rewrites (alternative.flatMap Symbol.form) [])
    (otherVanishes : grammar.Rewrites (other.flatMap Symbol.form) []) : one = two := by
  obtain ⟨analysis, analyzed, _⟩ := generate_eq_ok_iff.mp generated
  obtain ⟨byte, contains⟩ := exists_contains_follow analyzed reachable
  obtain ⟨resolved, resolution, _, rfl⟩ := analyze_eq_ok_iff.mp analyzed
  have resolves := resolves_of_resolve_eq_ok resolution
  have follows := (resolves.contains_follow_iff index byte).mp contains
  by_contra different
  -- Both alternatives would claim what follows the rule.
  refine (exists_generate_iff analyzed).mp ⟨_, generated⟩ _ (List.get_mem _ index) byte ?_
  exact ⟨(one, .follows), (two, .follows), [], [], by simpa using different,
    .follows found vanishes follows, .follows otherFound otherVanishes follows⟩

end Analyzed

/-- FIRST of a rule that is analyzed is never empty, and FOLLOW is not if the start rule reaches
the rule.  So once there is a table, the row of such a rule has an assigned cell, and not more than
one alternative of the rule derives the empty text. -/
theorem analysis_is_inhabited {analysis : Analysis grammar.rules.length}
    (analyzed : grammar.analyze = .ok analysis) :
    (∀ index, ∃ byte, (analysis.first.get index).contains byte = true) ∧
      ∀ index, grammar.Reachable index →
        (∃ byte, (analysis.follow.get index).contains byte = true) ∧
        ∀ table names, grammar.generate = .ok (table, names) →
          (∃ row, table.row? index.val = some row ∧
            ∃ byte place operations, (byte, place) ∈ row.assigned ∧
              row.alternatives[place]? = some operations) ∧
          ∀ (one two : Nat) (alternative other : Alternative),
            (grammar.rules.get index).alternatives[one]? = some alternative →
            (grammar.rules.get index).alternatives[two]? = some other →
            grammar.Rewrites (alternative.flatMap Symbol.form) [] →
            grammar.Rewrites (other.flatMap Symbol.form) [] → one = two := by
  obtain ⟨sound, resolves⟩ := sound_of_analyze analyzed
  refine ⟨sound.exists_contains_first resolves.alternatives_ne_nil, fun index reachable =>
    ⟨exists_contains_follow analyzed reachable, fun table names generated => ⟨?_, ?_⟩⟩⟩
  · exact exists_assigned_of_generate generated reachable
  · intro one two alternative other found otherFound vanishes otherVanishes
    exact eq_of_vanish_of_generate generated reachable found otherFound vanishes otherVanishes

theorem letterLines_analysis_is_inhabited :
    ∃ analysis table names, Parser.letterLines.analyze = .ok analysis ∧
      Parser.letterLines.generate = .ok (table, names) ∧
      Parser.letterLines.Reachable ⟨1, by decide⟩ ∧
      (∃ byte, (analysis.first.get ⟨1, by decide⟩).contains byte = true) ∧
      (∃ byte, (analysis.follow.get ⟨1, by decide⟩).contains byte = true) ∧
      (∃ row, table.row? 1 = some row ∧
        ∃ byte place operations, (byte, place) ∈ row.assigned ∧
          row.alternatives[place]? = some operations) ∧
      ∀ (place : Nat) (alternative : Alternative),
        Parser.letterLines.rules[1].alternatives[place]? = some alternative →
        Parser.letterLines.Rewrites (alternative.flatMap Symbol.form) [] → place = 1 := by
  obtain ⟨table, names, generated⟩ := Parser.exists_generate_letterLines
  obtain ⟨analysis, analyzed, _⟩ := generate_eq_ok_iff.mp generated
  have mentions : Parser.letterLines.Mentions ⟨0, by decide⟩ ⟨1, by decide⟩ :=
    ⟨[.terminal [97], .nonTerminal "more"], by decide, by decide⟩
  have reachable : Parser.letterLines.Reachable ⟨1, by decide⟩ := ⟨_, rfl, .single mentions⟩
  obtain ⟨first, later⟩ := analysis_is_inhabited analyzed
  obtain ⟨follow, rows⟩ := later _ reachable
  obtain ⟨assigned, single⟩ := rows table names generated
  refine ⟨analysis, table, names, analyzed, generated, reachable, first _, follow, assigned, ?_⟩
  intro place alternative found vanishes
  exact single place 1 alternative [.empty] found rfl vanishes (.refl [])

end Grammar

end Lookahead
