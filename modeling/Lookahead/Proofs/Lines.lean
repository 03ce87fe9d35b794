import Lookahead.Proofs.Alternatives
import Mathlib.Data.List.ReduceOption

/-!
Rules and lines.  A text that the grammar derives reads line by line, and the nodes that show its
derivation are converted to the rules that the lines spell.
-/

namespace Lookahead.Bnf

open Lookahead.Grammar Lookahead.Derivation

variable {trees : List Derivation} {text : List UInt8}

/-! ### The alternatives of a rule -/

def expressionRule : Rule :=
  ⟨"expression", [[.nonTerminal "list", .nonTerminal "expression-tail"]]⟩

def expressionTailRule : Rule :=
  ⟨"expression-tail",
    [[.empty],
      [.terminal [124], .nonTerminal "opt-whitespace", .nonTerminal "list",
        .nonTerminal "expression-tail"]]⟩

theorem found_expressionRule : grammar.rules[5]? = some expressionRule := rfl

theorem found_expressionTailRule : grammar.rules[6]? = some expressionTailRule := rfl

def ReadsBar (text : List UInt8) (alternative : Alternative) : Prop :=
  ∃ gap rest, text = 124 :: gap ++ rest ∧ Blank gap ∧ ReadsAlternative rest alternative

theorem exists_readsBar_of_derives
    (derives : grammar.Derives
      [.terminal [124], .nonTerminal "opt-whitespace", .nonTerminal "list"] trees text) :
    ∃ alternative, ReadsBar text alternative := by
  obtain ⟨_, _, bar, later, rfl, rfl, first, spaced⟩ := derives_cons_iff.mp derives
  obtain ⟨_, _, gap, rest, rfl, rfl, space, listed⟩ := derives_cons_iff.mp spaced
  obtain ⟨_, rfl⟩ := derives_terminal_iff.mp first
  obtain ⟨alternative, reads⟩ := exists_reads_of_list listed
  exact ⟨alternative, gap, rest, rfl, blank_of_derives space, reads⟩

theorem exists_readsAlternatives_of_segments {segments : List (List UInt8)}
    {alternative : Alternative} (first : ReadsAlternative text alternative)
    (each : ∀ segment ∈ segments, ∃ alternative, ReadsBar segment alternative) :
    ∃ alternatives, ReadsAlternatives (text ++ segments.flatten) alternatives := by
  induction segments generalizing text alternative with
  | nil => exact ⟨[alternative], by simpa using ReadsAlternatives.last first⟩
  | cons segment rest ih =>
      obtain ⟨⟨next, gap, body, rfl, blank, reads⟩, later⟩ := List.forall_mem_cons.mp each
      obtain ⟨alternatives, readsRest⟩ := ih reads later
      exact ⟨alternative :: alternatives, by
        simpa using ReadsAlternatives.cons first blank readsRest⟩

theorem exists_reads_of_expression
    (derives : grammar.Derives [.nonTerminal "expression"] trees text) :
    ∃ alternatives, ReadsAlternatives text alternatives := by
  obtain ⟨alternative, chosen, children, rfl, inside⟩ :=
    (derives_rule_iff heads_nodup found_expressionRule).mp derives
  obtain rfl := List.mem_singleton.mp chosen
  obtain ⟨_, _, first, later, _, rfl, here, rest⟩ := derives_cons_iff.mp inside
  obtain ⟨tail, _, _, _, rfl, rfl, _, ends⟩ := derives_cons_iff.mp rest
  obtain ⟨rfl, rfl⟩ := derives_nil_iff.mp ends
  have repeats : ∀ alternative ∈ expressionTailRule.alternatives, alternative = [.empty] ∨
      alternative = [.terminal [124], .nonTerminal "opt-whitespace", .nonTerminal "list"] ++
        [.nonTerminal expressionTailRule.head] := by
    simp [expressionTailRule]
  obtain ⟨segments, same, each⟩ :=
    exists_segments_of_derives heads_nodup found_expressionTailRule repeats rest
  obtain ⟨alternative, reads⟩ := exists_reads_of_list here
  rw [same]
  exact exists_readsAlternatives_of_segments reads fun segment member =>
    (each segment member).elim fun _ => exists_readsBar_of_derives

theorem ReadsAlternatives.ne_nil {alternatives : List Alternative}
    (reads : ReadsAlternatives text alternatives) : text ≠ [] := by
  cases reads with
  | last reads => exact reads.ne_nil
  | cons reads => simp

theorem exists_derives_lists {alternatives : List Alternative}
    (reads : ReadsAlternatives text alternatives) :
    ∃ children, grammar.Derives [.nonTerminal "list", .nonTerminal "expression-tail"]
        children text ∧
      Gathers (· == bindings.list) bindings.toAlternative children alternatives := by
  induction reads with
  | last reads =>
      obtain ⟨children, derives, converts⟩ := exists_derives_list reads
      have ends : [.empty] ∈ expressionTailRule.alternatives := by simp [expressionTailRule]
      have tail := (Derives.empty .nil).of_alternative found_expressionTailRule ends
      have both := derives.append tail
      rw [List.append_nil] at both
      exact ⟨_, both, (gathers_hit (by decide) converts).append
        (gathers_empty.inside rfl rfl fun _ => rfl)⟩
  | cons reads blank later ih =>
      obtain ⟨children, derives, converts⟩ := exists_derives_list reads
      obtain ⟨space, spaceDerives, skipped⟩ :=
        exists_derives_gap bindings.toAlternative bindings.list (by decide) blank
      obtain ⟨others, othersDerive, gathers⟩ := ih
      have again : [.terminal [124]] ++ [.nonTerminal "opt-whitespace"] ++
          [.nonTerminal "list", .nonTerminal "expression-tail"] ∈
            expressionTailRule.alternatives := by simp [expressionTailRule]
      have inside := ((derives_terminal [124]).append spaceDerives).append othersDerive
      have below := ((gathers_terminal rfl [124]).append skipped).append gathers
      have both : grammar.Derives [.nonTerminal "list", .nonTerminal "expression-tail"] _ _ :=
        derives.append (inside.of_alternative found_expressionTailRule again)
      exact ⟨_, by simpa using both, (gathers_hit (by decide) converts).append
        (below.inside rfl rfl fun none => absurd none (by simp [yields, yield]))⟩

def toAlternatives (input : Array UInt8) (expression : Tree) :
    Except LoadError (List Alternative) :=
  (expression.outermost (· == bindings.list)).mapM (bindings.toAlternative input)

theorem exists_derives_expression {alternatives : List Alternative}
    (reads : ReadsAlternatives text alternatives) :
    ∃ children, grammar.Derives [.nonTerminal "expression"] [.rule 5 children] text ∧
      Converts toAlternatives (.rule 5 children) alternatives := by
  obtain ⟨children, derives, gathers⟩ := exists_derives_lists reads
  have solid : yields children ≠ [] := derives.yields_eq ▸ reads.ne_nil
  exact ⟨children, derives.of_alternative found_expressionRule (by simp [expressionRule]),
    converts_of_gathers (gathers.inside rfl rfl fun none => absurd none solid)⟩

/-! ### Rules -/

def contentRule : Rule :=
  ⟨"content",
    [[.terminal [60], .nonTerminal "rule-name", .terminal [62], .nonTerminal "opt-whitespace",
      .terminal [58, 58, 61], .nonTerminal "opt-whitespace", .nonTerminal "expression"]]⟩

theorem found_contentRule : grammar.rules[4]? = some contentRule := rfl

theorem exists_reads_of_content (derives : grammar.Derives [.nonTerminal "content"] trees text) :
    ∃ rule, ReadsRule text rule := by
  obtain ⟨alternative, chosen, children, rfl, inside⟩ :=
    (derives_rule_iff heads_nodup found_contentRule).mp derives
  obtain rfl := List.mem_singleton.mp chosen
  obtain ⟨_, _, opening, _, _, rfl, opens, afterOpening⟩ := derives_cons_iff.mp inside
  obtain ⟨_, _, name, _, rfl, rfl, named, afterName⟩ := derives_cons_iff.mp afterOpening
  obtain ⟨_, _, closing, _, rfl, rfl, closes, afterClosing⟩ := derives_cons_iff.mp afterName
  obtain ⟨_, _, before, _, rfl, rfl, space, afterSpace⟩ := derives_cons_iff.mp afterClosing
  obtain ⟨_, _, sign, _, rfl, rfl, defines, afterSign⟩ := derives_cons_iff.mp afterSpace
  obtain ⟨_, _, after, body, rfl, rfl, gap, expression⟩ := derives_cons_iff.mp afterSign
  obtain ⟨_, rfl⟩ := derives_terminal_iff.mp opens
  obtain ⟨_, rfl⟩ := derives_terminal_iff.mp closes
  obtain ⟨_, rfl⟩ := derives_terminal_iff.mp defines
  obtain ⟨alternatives, reads⟩ := exists_reads_of_expression expression
  refine ⟨⟨asciiText name, alternatives⟩, ?_⟩
  simpa using ReadsRule.mk (name_of_derives named) (blank_of_derives space)
    (blank_of_derives gap) reads

theorem ReadsRule.ne_nil {rule : Rule} (reads : ReadsRule text rule) : text ≠ [] := by
  cases reads with
  | mk => simp

theorem exists_derives_content {rule : Rule} (reads : ReadsRule text rule) :
    ∃ children, grammar.Derives [.nonTerminal "content"] [.rule 4 children] text ∧
      Converts bindings.toRule (.rule 4 children) rule := by
  obtain ⟨named, before, after, body⟩ := reads
  obtain ⟨name, nameDerives, nameConverts⟩ := exists_derives_bracketed named
  obtain ⟨space, spaceDerives⟩ := exists_derives_blank before
  obtain ⟨gap, gapDerives⟩ := exists_derives_blank after
  obtain ⟨expression, bodyDerives, bodyConverts⟩ := exists_derives_expression body
  have front := ((nameDerives.append spaceDerives).append
    (derives_terminal [58, 58, 61])).append gapDerives
  have chosen : [.terminal [60], .nonTerminal "rule-name", .terminal [62]] ++
      [.nonTerminal "opt-whitespace"] ++ [.terminal [58, 58, 61]] ++
        [.nonTerminal "opt-whitespace"] ++ [.nonTerminal "expression"] ∈
          contentRule.alternatives := by simp [contentRule]
  have whole : grammar.Derives [.nonTerminal "content"] _ _ :=
    (front.append bodyDerives).of_alternative found_contentRule chosen
  have refers : grammar.RefersTo [18, 19, 20, 21, 22, 24]
      ([.terminal [60], .nonTerminal "rule-name", .terminal [62]] ++
        [.nonTerminal "opt-whitespace"] ++ [.terminal [58, 58, 61]] ++
        [.nonTerminal "opt-whitespace"]) := by
    decide
  have skipped : Gathers (· == bindings.expression) toAlternatives _ [] :=
    front.gathers_nil lexemes_closed rfl rfl rfl (by decide) refers
  have findsBody : Finds bindings.expression toAlternatives (.rule 4 (_ ++ [])) _ :=
    finds_of_gathers (by decide) (skipped.append (gathers_hit (by decide) bodyConverts))
      (by simp [yields, yield])
  have findsName : Finds bindings.ruleName _ (.rule 4 ([.terminal [60]] ++ [.rule 18 name] ++
      ([.terminal [62], .rule 24 space, .terminal [58, 58, 61], .rule 24 gap,
        .rule 5 expression]))) _ :=
    finds_of_gathers (by decide)
      ((gathers_terminal rfl [60]).append (gathers_hit (by decide) nameConverts))
      (by simp [yields, yield])
  refine ⟨_, by simpa using whole, ?_⟩
  intro input offset made node places shown
  obtain ⟨head, first, named⟩ := findsName input offset made node places shown
  rw [List.append_nil] at findsBody
  obtain ⟨found, firstBody, converted⟩ := findsBody input offset made node places shown
  simp only [Bindings.toRule, first, firstBody]
  change (toAlternatives input found).bind _ = _
  rw [converted]
  exact congrArg (fun head => Except.ok (Rule.mk head _)) (Except.ok.inj named)

/-! ### Lines -/

def lineRule : Rule :=
  ⟨"line", [[.nonTerminal "opt-whitespace", .nonTerminal "opt-content"]]⟩

def optionalRule : Rule :=
  ⟨"opt-content", [[.nonTerminal "content"], [.empty]]⟩

theorem found_lineRule : grammar.rules[2]? = some lineRule := rfl

theorem found_optionalRule : grammar.rules[3]? = some optionalRule := rfl

theorem exists_reads_of_line (derives : grammar.Derives [.nonTerminal "line"] trees text) :
    ∃ rule, ReadsLine text rule := by
  obtain ⟨alternative, chosen, children, rfl, inside⟩ :=
    (derives_rule_iff heads_nodup found_lineRule).mp derives
  obtain rfl := List.mem_singleton.mp chosen
  obtain ⟨_, _, space, content, _, rfl, spaced, optional⟩ := derives_cons_iff.mp inside
  obtain ⟨alternative, chosen, children, _, inside⟩ :=
    (derives_rule_iff heads_nodup found_optionalRule).mp optional
  simp only [optionalRule, List.mem_cons, List.not_mem_nil, or_false] at chosen
  rcases chosen with rfl | rfl
  · obtain ⟨rule, reads⟩ := exists_reads_of_content inside
    exact ⟨some rule, .rule (blank_of_derives spaced) reads⟩
  · obtain ⟨_, rfl⟩ := derives_empty_iff.mp inside
    exact ⟨none, by simpa using ReadsLine.blank (blank_of_derives spaced)⟩

theorem exists_derives_line {rule : Option Rule} (reads : ReadsLine text rule) :
    ∃ tree, grammar.Derives [.nonTerminal "line"] [tree] text ∧
      Gathers (· == bindings.content) bindings.toRule [tree] rule.toList := by
  have wrap {lead content : List UInt8} {tree : Derivation} {rules : List Rule}
      (blank : Blank lead)
      (derives : grammar.Derives [.nonTerminal "opt-content"] [tree] content)
      (gathers : Gathers (· == bindings.content) bindings.toRule [tree] rules)
      (vacant : content = [] → rules = []) :
      ∃ tree, grammar.Derives [.nonTerminal "line"] [tree] (lead ++ content) ∧
        Gathers (· == bindings.content) bindings.toRule [tree] rules := by
    obtain ⟨space, spaceDerives, skipped⟩ :=
      exists_derives_gap bindings.toRule bindings.content (by decide) blank
    have both := spaceDerives.append derives
    refine ⟨_, both.of_alternative found_lineRule (by simp [lineRule]),
      (skipped.append gathers).inside rfl rfl fun none => vacant ?_⟩
    rw [both.yields_eq] at none
    exact (List.append_eq_nil_iff.mp none).2
  cases reads with
  | blank blank =>
      have inside : grammar.Derives [.nonTerminal "opt-content"] _ [] :=
        (Derives.empty .nil).of_alternative found_optionalRule (by simp [optionalRule])
      simpa using wrap blank inside (gathers_empty.inside rfl rfl fun _ => rfl) fun _ => rfl
  | rule blank reads =>
      obtain ⟨children, derives, converts⟩ := exists_derives_content reads
      have solid : yields [.rule 4 children] ≠ [] := derives.yields_eq ▸ reads.ne_nil
      have inside : grammar.Derives [.nonTerminal "opt-content"] _ _ :=
        derives.of_alternative found_optionalRule (by simp [optionalRule])
      exact wrap blank inside
        ((gathers_hit (by decide) converts).inside rfl rfl fun none => absurd none solid)
        fun none => absurd (derives.yields_eq.trans none) solid

/-! ### Texts -/

def syntaxRule : Rule :=
  ⟨"syntax", [[.nonTerminal "line", .nonTerminal "more-lines"]]⟩

def moreLinesRule : Rule :=
  ⟨"more-lines",
    [[.empty], [.nonTerminal endOfLineName, .nonTerminal "line", .nonTerminal "more-lines"]]⟩

theorem found_syntaxRule : grammar.rules[0]? = some syntaxRule := rfl

theorem found_moreLinesRule : grammar.rules[1]? = some moreLinesRule := rfl

theorem reduceOption_cons (rule : Option Rule) (rules : List (Option Rule)) :
    (rule :: rules).reduceOption = rule.toList ++ rules.reduceOption := by
  cases rule with
  | none => exact List.reduceOption_cons_of_none rules
  | some rule => exact List.reduceOption_cons_of_some rule rules

theorem exists_reads_of_segments {segments : List (List UInt8)} {rule : Option Rule}
    (first : ReadsLine text rule)
    (each : ∀ segment ∈ segments, ∃ trees,
      grammar.Derives [.nonTerminal endOfLineName, .nonTerminal "line"] trees segment) :
    ∃ rules, Reads (text ++ segments.flatten) rules := by
  induction segments generalizing text rule with
  | nil => exact ⟨[rule], by simpa using reads_line first⟩
  | cons segment rest ih =>
      obtain ⟨⟨trees, derives⟩, later⟩ := List.forall_mem_cons.mp each
      obtain ⟨_, _, ending, line, _, rfl, ended, lined⟩ := derives_cons_iff.mp derives
      have ends : IsLineEnd ending :=
        ((derives_endOfLine_iff endOfLine_builtin).mp ended).imp And.right And.right
      obtain ⟨next, reads⟩ := exists_reads_of_line lined
      obtain ⟨rules, readsRest⟩ := ih reads later
      exact ⟨rule :: rules, by simpa using Reads.cons first ends readsRest⟩

theorem exists_reads_of_derives (derives : grammar.Derives [.nonTerminal "syntax"] trees text) :
    ∃ rules, Reads text rules := by
  obtain ⟨alternative, chosen, children, rfl, inside⟩ :=
    (derives_rule_iff heads_nodup found_syntaxRule).mp derives
  obtain rfl := List.mem_singleton.mp chosen
  obtain ⟨_, _, first, later, _, rfl, here, rest⟩ := derives_cons_iff.mp inside
  obtain ⟨tail, _, _, _, rfl, rfl, _, ends⟩ := derives_cons_iff.mp rest
  obtain ⟨rfl, rfl⟩ := derives_nil_iff.mp ends
  have repeats : ∀ alternative ∈ moreLinesRule.alternatives, alternative = [.empty] ∨
      alternative = [.nonTerminal endOfLineName, .nonTerminal "line"] ++
        [.nonTerminal moreLinesRule.head] := by
    simp [moreLinesRule]
  obtain ⟨segments, same, each⟩ :=
    exists_segments_of_derives heads_nodup found_moreLinesRule repeats rest
  obtain ⟨rule, reads⟩ := exists_reads_of_line here
  rw [same]
  exact exists_reads_of_segments reads each

theorem exists_derives_endOfLine (ends : IsLineEnd text) :
    ∃ tree, grammar.Derives [.nonTerminal endOfLineName] [tree] text ∧
      Gathers (· == bindings.content) bindings.toRule [tree] [] := by
  rcases ends with rfl | rfl
  · exact ⟨.lineFeed, .lineFeed endOfLine_builtin .nil, gathers_lineFeed rfl rfl⟩
  · exact ⟨.carriageReturn, .carriageReturn endOfLine_builtin .nil,
      gathers_carriageReturn rfl rfl⟩

theorem exists_derives_lines {rules : List (Option Rule)} (reads : Reads text rules) :
    ∃ children, grammar.Derives [.nonTerminal "line", .nonTerminal "more-lines"] children text ∧
      Gathers (· == bindings.content) bindings.toRule children rules.reduceOption := by
  rw [Reads] at reads
  generalize linesAre : splitLines text = lines at reads
  induction reads generalizing text with
  | nil => exact absurd linesAre (splitLines_ne_nil text)
  | @cons line rule lines rules here later ih =>
      obtain ⟨tree, derives, gathers⟩ := exists_derives_line here
      rw [reduceOption_cons]
      rcases splitLines_cases text with whole | ⟨first, ending, rest, ends, rfl, cut⟩
      · obtain ⟨rfl, rfl⟩ := List.cons.inj (whole.symm.trans linesAre)
        obtain rfl := List.forall₂_nil_left_iff.mp later
        have stops : grammar.Derives [.nonTerminal "more-lines"] _ [] :=
          (Derives.empty .nil).of_alternative found_moreLinesRule (by simp [moreLinesRule])
        have both := derives.append stops
        rw [List.append_nil] at both
        exact ⟨_, both, gathers.append (gathers_empty.inside rfl rfl fun _ => rfl)⟩
      · obtain ⟨rfl, rest_eq⟩ := List.cons.inj (cut.symm.trans linesAre)
        obtain ⟨children, restDerives, restGathers⟩ := ih rest_eq
        obtain ⟨line_end, endDerives, skipped⟩ := exists_derives_endOfLine ends
        have inside := endDerives.append restDerives
        have more : grammar.Derives [.nonTerminal "more-lines"] _ _ :=
          inside.of_alternative found_moreLinesRule (by simp [moreLinesRule])
        have solid : yields ([line_end] ++ children) ≠ [] := by
          rw [inside.yields_eq]
          rcases ends with rfl | rfl
          all_goals simp
        refine ⟨_, by simpa using derives.append more, gathers.append
          ((skipped.append restGathers).inside rfl rfl fun none => absurd none solid)⟩

theorem reduceOption_eq_nil_of_reads {rules : List (Option Rule)} (reads : Reads [] rules) :
    rules.reduceOption = [] := by
  obtain ⟨rule, _, here, later, rfl⟩ := List.forall₂_cons_left_iff.mp reads
  obtain rfl := List.forall₂_nil_left_iff.mp later
  generalize same : ([] : List UInt8) = line at here
  cases here with
  | blank => rfl
  | rule _ spelled => exact absurd (List.append_eq_nil_iff.mp same.symm).2 spelled.ne_nil

/-- A text that reads has a derivation whose node is converted to the grammar of its rules. -/
theorem exists_derives_of_reads {rules : List (Option Rule)} (reads : Reads text rules) :
    ∃ tree, grammar.Derives [.nonTerminal "syntax"] [tree] text ∧
      Converts (fun input root =>
          (root.outermost (· == bindings.content)).mapM (bindings.toRule input))
        tree rules.reduceOption := by
  obtain ⟨children, derives, gathers⟩ := exists_derives_lines reads
  have outer : Gathers (· == bindings.content) bindings.toRule [.rule 0 children]
      rules.reduceOption := by
    refine gathers.inside rfl rfl fun none => reduceOption_eq_nil_of_reads ?_
    rwa [← none, derives.yields_eq]
  exact ⟨_, derives.of_alternative found_syntaxRule (by simp [syntaxRule]),
    converts_of_gathers outer⟩

end Lookahead.Bnf
