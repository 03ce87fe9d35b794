import Lookahead.Enumeration.Samples
import Lookahead.Proofs.Joining
import Lookahead.Proofs.RoundTrip

/-!
Grammars of annotated enumerations.  The texts of a variant are checked one by one and loaded
together, and the grammar has the alternatives that each of them loads to alone.
-/

namespace Lookahead

open Bnf

/-! ### What the checks of a description give -/

def Marker.text? (marker : Marker) : Option String :=
  match marker.argument with
  | .text value => some value
  | _ => none

def IsSingleLine (text : String) : Prop :=
  ∀ char ∈ text.toList, char ≠ '\n' ∧ char ≠ '\r'

theorem Marker.text_eq_ok_iff {marker : Marker} {text : String} :
    marker.text = .ok text ↔ marker.text? = some text ∧ IsSingleLine text := by
  obtain ⟨name, argument⟩ := marker
  cases argument with
  | missing | otherLiteral => simp [Marker.text, Marker.text?]
  | text value =>
      have breaks : (value.toList.any fun char => char == '\n' || char == '\r') = false ↔
          IsSingleLine value := by
        simp [IsSingleLine]
      simp only [Marker.text, Marker.text?, Option.some.injEq]
      split
      · rename_i broken
        constructor
        · rintro ⟨⟩
        · rintro ⟨rfl, single⟩
          rw [breaks.mpr single] at broken
          cases broken
      · rename_i unbroken
        have single := breaks.mp (Bool.not_eq_true _ ▸ unbroken)
        constructor
        · rintro ⟨⟩
          exact ⟨rfl, single⟩
        · rintro ⟨rfl, _⟩
          rfl

namespace Variant

def textsOf (name : String) (markers : List Marker) : List String :=
  (markers.filter fun marker => marker.name == name).filterMap Marker.text?

/-- What a variant without errors is taken for: its texts are single lines, with the one of a goal
in front. -/
structure Annotates (variant : Variant) (annotated : AnnotatedVariant) : Prop where
  name : annotated.name = variant.name
  goal : annotated.isGoal = !(textsOf "goal" variant.markers).isEmpty
  texts : annotated.texts = textsOf "goal" variant.markers ++ textsOf "production" variant.markers
  present : annotated.texts ≠ []
  single : ∀ text ∈ annotated.texts, IsSingleLine text

theorem textsOf_cons_of_eq {marker : Marker} {rest : List Marker} {text : String}
    (found : marker.text? = some text) :
    textsOf marker.name (marker :: rest) = text :: textsOf marker.name rest := by
  simp [textsOf, found]

theorem textsOf_cons_of_ne {name : String} {marker : Marker} {rest : List Marker}
    (other : marker.name ≠ name) : textsOf name (marker :: rest) = textsOf name rest := by
  simp [textsOf, other]

theorem collect_eq_ok {markers : List Marker} {goal found : Option String}
    {productions gathered : List String}
    (collected : collect goal productions markers = .ok (found, gathered)) :
    found.toList = goal.toList ++ textsOf "goal" markers ∧
      gathered = productions ++ textsOf "production" markers ∧
        (∀ text ∈ textsOf "goal" markers, IsSingleLine text) ∧
          ∀ text ∈ textsOf "production" markers, IsSingleLine text := by
  induction markers generalizing goal productions with
  | nil =>
      cases collected
      simp [textsOf]
  | cons marker rest ih =>
      rw [collect] at collected
      by_cases isGoal : marker.name = "goal"
      · rw [if_pos (beq_iff_eq.mpr isGoal)] at collected
        obtain ⟨text, read, rest⟩ := bind_eq_ok_iff.mp collected
        obtain ⟨found, single⟩ := Marker.text_eq_ok_iff.mp read
        have other : marker.name ≠ "production" := by rw [isGoal]; decide
        rw [textsOf_cons_of_ne other, ← isGoal, textsOf_cons_of_eq found, isGoal]
        split at rest
        · cases rest
        · rename_i first
          obtain ⟨goals, gathers, goalSingles, singles⟩ := ih rest
          obtain rfl : goal = none := by simpa using first
          exact ⟨by simpa using goals, gathers, List.forall_mem_cons.mpr ⟨single, goalSingles⟩,
            singles⟩
      · rw [if_neg (by simpa using isGoal)] at collected
        rw [textsOf_cons_of_ne isGoal]
        by_cases isProduction : marker.name = "production"
        · rw [if_pos (beq_iff_eq.mpr isProduction)] at collected
          obtain ⟨text, read, rest⟩ := bind_eq_ok_iff.mp collected
          obtain ⟨found, single⟩ := Marker.text_eq_ok_iff.mp read
          rw [← isProduction, textsOf_cons_of_eq found, isProduction]
          obtain ⟨goals, gathers, goalSingles, singles⟩ := ih rest
          exact ⟨goals, by simpa using gathers, goalSingles,
            List.forall_mem_cons.mpr ⟨single, singles⟩⟩
        · rw [if_neg (by simpa using isProduction)] at collected
          rw [textsOf_cons_of_ne isProduction]
          exact ih collected

theorem annotates_of_annotated {variant : Variant} {annotated : AnnotatedVariant}
    (checked : variant.annotated = .ok annotated) : variant.Annotates annotated := by
  rw [Variant.annotated] at checked
  split at checked
  · cases checked
  obtain ⟨⟨goal, productions⟩, collected, rest⟩ := bind_eq_ok_iff.mp checked
  obtain ⟨goals, rfl, goalSingles, singles⟩ := collect_eq_ok collected
  simp only [Option.toList_none, List.nil_append] at goals
  simp only [List.nil_append] at rest
  split at rest
  · cases rest
  rename_i present
  obtain rfl := Except.ok.inj rest
  rw [goals] at present
  refine ⟨rfl, ?_, by rw [goals], by simpa [goals] using present, ?_⟩
  · rw [← goals]
    cases goal with
    | none | some => rfl
  · rw [goals]
    exact List.forall_mem_append.mpr ⟨goalSingles, singles⟩

end Variant

namespace AnnotatedVariant

theorem utf8Bytes_line (variant : AnnotatedVariant) (text : String) :
    utf8Bytes (variant.line text) =
      60 :: utf8Bytes variant.name ++ 62 :: ([32, 58, 58, 61, 32] ++ utf8Bytes text) := by
  have sign : utf8Bytes " ::= " = [32, 58, 58, 61, 32] := rfl
  rw [line, utf8Bytes_append, utf8Bytes_append, utf8Bytes_bracketed, sign]
  simp

theorem load_line_eq_ok_iff {variant : AnnotatedVariant} {text : String} {grammar : Grammar}
    (unclosed : '>' ∉ variant.name.toList) (single : IsSingleLine text) :
    Grammar.load (variant.line text) = .ok grammar ↔
      ∃ alternatives, ReadableName variant.name ∧ ReadsBody (utf8Bytes text) alternatives ∧
        grammar = ⟨[⟨variant.name, alternatives⟩]⟩ := by
  rw [Grammar.load_eq_ok_iff]
  constructor
  · rintro ⟨rules, reads, -, rfl⟩
    have bracket : (62 : UInt8) ∉ utf8Bytes variant.name :=
      fun member => unclosed (mem_of_mem_utf8Bytes (by decide) member)
    have feed : (10 : UInt8) ∉ [32, 58, 58, 61, 32] ++ utf8Bytes text := by
      intro member
      rcases List.mem_append.mp member with sign | inside
      · exact absurd sign (by decide)
      · exact (single _ (mem_of_mem_utf8Bytes (by decide) inside)).1 rfl
    rw [ReadsText, utf8Bytes_line] at reads
    obtain ⟨rule, rfl, line⟩ := reads.of_bracket bracket feed
    obtain ⟨alternatives, spelled, body, rfl⟩ := line.exists_body bracket
    obtain ⟨same, readable⟩ := readableName_of_isName spelled
    exact ⟨alternatives, readable, body, by rw [same]; rfl⟩
  · rintro ⟨alternatives, readable, body, rfl⟩
    obtain ⟨spelled, same⟩ := utf8Bytes_readableName readable
    have line := readsLine_rule spelled body
    rw [same, ← utf8Bytes_line] at line
    exact ⟨_, reads_line line, by simp, rfl⟩

theorem load_line_of_render {variant : AnnotatedVariant} {text : String}
    (alternatives : List Alternative) (readable : Rule.Readable ⟨variant.name, alternatives⟩)
    (rendered : " | ".intercalate (alternatives.map Alternative.render) = text) :
    Grammar.load (variant.line text) = .ok ⟨[⟨variant.name, alternatives⟩]⟩ := by
  have whole : Grammar.Readable ⟨[⟨variant.name, alternatives⟩]⟩ :=
    ⟨List.cons_ne_nil _ _, List.forall_mem_singleton.mpr readable⟩
  rw [← rendered]
  exact Grammar.load_render_of_readable whole

/-- The rule of a variant: what each of its texts loads to alone, one after the other. -/
def Describes (variant : AnnotatedVariant) (rule : Rule) : Prop :=
  rule.head = variant.name ∧
    ∃ parts, rule.alternatives = parts.flatten ∧
      List.Forall₂ (fun text alternatives =>
          Grammar.load (variant.line text) = .ok ⟨[⟨variant.name, alternatives⟩]⟩)
        variant.texts parts

def joinedLine (variant : AnnotatedVariant) : String :=
  variant.line (" | ".intercalate variant.texts)

def Loads (variant : AnnotatedVariant) : Prop :=
  ∀ text ∈ variant.texts, ∃ alone, Grammar.load (variant.line text) = .ok alone

theorem checkedLine_eq_ok_iff {variant : AnnotatedVariant} {joined : String} :
    variant.checkedLine = .ok joined ↔ variant.Loads ∧ variant.joinedLine = joined := by
  have passes (text : String) :
      (do let _ ← (Grammar.load (variant.line text)).mapError EnumerationError.load) = .ok () ↔
        ∃ alone, Grammar.load (variant.line text) = .ok alone := by
    rw [bind_eq_ok_iff]
    simp only [mapError_eq_ok_iff, pure, Except.pure, and_true]
  rw [checkedLine, bind_eq_ok_iff]
  constructor
  · rintro ⟨_, checked, same⟩
    have each := forM_eq_ok_iff.mp checked
    exact ⟨fun text member => (passes text).mp (each text member), Except.ok.inj same⟩
  · rintro ⟨loads, rfl⟩
    exact ⟨(), forM_eq_ok_iff.mpr fun text member => (passes text).mpr (loads text member), rfl⟩

theorem mapM_checkedLine_eq_ok_iff {variants : List AnnotatedVariant} {lines : List String} :
    variants.mapM checkedLine = .ok lines ↔
      (∀ variant ∈ variants, variant.Loads) ∧ variants.map joinedLine = lines := by
  simp only [mapM_eq_ok_iff, checkedLine_eq_ok_iff]
  rw [List.forall₂_and_left, ← List.forall₂_eq_eq_eq, List.forall₂_map_left_iff]

structure Checked (variant : AnnotatedVariant) : Prop where
  unclosed : '>' ∉ variant.name.toList
  present : variant.texts ≠ []
  single : ∀ text ∈ variant.texts, IsSingleLine text

theorem Checked.exists_describes {variant : AnnotatedVariant} (checked : variant.Checked)
    (loads : variant.Loads) :
    ∃ rule, variant.Describes rule ∧ ReadsLine (utf8Bytes variant.joinedLine) (some rule) := by
  have each : ∀ text ∈ variant.texts, ∃ alternatives,
      (ReadableName variant.name ∧ ReadsBody (utf8Bytes text) alternatives) ∧
        Grammar.load (variant.line text) = .ok ⟨[⟨variant.name, alternatives⟩]⟩ := by
    intro text member
    obtain ⟨alone, loaded⟩ := loads text member
    obtain ⟨alternatives, readable, body, rfl⟩ :=
      (load_line_eq_ok_iff checked.unclosed (checked.single text member)).mp loaded
    exact ⟨alternatives, ⟨readable, body⟩, loaded⟩
  obtain ⟨parts, related⟩ := exists_forall₂_of_forall each
  obtain ⟨text, member⟩ := List.exists_mem_of_ne_nil _ checked.present
  obtain ⟨_, ⟨readable, _⟩, _⟩ := each text member
  obtain ⟨spelled, same⟩ := utf8Bytes_readableName readable
  have bodies := readsBody_intercalate checked.present (related.imp fun _ _ holds => holds.1.2)
  have line := readsLine_rule spelled bodies
  rw [same, ← utf8Bytes_line] at line
  exact ⟨_, ⟨rfl, parts, rfl, related.imp fun _ _ holds => holds.2⟩, line⟩

theorem exists_load_joinedLines {variants : List AnnotatedVariant} (some : variants ≠ [])
    (checked : ∀ variant ∈ variants, variant.Checked)
    (loads : ∀ variant ∈ variants, variant.Loads) :
    ∃ rules, Grammar.load ("\n".intercalate (variants.map joinedLine)) = .ok ⟨rules⟩ ∧
      List.Forall₂ Describes variants rules := by
  obtain ⟨rules, related⟩ := exists_forall₂_of_forall fun variant member =>
    (checked variant member).exists_describes (loads variant member)
  refine ⟨rules, load_intercalate (by simpa using some) ?_,
    related.imp fun _ _ holds => holds.1⟩
  rw [List.forall₂_map_left_iff]
  exact related.imp fun _ _ holds => holds.2

end AnnotatedVariant

namespace Enumeration

section

variable {enumeration : Enumeration} {variants : List AnnotatedVariant} {goal : AnnotatedVariant}

theorem mem_goalFirst_iff (single : variants.filter (·.isGoal) = [goal])
    {variant : AnnotatedVariant} :
    variant ∈ (goal :: variants.filter fun variant => !variant.isGoal) ↔ variant ∈ variants := by
  rw [List.mem_cons, ← List.mem_singleton, ← single, List.mem_filter, List.mem_filter]
  cases variant.isGoal with
  | true | false => simp

theorem grammar_eq_ok_iff {grammar : Grammar} (annotated : enumeration.annotated = .ok variants)
    (single : variants.filter (·.isGoal) = [goal]) :
    enumeration.grammar = .ok grammar ↔
      (∀ variant ∈ variants, variant.Loads) ∧
        Grammar.load ("\n".intercalate
          ((goal :: variants.filter fun variant => !variant.isGoal).map
            AnnotatedVariant.joinedLine)) = .ok grammar := by
  have ordered : goalFirst variants =
      .ok (goal :: variants.filter fun variant => !variant.isGoal) := by
    simp [goalFirst, single]
  simp only [Enumeration.grammar, bind_eq_ok_iff, annotated, Except.ok.injEq, exists_eq_left',
    ordered, AnnotatedVariant.mapM_checkedLine_eq_ok_iff, mapError_eq_ok_iff,
    mem_goalFirst_iff single]
  constructor
  · rintro ⟨_, ⟨loads, rfl⟩, loaded⟩
    exact ⟨loads, loaded⟩
  · rintro ⟨loads, loaded⟩
    exact ⟨_, ⟨loads, rfl⟩, loaded⟩

theorem annotates_of_annotated (annotated : enumeration.annotated = .ok variants) :
    List.Forall₂ Variant.Annotates enumeration.variants variants := by
  rw [Enumeration.annotated] at annotated
  split at annotated
  · cases annotated
  · exact (mapM_eq_ok_iff.mp annotated).imp fun _ _ => Variant.annotates_of_annotated

/-- The grammar of a description that passes the checks and has one goal.  It exists exactly if
each text loads alone on a line of its own, and then it has the rule of the goal and the rules of
the other variants in order, each with what its texts load to alone.  The names are identifiers,
so none has a bracket that closes the head of its line. -/
theorem grammar_is_described (annotated : enumeration.annotated = .ok variants)
    (single : variants.filter (·.isGoal) = [goal])
    (named : ∀ variant ∈ enumeration.variants, '>' ∉ variant.name.toList) :
    List.Forall₂ Variant.Annotates enumeration.variants variants ∧
    ((∃ grammar, enumeration.grammar = .ok grammar) ↔
      ∀ variant ∈ variants, ∀ text ∈ variant.texts,
        ∃ alone, Grammar.load (variant.line text) = .ok alone) ∧
    ∀ grammar, enumeration.grammar = .ok grammar →
      List.Forall₂ AnnotatedVariant.Describes
        (goal :: variants.filter fun variant => !variant.isGoal) grammar.rules := by
  have annotates := annotates_of_annotated annotated
  have checked : ∀ variant ∈ variants, variant.Checked := by
    intro variant member
    obtain ⟨source, among, holds⟩ := exists_of_forall₂_left annotates.flip member
    exact ⟨holds.name ▸ named source among, holds.present, holds.single⟩
  have loaded (loads : ∀ variant ∈ variants, variant.Loads) :=
    AnnotatedVariant.exists_load_joinedLines (List.cons_ne_nil _ _)
      (fun variant member => checked variant ((mem_goalFirst_iff single).mp member))
      (fun variant member => loads variant ((mem_goalFirst_iff single).mp member))
  simp only [grammar_eq_ok_iff annotated single]
  refine ⟨annotates, ⟨fun ⟨_, loads, _⟩ => loads, fun loads => ?_⟩, ?_⟩
  · obtain ⟨rules, joined, _⟩ := loaded loads
    exact ⟨⟨rules⟩, loads, joined⟩
  · rintro grammar ⟨loads, joined⟩
    obtain ⟨rules, together, described⟩ := loaded loads
    obtain rfl := Except.ok.inj (joined.symm.trans together)
    exact described

end

def turnedAssignment : Enumeration :=
  { Samples.assignment with variants := Samples.assignment.variants.reverse }

def assignedGoal : AnnotatedVariant :=
  ⟨"Expr", true, ["\"A\" \"::=\" <T>"]⟩

def assignedName : AnnotatedVariant :=
  ⟨"T", false, ["\"C\"", "\"D\" <EOL>"]⟩

theorem assignedGoal_loads : assignedGoal.Loads := by
  exact List.forall_mem_singleton.mpr ⟨_, AnnotatedVariant.load_line_of_render
    [[.terminal [65], .terminal [58, 58, 61], .nonTerminal "T"]] (by decide) (by decide +kernel)⟩

theorem assignedName_loads : assignedName.Loads := by
  refine List.forall_mem_cons.mpr ⟨?_, List.forall_mem_singleton.mpr ?_⟩
  · exact ⟨_, AnnotatedVariant.load_line_of_render [[.terminal [67]]] (by decide)
      (by decide +kernel)⟩
  · exact ⟨_, AnnotatedVariant.load_line_of_render [[.terminal [68], .nonTerminal "EOL"]]
      (by decide) (by decide +kernel)⟩

theorem turnedAssignment_is_described :
    ∃ grammar, turnedAssignment.grammar = .ok grammar ∧
      List.Forall₂ AnnotatedVariant.Describes [assignedGoal, assignedName] grammar.rules := by
  have annotated : turnedAssignment.annotated = .ok [assignedName, assignedGoal] := by decide
  have single : [assignedName, assignedGoal].filter (·.isGoal) = [assignedGoal] := rfl
  obtain ⟨_, loads_iff, described⟩ := grammar_is_described annotated single (by decide)
  obtain ⟨grammar, success⟩ := loads_iff.mpr <| List.forall_mem_cons.mpr
    ⟨assignedName_loads, List.forall_mem_singleton.mpr assignedGoal_loads⟩
  exact ⟨grammar, success, described grammar success⟩

def assignmentGrammar : Grammar :=
  ⟨[⟨"Expr", [[.terminal [65], .terminal [58, 58, 61], .nonTerminal "T"]]⟩,
    ⟨"T", [[.terminal [67]], [.terminal [68], .nonTerminal endOfLineName]]⟩]⟩

theorem grammar_assignment : Samples.assignment.grammar = .ok assignmentGrammar := by
  have annotated : Samples.assignment.annotated = .ok [assignedGoal, assignedName] := by decide
  have single : [assignedGoal, assignedName].filter (·.isGoal) = [assignedGoal] := rfl
  have loads : ∀ variant ∈ [assignedGoal, assignedName], variant.Loads :=
    List.forall_mem_cons.mpr
      ⟨assignedGoal_loads, List.forall_mem_singleton.mpr assignedName_loads⟩
  have rendered : "\n".intercalate ([assignedGoal, assignedName].map AnnotatedVariant.joinedLine) =
      assignmentGrammar.render := by decide +kernel
  refine (grammar_eq_ok_iff annotated single).mpr ⟨loads, ?_⟩
  exact rendered ▸ Grammar.load_render_of_readable (by decide)

end Enumeration

end Lookahead
