import Lookahead.Proofs.Joining
import Lookahead.Proofs.Productivity

/-!
The line that a load error names.  The parser fails behind the longest beginning of the text that
some BNF text has.  This lies in the first line that does not read alone: a line that reads can be
gone on with up to its end, and past the end of one that does not there is nothing left to read.
-/

namespace Lookahead

namespace Bnf

variable {text : List UInt8}

/-! ### Lines that read alone -/

def ReadableLine (line : List UInt8) : Prop :=
  ∃ rule, ReadsLine line rule

def ReadableText (text : List UInt8) : Prop :=
  ∀ line ∈ splitLines text, ReadableLine line

theorem readableText_iff : ReadableText text ↔ ∃ rules, Reads text rules := by
  constructor
  · exact exists_forall₂_of_forall
  · rintro ⟨rules, reads⟩ line member
    obtain ⟨rule, _, here⟩ := exists_of_forall₂_left reads member
    exact ⟨rule, here⟩

theorem mem_language_iff_readableText :
    text ∈ grammar.language syntaxRule.head ↔ ReadableText text := by
  rw [Grammar.mem_language_iff, readableText_iff]
  constructor
  · rintro ⟨tree, derives⟩
    exact exists_reads_of_derives derives
  · rintro ⟨rules, reads⟩
    obtain ⟨tree, derives, _⟩ := exists_derives_of_reads reads
    exact ⟨tree, derives⟩

theorem readableText_nil : ReadableText [] := by
  intro line member
  obtain rfl := List.mem_singleton.mp member
  exact ⟨none, .blank (List.forall_mem_nil _)⟩

theorem readableText_of_cut {line rest : List UInt8}
    (cut : splitLines text = line :: splitLines rest) :
    ReadableText text ↔ ReadableLine line ∧ ReadableText rest := by
  rw [ReadableText, cut, List.forall_mem_cons]
  rfl

theorem readableText_line {line : List UInt8} (member : line ∈ splitLines text) :
    ReadableText line ↔ ReadableLine line := by
  rw [ReadableText, splitLines_of_not_mem (not_mem_of_mem_splitLines member)]
  exact List.forall_mem_singleton

theorem grammar_productive : grammar.Productive := by
  have checked : Grammar.bottomsOut grammar.rules = true := by decide +kernel
  exact Grammar.productive_of_bottomsOut checked

/-! ### The first line that does not read -/

/-- The first of the lines that do not read alone has so many lines before it. -/
def FirstFault (lines : List (List UInt8)) (number : Nat) : Prop :=
  ∃ before line after, lines = before ++ line :: after ∧ before.length = number ∧
    (∀ earlier ∈ before, ReadableLine earlier) ∧ ¬ ReadableLine line

theorem FirstFault.cons {line : List UInt8} {lines : List (List UInt8)} {number : Nat}
    (readable : ReadableLine line) (fault : FirstFault lines number) :
    FirstFault (line :: lines) (number + 1) := by
  obtain ⟨before, faulty, after, rfl, rfl, each, unreadable⟩ := fault
  exact ⟨line :: before, faulty, after, rfl, rfl, List.forall_mem_cons.mpr ⟨readable, each⟩,
    unreadable⟩

theorem firstFault_zero {line : List UInt8} {lines : List (List UInt8)}
    (unreadable : ¬ ReadableLine line) : FirstFault (line :: lines) 0 :=
  ⟨[], line, lines, rfl, rfl, List.forall_mem_nil _, unreadable⟩

/-- The place is where the longest beginning of the text ends that a readable text has. -/
structure Breaks (text : List UInt8) (place : Nat) : Prop where
  within : place ≤ text.length
  alive : ∃ later, ReadableText (text.take place ++ later)
  dead : place < text.length → ∀ later, ¬ ReadableText (text.take (place + 1) ++ later)

section Cut

variable {line ending rest : List UInt8} {place : Nat}
  (cut : ∀ other, splitLines (line ++ ending ++ other) = line :: splitLines other)
include cut

theorem Breaks.before_end (breaks : Breaks (line ++ ending ++ rest) place)
    (unreadable : ¬ ReadableLine line) : place < (line ++ ending).length := by
  by_contra past
  obtain ⟨later, alive⟩ := breaks.alive
  rw [List.take_append, List.take_of_length_le (Nat.le_of_not_lt past), List.append_assoc] at alive
  exact unreadable ((readableText_of_cut (cut _)).mp alive).1

theorem Breaks.behind_end (breaks : Breaks (line ++ ending ++ rest) place)
    (readable : ReadableLine line) : (line ++ ending).length ≤ place := by
  by_contra inside
  have inside : place < (line ++ ending).length := Nat.lt_of_not_le inside
  have whole : ReadableText (line ++ ending ++ []) :=
    (readableText_of_cut (cut [])).mpr ⟨readable, readableText_nil⟩
  have short : place < (line ++ ending ++ rest).length := by
    rw [List.length_append]
    omega
  refine breaks.dead short ((line ++ ending).drop (place + 1)) ?_
  rw [List.take_append_of_le_length inside, List.take_append_drop]
  simpa using whole

theorem Breaks.later (readable : ReadableLine line)
    (breaks : Breaks (line ++ ending ++ rest) ((line ++ ending).length + place)) :
    Breaks rest place := by
  have reads (other : List UInt8) :
      ReadableText (line ++ ending ++ other) ↔ ReadableText other := by
    rw [readableText_of_cut (cut other), and_iff_right readable]
  have lengths : (line ++ ending ++ rest).length = (line ++ ending).length + rest.length :=
    List.length_append
  obtain ⟨within, ⟨later, alive⟩, dead⟩ := breaks
  refine ⟨by omega, ⟨later, ?_⟩, fun short other goesOn => ?_⟩
  · rw [List.take_length_add_append, List.append_assoc] at alive
    exact (reads _).mp alive
  · refine dead (by omega) other ?_
    rw [Nat.add_assoc, List.take_length_add_append, List.append_assoc]
    exact (reads _).mpr goesOn

end Cut

theorem Breaks.firstFault {place : Nat} (breaks : Breaks text place)
    (faulty : ¬ ReadableText text) :
    FirstFault (splitLines text) ((text.take place).count 10) := by
  -- The place is in the first line if that does not read, and else behind its end.
  induction text using lines_induction generalizing place with
  | last text without whole =>
      have none : (text.take place).count 10 = 0 :=
        List.count_eq_zero.mpr fun member => without (List.mem_of_mem_take member)
      rw [whole, none]
      refine firstFault_zero fun readable => faulty ?_
      rw [ReadableText, whole]
      exact List.forall_mem_singleton.mpr readable
  | more line ending rest ends without cut ih =>
      rw [cut]
      obtain ⟨lead, rfl, leadWithout⟩ := ends.exists_lead
      by_cases readable : ReadableLine line
      · obtain ⟨later, rfl⟩ := Nat.exists_eq_add_of_le (breaks.behind_end cut readable)
        have restFaulty : ¬ ReadableText rest := fun reads =>
          faulty ((readableText_of_cut (cut rest)).mpr ⟨readable, reads⟩)
        have feeds : (line ++ (lead ++ [10])).count 10 = 1 := by
          simp [List.count_eq_zero.mpr without, List.count_eq_zero.mpr leadWithout]
        rw [List.take_length_add_append, List.count_append, feeds, Nat.add_comm]
        exact (ih (breaks.later cut readable) restFaulty).cons readable
      · -- The line feed is the last byte of the line end, so none is in front of the place.
        have early := breaks.before_end cut readable
        have unended : 10 ∉ line ++ lead := fun member =>
          (List.mem_append.mp member).elim without leadWithout
        rw [← List.append_assoc, List.length_append, List.length_singleton] at early
        have none : ((line ++ (lead ++ [10]) ++ rest).take place).count 10 = 0 := by
          rw [← List.append_assoc line, List.append_assoc (line ++ lead),
            List.take_append_of_le_length (Nat.le_of_lt_succ early), List.count_eq_zero]
          exact fun member => unended (List.mem_of_mem_take member)
        rw [none]
        exact firstFault_zero readable

/-! ### Lines as texts of their own -/

theorem exists_lines_of_chars (chars : List Char) :
    ∃ lines : List (List Char), lines.map (·.flatMap String.utf8EncodeChar) =
      splitLines (chars.flatMap String.utf8EncodeChar) := by
  induction chars with
  | nil => exact ⟨[[]], rfl⟩
  | cons char chars ih =>
      obtain ⟨lines, same⟩ := ih
      obtain ⟨line, others, rfl⟩ : ∃ line others, lines = line :: others := by
        refine List.exists_cons_of_ne_nil fun none => ?_
        exact splitLines_ne_nil (chars.flatMap String.utf8EncodeChar) (by rw [← same, none]; rfl)
      rw [List.map_cons] at same
      rw [List.flatMap_cons]
      by_cases fed : char = '\n'
      · subst fed
        refine ⟨[] :: line :: others, ?_⟩
        rw [List.map_cons, List.map_cons, same]
        rfl
      by_cases returned : char = '\r'
      · subst returned
        -- A carriage return before a line feed goes with it.
        by_cases ends : ∃ later, chars.flatMap String.utf8EncodeChar = 10 :: later
        · obtain ⟨later, laterIs⟩ := ends
          refine ⟨line :: others, ?_⟩
          rw [List.map_cons, same, laterIs]
          rfl
        · refine ⟨('\r' :: line) :: others, ?_⟩
          exact (splitLines_cons (by decide) (fun _ later starts => ends ⟨later, starts⟩)
            same.symm).symm
      · refine ⟨(char :: line) :: others, ?_⟩
        rw [List.map_cons, List.flatMap_cons]
        refine (splitLines_append_of_not_mem (fun member => fed ?_) (fun member => returned ?_)
          same.symm).symm
        · exact (eq_of_mem_utf8EncodeChar (by decide) member).symm
        · exact (eq_of_mem_utf8EncodeChar (by decide) member).symm

theorem exists_lines (text : String) :
    ∃ lines : List String, lines.map utf8Bytes = splitLines (utf8Bytes text) := by
  obtain ⟨lines, same⟩ := exists_lines_of_chars text.toList
  refine ⟨lines.map String.ofList, ?_⟩
  rw [← utf8Bytes_ofList, String.ofList_toList] at same
  rw [← same, List.map_map]
  exact List.map_congr_left fun chars _ => utf8Bytes_ofList chars

theorem exists_breaks {result : Parser} (generated : parser = .ok result) {input : Array UInt8}
    (unreserved : endOfInputByte ∉ input.toList) (faulty : ¬ ReadableText input.toList) :
    ∃ error, result.parse input = some (.error (.parse error)) ∧
      Breaks input.toList error.position := by
  have first : grammar.startRule? = some syntaxRule := rfl
  obtain ⟨error, parsed, within, ⟨goesOn, member, later, rfl⟩, dead⟩ :=
    Parser.error_behind_longest_prefix first generated grammar_productive unreserved
      (mt mem_language_iff_readableText.mp faulty)
  refine ⟨error, parsed, within, ⟨later, mem_language_iff_readableText.mp member⟩, ?_⟩
  intro short other readable
  exact dead short _ (mem_language_iff_readableText.mpr readable) (List.prefix_append _ _)

end Bnf

namespace Grammar

open Bnf

def LoadsOrIsBlank (text : String) : Prop :=
  (∃ grammar, load text = .ok grammar) ∨ load text = .error ⟨.noRules, none⟩

theorem loadsOrIsBlank_iff {text : String} :
    LoadsOrIsBlank text ↔ ReadableText (utf8Bytes text) := by
  rw [readableText_iff, LoadsOrIsBlank, load_eq_noRules_iff]
  constructor
  · rintro (⟨grammar, loaded⟩ | ⟨rules, reads, _⟩)
    · obtain ⟨rules, reads, _⟩ := load_eq_ok_iff.mp loaded
      exact ⟨rules, reads⟩
    · exact ⟨rules, reads⟩
  · rintro ⟨rules, reads⟩
    by_cases none : rules.reduceOption = []
    · exact Or.inr ⟨rules, reads, none⟩
    · exact Or.inl ⟨_, load_eq_ok_iff.mpr ⟨rules, reads, none, rfl⟩⟩

/-- A text that is not BNF is refused with the number of the first of its lines that neither loads
nor comes out blank alone.  The offset that the lines are counted up to is inside the text. -/
theorem load_error_names_first_bad_line {text : String} {failure : LoadError}
    (unreserved : endOfInputByte ∉ utf8Bytes text) (failed : load text = .error failure)
    (kind : failure.kind = .parse) :
    ∃ parser error before line after, Bnf.parser = .ok parser ∧
      parser.parse text.toUTF8.data = some (.error (.parse error)) ∧
      error.position ≤ text.toUTF8.data.size ∧
      (before ++ line :: after).map utf8Bytes = splitLines (utf8Bytes text) ∧
      failure.detail = some ("lineno " ++ toString (before.length + 1) ++ ": " ++
        (Error.parse error).message) ∧
      (∀ earlier ∈ before, LoadsOrIsBlank earlier) ∧ ¬ LoadsOrIsBlank line := by
  have faulty : ¬ ReadableText (utf8Bytes text) := by
    rw [← loadsOrIsBlank_iff]
    rintro (⟨grammar, loaded⟩ | blank)
    · simp [failed] at loaded
    · obtain rfl := Except.error.inj (failed.symm.trans blank)
      cases kind
  obtain ⟨parser, generated⟩ := exists_ofGrammar
  obtain ⟨error, parsed, breaks⟩ := exists_breaks generated unreserved faulty
  have refused : load text = .error (parseFailure text.toUTF8.data (.parse error)) := by
    rw [load, loadBytes, generated, loadWith, parsed]
  obtain rfl := Except.error.inj (failed.symm.trans refused)
  obtain ⟨lines, linesAre⟩ := exists_lines text
  obtain ⟨before, line, after, split, number, readable, unreadable⟩ := breaks.firstFault faulty
  obtain ⟨front, back, rfl, rfl, behind⟩ := List.map_eq_append_iff.mp (linesAre.trans split)
  obtain ⟨faultyLine, rest, rfl, rfl, rfl⟩ := List.map_eq_cons_iff.mp behind
  have alone {line : String} (among : line ∈ front ++ faultyLine :: rest) :
      LoadsOrIsBlank line ↔ ReadableLine (utf8Bytes line) :=
    loadsOrIsBlank_iff.trans (readableText_line (linesAre ▸ List.mem_map_of_mem among))
  rw [List.length_map] at number
  refine ⟨parser, error, front, faultyLine, rest, generated, parsed, breaks.within, linesAre, ?_,
    fun earlier member => ?_, ?_⟩
  · rw [number]
    rfl
  · exact (alone (List.mem_append_left _ member)).mpr (readable _ (List.mem_map_of_mem member))
  · rwa [alone (List.mem_append_right front List.mem_cons_self)]

theorem unreadable_sign : ¬ ReadableLine [60, 99, 62] := by
  rintro ⟨rule, reads⟩
  generalize same : ([60, 99, 62] : List UInt8) = line at reads
  cases reads with
  | blank blank =>
      have opening := blank 60 (same ▸ List.mem_cons_self)
      simp at opening
  | @rule lead spelling _ _ spelled =>
      have sign : 58 ∈ lead ++ spelling := by
        cases spelled
        simp
      rw [← same] at sign
      simp at sign

theorem load_names_second_line :
    endOfInputByte ∉ utf8Bytes "\n<c>" ∧
      ∃ message, load "\n<c>" = .error ⟨.parse, some ("lineno 2: " ++ message)⟩ := by
  have bytes : utf8Bytes "\n<c>" = [10, 60, 99, 62] := rfl
  have unreserved : endOfInputByte ∉ utf8Bytes "\n<c>" := bytes ▸ by decide
  have unread : ¬ ∃ rules, ReadsText "\n<c>" rules := by
    intro read
    exact unreadable_sign (readableText_iff.mpr read _ (bytes ▸ by simp [splitLines]))
  obtain ⟨detail, failed⟩ := load_of_not_reads unread
  obtain ⟨_, error, before, line, after, _, _, _, lines, named, _, faulty⟩ :=
    load_error_names_first_bad_line unreserved failed rfl
  have cut : splitLines [10, 60, 99, 62] = [[], [60, 99, 62]] := rfl
  rw [bytes, cut] at lines
  cases before with
  | nil =>
      have vacant : utf8Bytes line = [] := (List.cons.inj lines).1
      exact absurd (loadsOrIsBlank_iff.mpr (vacant ▸ readableText_nil)) faulty
  | cons first before =>
      have single : before.length = 0 := by
        have count := congrArg List.length lines
        simp only [List.length_map, List.length_append, List.length_cons,
          List.length_nil] at count
        omega
      rw [List.length_cons, single] at named
      obtain rfl : detail = _ := Option.some.inj named
      exact ⟨unreserved, (Error.parse error).message, failed⟩

end Grammar

end Lookahead
