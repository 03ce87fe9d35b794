import Lookahead.Byte.Set
import Lookahead.Proofs.Reading

/-!
Lines and their ends.  What a line spells has no line end in it, so the lines of a text are found
again where the text is cut.
-/

namespace Lookahead.Bnf

variable {text : List UInt8}

def IsLineEnd (text : List UInt8) : Prop :=
  text = [10] ∨ text = [13, 10]

theorem splitLines_ne_nil (text : List UInt8) : splitLines text ≠ [] := by
  fun_induction splitLines text with
  | case1 | case2 | case3 | case4 | case5 => simp

theorem splitLines_cons {byte : UInt8} {rest line : List UInt8} {lines : List (List UInt8)}
    (unfed : byte ≠ 10) (unreturned : byte = 13 → ∀ later, rest ≠ 10 :: later)
    (cut : splitLines rest = line :: lines) :
    splitLines (byte :: rest) = (byte :: line) :: lines := by
  rw [splitLines, cut]
  · exact unfed
  · exact fun later returned => unreturned returned later

theorem splitLines_append_of_not_mem {front rest line : List UInt8} {lines : List (List UInt8)}
    (unfed : 10 ∉ front) (unreturned : 13 ∉ front) (cut : splitLines rest = line :: lines) :
    splitLines (front ++ rest) = (front ++ line) :: lines := by
  induction front with
  | nil => exact cut
  | cons byte front ih =>
      rw [List.mem_cons, not_or] at unfed unreturned
      exact splitLines_cons (Ne.symm unfed.1)
        (fun returned => absurd returned.symm unreturned.1) (ih unfed.2 unreturned.2)

/-- A text without a line feed is one line.  Any other begins with a line and a line end that are
cut off whatever stands behind them. -/
theorem splitLines_cut (text : List UInt8) :
    (splitLines text = [text] ∧ 10 ∉ text) ∨ ∃ line ending rest, IsLineEnd ending ∧ 10 ∉ line ∧
      text = line ++ ending ++ rest ∧
      ∀ other, splitLines (line ++ ending ++ other) = line :: splitLines other := by
  fun_induction splitLines text with
  | case1 => exact Or.inl ⟨rfl, List.not_mem_nil⟩
  | case2 rest => exact Or.inr ⟨[], [10], rest, Or.inl rfl, List.not_mem_nil, rfl, fun _ => rfl⟩
  | case3 rest => exact Or.inr ⟨[], [13, 10], rest, Or.inr rfl, List.not_mem_nil, rfl, fun _ => rfl⟩
  | case4 byte rest _ _ none _ => exact absurd none (splitLines_ne_nil rest)
  | case5 byte rest unfed unreturned line lines same ih =>
      rcases ih with ⟨whole, without⟩ | ⟨first, ending, later, ends, without, rfl, cut⟩
      · obtain ⟨rfl, rfl⟩ := List.cons.inj (same.symm.trans whole)
        exact Or.inl ⟨rfl, List.not_mem_cons_of_ne_of_not_mem (Ne.symm unfed) without⟩
      · refine Or.inr ⟨byte :: first, ending, later, ends,
          List.not_mem_cons_of_ne_of_not_mem (Ne.symm unfed) without, rfl, fun other => ?_⟩
        refine splitLines_cons unfed (fun returned behind starts => ?_) (cut other)
        -- A line feed right behind the byte would be the line end, in the text as it was.
        cases first with
        | nil =>
            rcases ends with rfl | rfl
            · exact unreturned later returned rfl
            · simp at starts
        | cons next first =>
            obtain rfl := (List.cons.inj starts).1
            exact without List.mem_cons_self

theorem splitLines_cases (text : List UInt8) :
    splitLines text = [text] ∨ ∃ line ending rest, IsLineEnd ending ∧
      text = line ++ ending ++ rest ∧ splitLines text = line :: splitLines rest := by
  rcases splitLines_cut text with ⟨whole, _⟩ | ⟨line, ending, rest, ends, _, rfl, cut⟩
  · exact Or.inl whole
  · exact Or.inr ⟨line, ending, rest, ends, rfl, cut rest⟩

theorem IsLineEnd.exists_lead {ending : List UInt8} (ends : IsLineEnd ending) :
    ∃ lead, ending = lead ++ [10] ∧ 10 ∉ lead := by
  rcases ends with rfl | rfl
  · exact ⟨[], rfl, List.not_mem_nil⟩
  · exact ⟨[13], rfl, by decide⟩

theorem lines_induction {holds : List UInt8 → Prop}
    (last : ∀ text, 10 ∉ text → splitLines text = [text] → holds text)
    (more : ∀ line ending rest, IsLineEnd ending → 10 ∉ line →
      (∀ other, splitLines (line ++ ending ++ other) = line :: splitLines other) →
      holds rest → holds (line ++ ending ++ rest)) (text : List UInt8) : holds text := by
  generalize linesAre : splitLines text = lines
  induction lines generalizing text with
  | nil => exact absurd linesAre (splitLines_ne_nil text)
  | cons head lines ih =>
      rcases splitLines_cut text with ⟨whole, without⟩ |
        ⟨line, ending, rest, ends, without, rfl, cut⟩
      · exact last text without whole
      · have later := (List.cons.inj ((cut rest).symm.trans linesAre)).2
        exact more line ending rest ends without cut (ih rest later)

theorem not_mem_of_mem_splitLines {line : List UInt8} (member : line ∈ splitLines text) :
    10 ∉ line := by
  induction text using lines_induction with
  | last text without whole =>
      rw [whole, List.mem_singleton] at member
      rwa [member]
  | more first ending rest ends without cut ih =>
      rw [cut, List.mem_cons] at member
      rcases member with rfl | later
      · exact without
      · exact ih later

theorem splitLines_of_not_mem (without : 10 ∉ text) : splitLines text = [text] := by
  rcases splitLines_cut text with ⟨whole, _⟩ | ⟨line, ending, rest, ends, _, rfl, _⟩
  · exact whole
  · obtain ⟨lead, rfl, _⟩ := ends.exists_lead
    simp at without

/-! ### What a line spells -/

theorem forall_byte {holds : UInt8 → Prop} [DecidablePred holds]
    (all : (ByteSet.allBytes.all fun byte => holds byte) = true) (byte : UInt8) : holds byte :=
  of_decide_eq_true (List.all_eq_true.mp all byte (ByteSet.mem_allBytes byte))

def Printable (text : List UInt8) : Prop :=
  ∀ byte ∈ text, isPrintable byte = true

theorem printable_cons {byte : UInt8} :
    Printable (byte :: text) ↔ isPrintable byte = true ∧ Printable text :=
  List.forall_mem_cons

theorem printable_append {later : List UInt8} :
    Printable (text ++ later) ↔ Printable text ∧ Printable later :=
  List.forall_mem_append

theorem printable_nil : Printable [] :=
  List.forall_mem_nil _

theorem Blank.printable (blank : Blank text) : Printable text := by
  intro byte member
  obtain rfl := blank byte member
  rfl

theorem isPrintable_of_isNameByte {byte : UInt8} (holds : isNameByte byte = true) :
    isPrintable byte = true := by
  grind [isNameByte, isLetter, isPrintable]

theorem lt_of_isNameByte {byte : UInt8} (holds : isNameByte byte = true) : byte < 0x80 := by
  grind [isNameByte, isLetter]

theorem isNameByte_of_isLetter {byte : UInt8} (letter : isLetter byte = true) :
    isNameByte byte = true := by
  simp [isNameByte, letter]

theorem IsName.isNameByte (name : IsName text) : ∀ byte ∈ text, isNameByte byte = true := by
  cases text with
  | nil => exact absurd name (by simp [IsName])
  | cons first rest =>
      exact List.forall_mem_cons.mpr ⟨isNameByte_of_isLetter name.1, name.2⟩

theorem IsName.printable (name : IsName text) : Printable text :=
  fun byte member => isPrintable_of_isNameByte (name.isNameByte byte member)

theorem isPrintable_of_escapes {char byte : UInt8} (escaped : (char, byte) ∈ escapes) :
    isPrintable char = true := by
  have all : (escapes.all fun pair => isPrintable pair.1) = true := by decide
  exact List.all_eq_true.mp all _ escaped

theorem ReadsQuoted.printable {quote : UInt8} {bytes : List UInt8}
    (reads : ReadsQuoted quote text bytes) : Printable text := by
  induction reads with
  | nil => exact printable_nil
  | plain printable _ _ _ ih => exact printable_cons.mpr ⟨printable, ih⟩
  | escape escaped _ ih =>
      exact printable_cons.mpr ⟨rfl, printable_cons.mpr ⟨isPrintable_of_escapes escaped, ih⟩⟩

theorem ReadsTerm.printable {symbol : Symbol} (reads : ReadsTerm text symbol) :
    Printable text := by
  cases reads with
  | name name =>
      simp [printable_cons, printable_append, name.printable, printable_nil, isPrintable]
  | quoted either quoted =>
      rcases either with rfl | rfl
      all_goals
        simp [printable_cons, printable_append, quoted.printable, printable_nil, isPrintable]

theorem ReadsAlternative.printable {alternative : Alternative}
    (reads : ReadsAlternative text alternative) : Printable text := by
  induction reads with
  | last reads blank => exact printable_append.mpr ⟨reads.printable, blank.printable⟩
  | cons reads blank _ ih => simp [printable_append, reads.printable, blank.printable, ih]

theorem ReadsAlternatives.printable {alternatives : List Alternative}
    (reads : ReadsAlternatives text alternatives) : Printable text := by
  induction reads with
  | last reads => exact reads.printable
  | cons reads blank _ ih =>
      simp [printable_append, printable_cons, reads.printable, blank.printable, ih, isPrintable]

theorem ReadsRule.printable {rule : Rule} (reads : ReadsRule text rule) : Printable text := by
  obtain ⟨name, before, after, body⟩ := reads
  simp [printable_append, printable_cons, name.printable, before.printable,
    after.printable, body.printable, isPrintable]

theorem ReadsLine.printable {rule : Option Rule} (reads : ReadsLine text rule) :
    Printable text := by
  cases reads with
  | blank blank => exact blank.printable
  | rule blank reads => exact printable_append.mpr ⟨blank.printable, reads.printable⟩

theorem Printable.not_mem (printable : Printable text) {byte : UInt8}
    (unprintable : isPrintable byte = false) : byte ∉ text := by
  intro member
  simp [printable byte member] at unprintable

theorem splitLines_append {line ending : List UInt8} (printable : Printable line)
    (ends : IsLineEnd ending) (rest : List UInt8) :
    splitLines (line ++ ending ++ rest) = line :: splitLines rest := by
  have cut : splitLines (ending ++ rest) = [] :: splitLines rest := by
    rcases ends with rfl | rfl
    all_goals rfl
  have joined := splitLines_append_of_not_mem (printable.not_mem rfl) (printable.not_mem rfl) cut
  rwa [List.append_nil, ← List.append_assoc] at joined

theorem reads_line {rule : Option Rule} (reads : ReadsLine text rule) : Reads text [rule] := by
  rw [Reads, splitLines_of_not_mem (reads.printable.not_mem rfl)]
  exact .cons reads .nil

theorem Reads.cons {line ending rest : List UInt8} {rule : Option Rule}
    {rules : List (Option Rule)} (reads : ReadsLine line rule) (ends : IsLineEnd ending)
    (later : Reads rest rules) : Reads (line ++ ending ++ rest) (rule :: rules) := by
  rw [Reads, splitLines_append reads.printable ends]
  exact .cons reads later

end Lookahead.Bnf
