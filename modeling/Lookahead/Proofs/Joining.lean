import Lookahead.Enumeration.Grammar
import Lookahead.Proofs.Loading
import Lookahead.Proofs.Rendering

/-!
Texts of alternatives joined by bars, and lines joined by line feeds.  What each of them reads as
alone, they read as together, one after the other; lines of one rule each load as these rules.
-/

namespace Lookahead.Bnf

/-! ### Alternatives joined by bars -/

def ReadsBody (text : List UInt8) (alternatives : List Alternative) : Prop :=
  ∃ gap body, text = gap ++ body ∧ Blank gap ∧ ReadsAlternatives body alternatives

theorem ReadsAlternatives.space {text : List UInt8} {alternatives : List Alternative}
    (reads : ReadsAlternatives text alternatives) :
    ReadsAlternatives (text ++ [32]) alternatives := by
  induction reads with
  | last reads => exact .last reads.space
  | cons reads blank _ ih =>
      rw [List.append_assoc]
      exact .cons reads blank ih

theorem ReadsAlternatives.append {left gap right : List UInt8}
    {alternatives others : List Alternative} (reads : ReadsAlternatives left alternatives)
    (blank : Blank gap) (later : ReadsAlternatives right others) :
    ReadsAlternatives (left ++ 124 :: gap ++ right) (alternatives ++ others) := by
  induction reads with
  | last reads => exact .cons reads blank later
  | cons reads between _ ih =>
      have longer := ReadsAlternatives.cons reads between ih
      simpa using longer

theorem ReadsBody.append {left right : List UInt8} {alternatives others : List Alternative}
    (reads : ReadsBody left alternatives) (later : ReadsBody right others) :
    ReadsBody (left ++ [32, 124, 32] ++ right) (alternatives ++ others) := by
  obtain ⟨gap, body, rfl, blank, readsBody⟩ := reads
  obtain ⟨laterGap, laterBody, rfl, laterBlank, readsLater⟩ := later
  have wider : Blank (32 :: laterGap) := List.forall_mem_cons.mpr ⟨rfl, laterBlank⟩
  refine ⟨gap, _, ?_, blank, readsBody.space.append wider readsLater⟩
  simp

theorem readsBody_intercalate {texts : List String} {parts : List (List Alternative)}
    (present : texts ≠ [])
    (reads : List.Forall₂ (fun text alternatives => ReadsBody (utf8Bytes text) alternatives)
      texts parts) :
    ReadsBody (utf8Bytes (" | ".intercalate texts)) parts.flatten := by
  induction reads with
  | nil => exact absurd rfl present
  | cons here later ih =>
      cases later with
      | nil => simpa using here
      | cons next others =>
          have bar : utf8Bytes " | " = [32, 124, 32] := rfl
          rw [String.intercalate_cons_cons, utf8Bytes_append, utf8Bytes_append, bar,
            List.flatten_cons]
          exact here.append (ih (List.cons_ne_nil _ _))

/-! ### Lines joined by line feeds -/

theorem readsText_intercalate {lines : List String} {rules : List (Option Rule)}
    (present : lines ≠ [])
    (reads : List.Forall₂ (fun line rule => ReadsLine (utf8Bytes line) rule) lines rules) :
    ReadsText ("\n".intercalate lines) rules := by
  induction reads with
  | nil => exact absurd rfl present
  | cons here later ih =>
      cases later with
      | nil => simpa [ReadsText] using reads_line here
      | cons next others =>
          have feed : IsLineEnd (utf8Bytes "\n") := Or.inl rfl
          have joined := Reads.cons here feed (ih (List.cons_ne_nil _ _))
          rw [ReadsText, String.intercalate_cons_cons, utf8Bytes_append, utf8Bytes_append]
          exact joined

/-- Lines that read as one rule each load together as these rules. -/
theorem load_intercalate {lines : List String} {rules : List Rule} (present : lines ≠ [])
    (reads : List.Forall₂ (fun line rule => ReadsLine (utf8Bytes line) (some rule)) lines rules) :
    Grammar.load ("\n".intercalate lines) = .ok ⟨rules⟩ := by
  have text : ReadsText ("\n".intercalate lines) (rules.map some) := by
    refine readsText_intercalate present ?_
    rw [List.forall₂_map_right_iff]
    exact reads
  have same : (rules.map some).reduceOption = rules := by
    simp [List.reduceOption]
  refine Grammar.load_eq_ok_iff.mpr ⟨_, text, ?_, by rw [same]⟩
  rw [same]
  rintro rfl
  exact present (List.forall₂_nil_right_iff.mp reads)

def columnLine (column : Nat) (rule : Rule) : String :=
  bracketed rule.head ++ String.ofList (List.replicate (column - (rule.head.length + 2)) ' ') ++
    "::= " ++ " | ".intercalate (rule.alternatives.map Alternative.render)

theorem readsLine_column {rule : Rule} (readable : rule.Readable) (column : Nat) :
    ReadsLine (utf8Bytes (columnLine column rule)) (some rule) := by
  obtain ⟨spelled, same⟩ := utf8Bytes_readableName readable.head
  have body := reads_alternatives readable.present readable.alternatives
  rw [columnLine]
  generalize column - (rule.head.length + 2) = width
  have blank : Blank (List.replicate width 32) := fun _ member => List.eq_of_mem_replicate member
  have spaces : utf8Bytes (String.ofList (List.replicate width ' ')) = List.replicate width 32 := by
    have ascii := utf8Bytes_asciiText fun byte member =>
      lt_of_isPrintable (blank.printable byte member)
    rwa [asciiText, List.map_replicate] at ascii
  have sign : utf8Bytes "::= " = [58, 58, 61, 32] := rfl
  have reads := ReadsRule.mk spelled blank blank_space body
  rw [same] at reads
  simpa [utf8Bytes_append, utf8Bytes_bracketed, spaces, sign] using
    ReadsLine.rule (List.forall_mem_nil _) reads

theorem load_columnLines {rules : List Rule} (column : Nat) (present : rules ≠ [])
    (readable : ∀ rule ∈ rules, rule.Readable) :
    Grammar.load ("\n".intercalate (rules.map (columnLine column) ++ [""])) = .ok ⟨rules⟩ := by
  have each : List.Forall₂ (fun line rule => ReadsLine (utf8Bytes line) rule)
      (rules.map (columnLine column)) (rules.map some) := by
    rw [List.forall₂_map_left_iff, List.forall₂_map_right_iff, List.forall₂_same]
    exact fun rule member => readsLine_column (readable rule member) column
  have last : ReadsLine (utf8Bytes "") none := .blank (List.forall_mem_nil _)
  have text := readsText_intercalate (by simp) (List.rel_append each (.cons last .nil))
  have same : (rules.map some ++ [none]).reduceOption = rules := by
    simp [List.reduceOption]
  exact Grammar.load_eq_ok_iff.mpr ⟨_, text, same.symm ▸ present, by rw [same]⟩

/-! ### One line -/

theorem eq_of_mem_utf8EncodeChar {char : Char} {byte : UInt8} (small : byte < 0x80)
    (member : byte ∈ String.utf8EncodeChar char) : Char.ofNat byte.toNat = char := by
  have bound : byte.toNat < 128 := UInt8.lt_iff_toNat_lt.mp small
  simp only [String.utf8EncodeChar] at member
  split at member
  · rename_i ascii
    obtain rfl := List.mem_singleton.mp member
    have code : (UInt8.ofNat char.val.toNat).toNat = char.toNat :=
      UInt8.toNat_ofNat_of_lt' (by change _ < 256; omega)
    rw [code, Char.ofNat_toNat]
  · -- Every byte of a longer character has its highest bit set.
    split_ifs at member
    all_goals
      simp only [List.mem_cons, List.not_mem_nil, or_false, ← UInt8.toNat_inj,
        UInt8.toNat_ofNat'] at member
      omega

theorem mem_of_mem_utf8Bytes {text : String} {byte : UInt8} (small : byte < 0x80)
    (member : byte ∈ utf8Bytes text) : Char.ofNat byte.toNat ∈ text.toList := by
  rw [← String.ofList_toList (s := text), utf8Bytes_ofList] at member
  obtain ⟨char, among, encodes⟩ := List.mem_flatMap.mp member
  rwa [eq_of_mem_utf8EncodeChar small encodes]

theorem readableName_of_isName {name : String} (spelled : IsName (utf8Bytes name)) :
    asciiText (utf8Bytes name) = name ∧ ReadableName name := by
  have bytes := utf8Bytes_asciiText fun byte member =>
    lt_of_isNameByte (spelled.isNameByte byte member)
  have same : asciiText (utf8Bytes name) = name :=
    String.toByteArray_inj.mp (ByteArray.ext (Array.toList_inj.mp bytes))
  exact ⟨same, readableName_iff.mpr ⟨_, spelled, same⟩⟩

theorem append_cons_inj {byte : UInt8} {left right leftRest rightRest : List UInt8}
    (leftFree : byte ∉ left) (rightFree : byte ∉ right)
    (same : left ++ byte :: leftRest = right ++ byte :: rightRest) :
    left = right ∧ leftRest = rightRest := by
  rcases List.append_eq_append_iff.mp same with ⟨between, rfl, rest⟩ | ⟨between, rfl, rest⟩
  all_goals
    cases between with
    | nil => simp_all
    | cons first others =>
        obtain ⟨rfl, _⟩ := List.cons.inj rest
        simp at leftFree rightFree

theorem IsName.not_mem_bracket {name : List UInt8} (spelled : IsName name) : 62 ∉ name :=
  fun member => absurd (spelled.isNameByte 62 member) (by decide)

theorem Blank.not_mem {gap : List UInt8} {byte : UInt8} (blank : Blank gap) (other : byte ≠ 32) :
    byte ∉ gap :=
  fun member => other (blank byte member)

theorem ReadsAlternatives.exists_cons {text : List UInt8} {alternatives : List Alternative}
    (reads : ReadsAlternatives text alternatives) :
    ∃ first rest, text = first :: rest ∧ first ≠ 32 := by
  cases reads with
  | last reads | cons reads =>
      cases reads with
      | last reads | cons reads =>
          cases reads with
          | name => exact ⟨60, _, rfl, by decide⟩
          | quoted either =>
              refine ⟨_, _, rfl, ?_⟩
              rcases either with rfl | rfl
              all_goals decide

theorem ReadsLine.of_bracket {tail : List UInt8} {rule : Option Rule}
    (reads : ReadsLine (60 :: tail) rule) :
    ∃ read, rule = some read ∧ ReadsRule (60 :: tail) read := by
  generalize spelled : 60 :: tail = line at reads
  cases reads with
  | blank blank =>
      subst spelled
      exact absurd (blank 60 List.mem_cons_self) (by decide)
  | @rule lead text read blank reads =>
      cases lead with
      | nil => exact ⟨read, rfl, reads⟩
      | cons first others =>
          obtain ⟨rfl, _⟩ := List.cons.inj spelled
          exact absurd (blank 60 List.mem_cons_self) (by decide)

theorem ReadsRule.exists_name {text : List UInt8} {rule : Rule} (reads : ReadsRule text rule) :
    ∃ name before after body,
      text = 60 :: (name ++ 62 :: (before ++ 58 :: 58 :: 61 :: (after ++ body))) ∧ IsName name ∧
        Blank before ∧ Blank after ∧ ReadsAlternatives body rule.alternatives ∧
          rule.head = asciiText name := by
  obtain ⟨spelled, before, after, body⟩ := reads
  exact ⟨_, _, _, _, by simp, spelled, before, after, body, rfl⟩

theorem readsLine_rule {name text : List UInt8} {alternatives : List Alternative}
    (spelled : IsName name) (reads : ReadsBody text alternatives) :
    ReadsLine (60 :: name ++ 62 :: ([32, 58, 58, 61, 32] ++ text))
      (some ⟨asciiText name, alternatives⟩) := by
  obtain ⟨gap, body, rfl, blank, readsBody⟩ := reads
  have wider : Blank (32 :: gap) := List.forall_mem_cons.mpr ⟨rfl, blank⟩
  have rule := ReadsRule.mk spelled blank_space wider readsBody
  simpa using ReadsLine.rule (List.forall_mem_nil _) rule

theorem ReadsLine.exists_body {name text : List UInt8} {rule : Option Rule} (unclosed : 62 ∉ name)
    (reads : ReadsLine (60 :: name ++ 62 :: ([32, 58, 58, 61, 32] ++ text)) rule) :
    ∃ alternatives, IsName name ∧ ReadsBody text alternatives ∧
      rule = some ⟨asciiText name, alternatives⟩ := by
  obtain ⟨⟨head, alternatives⟩, rfl, readsRule⟩ := ReadsLine.of_bracket reads
  obtain ⟨_, before, after, body, same, spelled, blankBefore, blankAfter, readsBody, rfl⟩ :=
    readsRule.exists_name
  obtain ⟨rfl, signs⟩ := append_cons_inj unclosed spelled.not_mem_bracket
    (by simpa using (List.cons.inj same).2)
  refine ⟨alternatives, spelled, ?_, rfl⟩
  have unsigned : 58 ∉ [(32 : UInt8)] := by decide
  obtain ⟨_, tail⟩ := append_cons_inj unsigned (blankBefore.not_mem (by decide)) signs
  have behind : 32 :: text = after ++ body := by simpa using tail
  cases after with
  | nil =>
      obtain ⟨first, rest, rfl, visible⟩ := readsBody.exists_cons
      exact absurd (List.cons.inj behind).1.symm visible
  | cons first gap =>
      obtain ⟨rfl, rfl⟩ := List.cons.inj behind
      exact ⟨gap, body, rfl, (List.forall_mem_cons.mp blankAfter).2, readsBody⟩

/-- A text that begins with a bracket is a single line if nothing behind the next bracket breaks
it: the first line holds that bracket, since its rule has a name. -/
theorem Reads.of_bracket {name rest : List UInt8} {rules : List (Option Rule)}
    (unclosed : 62 ∉ name) (unbroken : 10 ∉ rest) (reads : Reads (60 :: name ++ 62 :: rest) rules) :
    ∃ rule, rules = [rule] ∧ ReadsLine (60 :: name ++ 62 :: rest) rule := by
  rcases splitLines_cases (60 :: name ++ 62 :: rest) with
    whole | ⟨line, ending, later, ends, same, cut⟩
  · rw [Reads, whole] at reads
    obtain ⟨rule, none, here, last, rfl⟩ := List.forall₂_cons_left_iff.mp reads
    obtain rfl := List.forall₂_nil_left_iff.mp last
    exact ⟨rule, rfl, here⟩
  · rw [Reads, cut] at reads
    obtain ⟨rule, others, here, _, rfl⟩ := List.forall₂_cons_left_iff.mp reads
    have breaks : 10 ∈ ending := by
      rcases ends with rfl | rfl
      all_goals simp
    cases line with
    | nil =>
        rcases ends with rfl | rfl
        all_goals simp at same
    | cons first tail =>
        obtain ⟨rfl, spelled⟩ := List.cons.inj same
        obtain ⟨read, rfl, readsRule⟩ := here.of_bracket
        obtain ⟨_, _, _, _, whole, named, _⟩ := readsRule.exists_name
        obtain rfl := (List.cons.inj whole).2
        obtain ⟨rfl, rfl⟩ := append_cons_inj unclosed named.not_mem_bracket (by simpa using spelled)
        simp [breaks] at unbroken

end Lookahead.Bnf
