import Lookahead.Proofs.NameResolution
import Lookahead.Proofs.Preorder
import Lookahead.Tree.Text
import Mathlib.Data.List.TakeWhile

/-!
Trees as text lose nothing.  There is a line for each node, in preorder and indented by its depth,
and only the lines of literals have quotes; what stands between them, unescaped and put together,
is the input, and the input determines the tree.
-/

namespace Lookahead

/-! ### The nodes with their depths -/

namespace Tree

mutual

/-- The nodes of a tree at a depth, each before what is below it and with its own depth. -/
def outline (depth : Nat) : Tree → List (Nat × Tree)
  | node serial kind span children =>
      (depth, node serial kind span children) :: outlines (depth + 1) children

def outlines (depth : Nat) : List Tree → List (Nat × Tree)
  | [] => []
  | tree :: rest => outline depth tree ++ outlines depth rest

end

theorem outlines_eq (depth : Nat) (trees : List Tree) :
    outlines depth trees = trees.flatMap (outline depth) := by
  induction trees with
  | nil => rfl
  | cons tree rest ih => rw [outlines, ih, List.flatMap_cons]

theorem outline_eq (depth : Nat) (tree : Tree) :
    outline depth tree = (depth, tree) :: tree.children.flatMap (outline (depth + 1)) := by
  cases tree
  rw [outline, outlines_eq]
  rfl

theorem depthsOnto_eq (stack collected : List (Nat × Tree)) :
    depthsOnto stack collected =
      (stack.flatMap fun entry => outline entry.1 entry.2).reverse ++ collected := by
  fun_induction depthsOnto stack collected with
  | case1 collected => rfl
  | case2 depth tree rest collected ih =>
      rw [ih, List.flatMap_cons, outline_eq, List.flatMap_append, List.flatMap_map]
      simp

theorem nodesWithDepth_eq (tree : Tree) : tree.nodesWithDepth = outline 0 tree := by
  rw [nodesWithDepth, depthsOnto_eq]
  simp

theorem map_snd_outline (depth : Nat) (tree : Tree) :
    (outline depth tree).map Prod.snd = tree.nodes := by
  induction tree using induction_children generalizing depth with
  | inherits tree ih =>
      rw [outline_eq, nodes_eq, List.map_cons, List.map_flatMap]
      exact congrArg _ (List.flatMap_congr fun child member => ih child member _)

end Tree

/-! ### What is seen of a literal -/

def unescape (char : Char) : UInt8 :=
  if char = 't' then 9 else if char = 'n' then 10 else if char = 'r' then 13
  else UInt8.ofNat char.toNat

def readQuoted : List Char → List UInt8
  | '\\' :: char :: rest => unescape char :: readQuoted rest
  | '"' :: _ => []
  | char :: rest => UInt8.ofNat char.toNat :: readQuoted rest
  | [] => []

def shownByte (byte : UInt8) : List Char :=
  (escapeChar (Char.ofNat byte.toNat)).toList

theorem shownByte_cases {byte : UInt8} (readable : isReadableByte byte = true) :
    (∃ char, shownByte byte = ['\\', char] ∧ char ≠ '\n' ∧ unescape char = byte) ∨
      ∃ char, shownByte byte = [char] ∧ char ≠ '\\' ∧ char ≠ '"' ∧ char ≠ '\n' ∧
        UInt8.ofNat char.toNat = byte := by
  have all : ∀ byte, isReadableByte byte = true →
      (shownByte byte = ['\\', (shownByte byte).getLastD ' '] ∧
        (shownByte byte).getLastD ' ' ≠ '\n' ∧
        unescape ((shownByte byte).getLastD ' ') = byte) ∨
      (shownByte byte = [Char.ofNat byte.toNat] ∧ Char.ofNat byte.toNat ≠ '\\' ∧
        Char.ofNat byte.toNat ≠ '"' ∧ Char.ofNat byte.toNat ≠ '\n' ∧
        UInt8.ofNat (Char.ofNat byte.toNat).toNat = byte) := Bnf.forall_byte (by decide +kernel)
  rcases all byte readable with shown | shown
  · exact .inl ⟨_, shown⟩
  · exact .inr ⟨_, shown⟩

theorem readQuoted_shownByte {byte : UInt8} (readable : isReadableByte byte = true)
    (rest : List Char) : readQuoted (shownByte byte ++ rest) = byte :: readQuoted rest := by
  rcases shownByte_cases readable with ⟨char, shown, _, same⟩ | ⟨char, shown, plain, inner, _, same⟩
  · rw [shown, ← same]
    rfl
  · rw [shown, List.singleton_append, readQuoted, same]
    · exact fun _ _ same _ => plain same
    · exact inner

theorem readQuoted_shown {bytes : List UInt8}
    (readable : ∀ byte ∈ bytes, isReadableByte byte = true) (rest : List Char) :
    readQuoted (bytes.flatMap shownByte ++ '"' :: rest) = bytes := by
  induction bytes with
  | nil => rfl
  | cons byte bytes ih =>
      obtain ⟨here, later⟩ := List.forall_mem_cons.mp readable
      rw [List.flatMap_cons, List.append_assoc, readQuoted_shownByte here, ih later]

/-! ### Lines -/

structure IsWord (name : String) : Prop where
  present : name.toList ≠ []
  chars : ∀ char ∈ name.toList, isNameChar char = true

theorem ReadableName.isWord {name : String} (readable : ReadableName name) : IsWord name := by
  rw [ReadableName] at readable
  cases spelled : name.toList with
  | nil =>
      rw [spelled] at readable
      exact readable.elim
  | cons first rest =>
      rw [spelled] at readable
      refine ⟨by simp [spelled], ?_⟩
      rw [spelled, List.forall_mem_cons]
      exact ⟨by simp [isNameChar, Char.isAlphanum, readable.1], readable.2⟩

namespace Tree

/-- A node that a line can show: its name is a word, and a literal is a leaf with readable text. -/
structure Legible (names : NameMap) (input : Array UInt8) (node : Tree) : Prop where
  word : IsWord (names.nameOf node.kind)
  literal : node.kind = .literal → node.children = [] ∧
    ∃ bytes, node.text? input = some bytes ∧ ∀ byte ∈ bytes, isReadableByte byte = true

def literalText (input : Array UInt8) (node : Tree) : List UInt8 :=
  if node.kind = .literal then (node.text? input).getD [] else []

def label (names : NameMap) (input : Array UInt8) (node : Tree) : List Char :=
  (names.nameOf node.kind).toList ++ ' ' ::
    ((if node.kind = .literal then
      '"' :: (node.literalText input).flatMap shownByte ++ ['"', ' '] else []) ++
        node.span.display.toList)

def line (names : NameMap) (input : Array UInt8) (depth : Nat) (node : Tree) : List Char :=
  List.replicate (2 * depth) ' ' ++ node.label names input

variable {names : NameMap} {input : Array UInt8} {node : Tree}

theorem Legible.readable (legible : node.Legible names input) :
    ∀ byte ∈ node.literalText input, isReadableByte byte = true := by
  rw [literalText]
  split
  · rename_i literal
    obtain ⟨_, bytes, found, readable⟩ := legible.literal literal
    simpa [found] using readable
  · simp

theorem toList_quoteText {bytes : List UInt8}
    (readable : ∀ byte ∈ bytes, isReadableByte byte = true) :
    (quoteText (Utf8.decode bytes)).toList = '"' :: bytes.flatMap shownByte ++ ['"'] := by
  have small : ∀ byte, isReadableByte byte = true → byte < 0x80 :=
    Bnf.forall_byte (by decide +kernel)
  rw [quoteText, Utf8.decode_ascii bytes fun byte member => small byte (readable byte member)]
  simp only [String.toList_append, String.toList_join, List.map_map, List.flatMap_map]
  rfl

theorem Legible.displayLine?_eq (legible : node.Legible names input) (depth : Nat) :
    node.displayLine? names input depth = some (String.ofList (node.line names input depth)) := by
  by_cases literal : node.kind = .literal
  · obtain ⟨_, bytes, found, readable⟩ := legible.literal literal
    have text : node.literalText input = bytes := by simp [literalText, literal, found]
    rw [displayLine?, if_pos literal, found, Option.bind_eq_bind, Option.bind_some]
    refine congrArg some (String.toList_inj.mp ?_)
    simp [line, label, literal, text, toList_quoteText readable]
  · rw [displayLine?, if_neg literal]
    refine congrArg some (String.toList_inj.mp ?_)
    simp [line, label, literal]

theorem Legible.chars_of_word (legible : node.Legible names input) :
    ∀ char ∈ (names.nameOf node.kind).toList, char ≠ ' ' ∧ char ≠ '"' ∧ char ≠ '\n' := by
  intro char member
  have named := legible.word.chars char member
  refine ⟨?_, ?_, ?_⟩ <;> rintro rfl <;> exact absurd named (by decide)

end Tree

theorem Span.chars_of_display (span : Span) :
    ∀ char ∈ span.display.toList, char ≠ '"' ∧ char ≠ '\n' := by
  have digits (number : Nat) : ∀ char ∈ (toString number).toList, char ≠ '"' ∧ char ≠ '\n' := by
    intro char member
    rw [Nat.toString_eq_ofList_toDigits, String.toList_ofList] at member
    have digit := Nat.isDigit_of_mem_toDigits (by decide) (by decide) member
    refine ⟨?_, ?_⟩ <;> rintro rfl <;> exact absurd digit (by decide)
  simp only [display, String.toList_append, List.forall_mem_append]
  exact ⟨⟨⟨⟨by simp, digits _⟩, by simp⟩, digits _⟩, by simp⟩

theorem newline_not_mem_shown {bytes : List UInt8}
    (readable : ∀ byte ∈ bytes, isReadableByte byte = true) :
    '\n' ∉ bytes.flatMap shownByte := by
  intro member
  obtain ⟨byte, among, member⟩ := List.mem_flatMap.mp member
  rcases shownByte_cases (readable byte among) with ⟨char, shown, other, _⟩ |
    ⟨char, shown, _, _, other, _⟩
  · simp [shown, other.symm] at member
  · simp [shown, other.symm] at member

def readLiteral (line : List Char) : List UInt8 :=
  readQuoted ((line.dropWhile (· != '"')).drop 1)

namespace Tree

variable {names : NameMap} {input : Array UInt8} {node : Tree}

theorem Legible.head_label (legible : node.Legible names input) :
    ∃ first rest, node.label names input = first :: rest ∧ first ≠ ' ' := by
  cases spelled : (names.nameOf node.kind).toList with
  | nil => exact absurd spelled legible.word.present
  | cons first rest =>
      refine ⟨first, _, by rw [label, spelled, List.cons_append], ?_⟩
      exact (legible.chars_of_word first (spelled ▸ List.mem_cons_self)).1

theorem Legible.newline_not_mem_line (legible : node.Legible names input) (depth : Nat) :
    '\n' ∉ node.line names input depth := by
  have word : '\n' ∉ (names.nameOf node.kind).toList := fun member =>
    (legible.chars_of_word _ member).2.2 rfl
  have span : '\n' ∉ node.span.display.toList := fun member =>
    (node.span.chars_of_display _ member).2 rfl
  have text := newline_not_mem_shown legible.readable
  simp only [line, label, List.mem_append, List.mem_replicate, List.mem_cons, not_or]
  refine ⟨by simp, word, by decide, ?_, span⟩
  split
  · simpa using text
  · exact List.not_mem_nil

theorem Legible.readLiteral_line (legible : node.Legible names input) (depth : Nat) :
    readLiteral (node.line names input depth) = node.literalText input := by
  have front : ∀ char ∈ List.replicate (2 * depth) ' ' ++ (names.nameOf node.kind).toList ++ [' '],
      (char != '"') = true := by
    rw [List.forall_mem_append, List.forall_mem_append]
    refine ⟨⟨fun char member => ?_, fun char member => ?_⟩, by simp⟩
    · rw [List.eq_of_mem_replicate member]
      decide
    · exact bne_iff_ne.mpr (legible.chars_of_word char member).2.1
  have split : node.line names input depth =
      List.replicate (2 * depth) ' ' ++ (names.nameOf node.kind).toList ++ [' '] ++
        ((if node.kind = .literal then
          '"' :: (node.literalText input).flatMap shownByte ++ ['"', ' '] else []) ++
          node.span.display.toList) := by
    simp [line, label]
  rw [readLiteral, split, List.dropWhile_append_of_pos front]
  by_cases literal : node.kind = .literal
  · rw [if_pos literal, List.append_assoc, List.cons_append,
      List.dropWhile_cons_of_neg (by decide), List.drop_one, List.tail_cons]
    exact readQuoted_shown legible.readable _
  · have none : node.span.display.toList.dropWhile (· != '"') = [] :=
      List.dropWhile_eq_nil_iff.mpr fun char member =>
        bne_iff_ne.mpr (node.span.chars_of_display char member).1
    rw [if_neg literal, List.nil_append, none, literalText, if_neg literal]
    rfl

end Tree

/-! ### Dumps -/

theorem mapM_eq_some_map {α β : Type} {convert : α → Option β} {result : α → β} {items : List α}
    (each : ∀ item ∈ items, convert item = some (result item)) :
    items.mapM convert = some (items.map result) := by
  induction items with
  | nil => rfl
  | cons item rest ih =>
      obtain ⟨here, later⟩ := List.forall_mem_cons.mp each
      simp [List.mapM_cons, here, ih later]

theorem flatMap_filter_eq {α β : Type} {keep : α → Bool} {parts : α → List β} {items : List α}
    (rest : ∀ item ∈ items, ¬ keep item → parts item = []) :
    (items.filter keep).flatMap parts = items.flatMap parts := by
  induction items with
  | nil => rfl
  | cons item items ih =>
      obtain ⟨here, later⟩ := List.forall_mem_cons.mp rest
      by_cases kept : keep item = true
      · simp [kept, ih later]
      · simp [kept, here kept, ih later]

def dumpLines (dump : String) : List (List Char) :=
  dump.toList.splitOn '\n'

def readInput (dump : String) : List UInt8 :=
  (dumpLines dump).flatMap readLiteral

namespace ParseTree

variable {names : NameMap} {input : Array UInt8} {tree : ParseTree}
  (legible : ∀ node ∈ tree.root.nodes, node.Legible names input)
include legible

/-- The lines of a dump are those of the nodes. -/
theorem exists_display? : ∃ dump, tree.display? names input = some dump ∧
    dumpLines dump =
      (Tree.outline 0 tree.root).map fun entry => entry.2.line names input entry.1 := by
  have inside (entry : Nat × Tree) (member : entry ∈ Tree.outline 0 tree.root) :
      entry.2.Legible names input := by
    refine legible _ ?_
    rw [← Tree.map_snd_outline 0]
    exact List.mem_map_of_mem member
  have lines := mapM_eq_some_map fun entry member =>
    (inside entry member).displayLine?_eq entry.1
  refine ⟨_, by rw [display?, Tree.nodesWithDepth_eq, lines]; rfl, ?_⟩
  rw [dumpLines, String.toList_intercalate, List.map_map]
  refine (List.splitOn_intercalate '\n' ?_ ?_).trans (List.map_congr_left ?_)
  · intro line member
    obtain ⟨entry, among, rfl⟩ := List.mem_map.mp member
    simpa using (inside entry among).newline_not_mem_line entry.1
  · simp [Tree.outline_eq]
  · simp

theorem flatMap_literalText {text : List UInt8}
    (spelled : Tree.spelling input [tree.root] = some text) :
    tree.root.nodes.flatMap (Tree.literalText input) = text := by
  have literals : tree.root.literals = tree.root.nodes.filter fun node => node.kind = .literal := by
    rw [Tree.literals, Tree.leaves_eq_filter, List.filter_filter]
    refine List.filter_congr fun node inside => ?_
    by_cases literal : node.kind = .literal
    · simp [literal, Tree.isLeaf, ((legible node inside).literal literal).1]
    · simp [literal]
  have texts : ∀ node ∈ tree.root.literals,
      node.text? input = some (node.literalText input) := by
    intro node member
    rw [literals, List.mem_filter, decide_eq_true_iff] at member
    obtain ⟨_, bytes, found, _⟩ := (legible node member.1).literal member.2
    simp [Tree.literalText, member.2, found]
  rw [Tree.spelling, List.flatMap_singleton, mapM_eq_some_map texts, literals, Option.map_some,
    Option.some.injEq] at spelled
  rw [← spelled, ← List.flatMap_def]
  refine (flatMap_filter_eq fun node _ other => ?_).symm
  rw [Tree.literalText, if_neg (by simpa using other)]

theorem readInput_eq (spelled : Tree.spelling input [tree.root] = some input.toList)
    {dump : String} (shown : tree.display? names input = some dump) :
    readInput dump = input.toList := by
  obtain ⟨other, found, lines⟩ := exists_display? legible
  obtain rfl := Option.some.inj (found.symm.trans shown)
  rw [readInput, lines, List.flatMap_map, ← flatMap_literalText legible spelled,
    ← Tree.map_snd_outline 0, List.flatMap_map]
  refine List.flatMap_congr fun entry member => ?_
  have inside : entry.2 ∈ tree.root.nodes := by
    rw [← Tree.map_snd_outline 0]
    exact List.mem_map_of_mem member
  exact (legible _ inside).readLiteral_line entry.1

end ParseTree

/-! ### The dumps of a parser -/

theorem Derivation.span_of_depict {offset made : Nat} {derivation : Derivation} {root : Tree}
    (depicted : derivation.depict offset made = [root]) :
    root.span = ⟨offset, offset + derivation.yield.length⟩ := by
  cases derivation with
  | empty => cases depicted
  | terminal | lineFeed | carriageReturn | rule =>
      cases depicted
      rfl

namespace Parser

open NameMap

variable {grammar : Grammar} {parser : Parser} {input : Array UInt8}

section Names

variable (generated : ofGrammar grammar = .ok parser)
include generated

theorem isWord_of_builtin {builtin : NodeKind × String} (member : builtin ∈ builtins) :
    IsWord (parser.names.nameOf builtin.1) := by
  rw [nameOf_eq_of_get? ((get?_names_eq_some_iff generated).mpr (.inl member))]
  have words : ∀ builtin ∈ builtins, builtin.2.toList ≠ [] ∧
      builtin.2.toList.all isNameChar = true := by decide
  exact ⟨(words _ member).1, List.all_eq_true.mp (words _ member).2⟩

theorem isWord_of_rule (readable : grammar.Readable) {id : Nat} {rule : Rule}
    (found : grammar.rules[id]? = some rule) : IsWord (parser.names.nameOf (.rule id)) := by
  rw [nameOf_eq_of_get? (get?_rule generated found)]
  exact (readable.rules rule (List.mem_of_getElem? found)).head.isWord

theorem legible_of_shows (readable : grammar.Readable) {symbols : List Symbol} {trees : List Tree}
    (shows : grammar.Shows input symbols trees) (each : ∀ symbol ∈ symbols, symbol.Readable) :
    ∀ tree ∈ trees, ∀ node ∈ tree.nodes, node.Legible parser.names input := by
  have inner {serial : Nat} {kind : NodeKind} {span : Span} {children : List Tree}
      (word : IsWord (parser.names.nameOf kind)) (other : kind ≠ .literal)
      (below : ∀ tree ∈ children, ∀ node ∈ tree.nodes, node.Legible parser.names input) :
      ∀ node ∈ (Tree.node serial kind span children).nodes,
        node.Legible parser.names input := by
    intro node inside
    rw [Tree.nodes_eq, List.mem_cons] at inside
    rcases inside with rfl | inside
    · exact ⟨word, fun literal => absurd literal other⟩
    · obtain ⟨child, among, inside⟩ := List.mem_flatMap.mp inside
      exact below child among node inside
  induction shows with
  | nil => exact List.forall_mem_nil _
  | @terminal symbols trees bytes serial span found _ ih =>
      obtain ⟨here, later⟩ := List.forall_mem_cons.mp each
      refine List.forall_mem_cons.mpr ⟨fun node inside => ?_, ih later⟩
      rw [Tree.nodes_eq, List.mem_cons] at inside
      rcases inside with rfl | below
      · exact ⟨isWord_of_builtin generated List.mem_cons_self,
          fun _ => ⟨rfl, bytes, found, here.2⟩⟩
      · simp [Tree.children] at below
  | lineFeed _ _ _ innerIh ih =>
      refine List.forall_mem_cons.mpr ⟨?_, ih (List.forall_mem_cons.mp each).2⟩
      exact inner (isWord_of_builtin generated (.tail _ (.head _))) (by simp)
        (innerIh (by decide))
  | carriageReturn _ _ _ innerIh ih =>
      refine List.forall_mem_cons.mpr ⟨?_, ih (List.forall_mem_cons.mp each).2⟩
      exact inner (isWord_of_builtin generated (.tail _ (.head _))) (by simp)
        (innerIh (by decide))
  | empty found _ _ ih =>
      refine List.forall_mem_cons.mpr ⟨?_, ih (List.forall_mem_cons.mp each).2⟩
      refine inner (isWord_of_rule generated readable found) (by simp) ?_
      refine List.forall_mem_singleton.mpr (inner ?_ (by simp) (List.forall_mem_nil _))
      exact isWord_of_builtin generated (.tail _ (.tail _ (.head _)))
  | rule found chosen _ _ _ innerIh ih =>
      refine List.forall_mem_cons.mpr ⟨?_, ih (List.forall_mem_cons.mp each).2⟩
      have member := (readable.rules _ (List.mem_of_getElem? found)).alternatives _ chosen
      exact inner (isWord_of_rule generated readable found) (by simp) (innerIh member.2)

end Names

theorem legible_and_spelled_of_parse (readable : grammar.Readable)
    (generated : ofGrammar grammar = .ok parser) {tree : ParseTree}
    (parsed : parser.parse input = some (.ok tree)) :
    (∀ node ∈ tree.root.nodes, node.Legible parser.names input) ∧
      Tree.spelling input [tree.root] = some input.toList := by
  obtain ⟨start, rest, rules⟩ := List.exists_cons_of_ne_nil readable.present
  have first : grammar.startRule? = some start := by rw [Grammar.startRule?, rules, List.head?_cons]
  obtain ⟨derivation, derives⟩ := derives_of_parse first generated parsed
  obtain ⟨root, depicted, accepted⟩ := parse_of_derives first generated derives
  obtain rfl := Except.ok.inj (Option.some.inj (parsed.symm.trans accepted))
  obtain ⟨_, _, resolves, _⟩ := realizes_of_ofGrammar generated
  have whole : input.toList = [] ++ input.toList ++ [] := by simp
  have shows := derives.shows resolves.emptyAlone (by simp) [] [] whole 0
  have nodes : Derivation.depictAll 0 0 [derivation] = [root] := by
    simp [Derivation.depictAll, depicted]
  rw [List.length_nil, nodes] at shows
  have head := (readable.rules start (rules ▸ List.mem_cons_self)).head
  refine ⟨legible_of_shows generated readable shows (List.forall_mem_singleton.mpr head) root
    List.mem_cons_self, ?_⟩
  have tiled := (Machine.numbered_and_tiled_of_parse parsed).2
  have span : root.span = ⟨0, input.size⟩ := by
    have extent := congrArg List.length derives.yields_eq
    simp only [Derivation.yields, List.append_nil, Array.length_toList] at extent
    rw [Derivation.span_of_depict depicted, extent, Nat.zero_add]
  rw [tiled.spelling_eq (by simp [span]), Tree.text?, span]
  simp [Span.text?]

/-- A dump has one line for each node, in preorder and indented by twice its depth, and where the
indentation ends no blank stands.  The literals of the dump give the input back, so equal dumps are
of equal inputs and trees. -/
theorem dumps_lose_nothing {text : String} (loaded : Grammar.load text = .ok grammar)
    (generated : ofGrammar grammar = .ok parser) :
    (∀ input tree, parser.parse input = some (.ok tree) →
      ∃ dump, tree.display? parser.names input = some dump ∧
        dumpLines dump = (Tree.outline 0 tree.root).map
          (fun entry => entry.2.line parser.names input entry.1) ∧
        (Tree.outline 0 tree.root).map Prod.snd = tree.root.nodes ∧
        (∀ node ∈ tree.root.nodes, ∃ first rest,
          node.label parser.names input = first :: rest ∧ first ≠ ' ') ∧
        readInput dump = input.toList) ∧
    (∀ left right leftTree rightTree, parser.parse left = some (.ok leftTree) →
      parser.parse right = some (.ok rightTree) →
      leftTree.display? parser.names left = rightTree.display? parser.names right →
      left = right ∧ leftTree = rightTree) := by
  have readable := Grammar.readable_of_load loaded
  have restored {input : Array UInt8} {tree : ParseTree}
      (parsed : parser.parse input = some (.ok tree)) :
      ∃ dump, tree.display? parser.names input = some dump ∧
        dumpLines dump = (Tree.outline 0 tree.root).map
          (fun entry => entry.2.line parser.names input entry.1) ∧
        readInput dump = input.toList := by
    obtain ⟨legible, spelled⟩ := legible_and_spelled_of_parse readable generated parsed
    obtain ⟨dump, shown, lines⟩ := ParseTree.exists_display? legible
    exact ⟨dump, shown, lines, ParseTree.readInput_eq legible spelled shown⟩
  constructor
  · intro input tree parsed
    obtain ⟨dump, shown, lines, input⟩ := restored parsed
    obtain ⟨legible, _⟩ := legible_and_spelled_of_parse readable generated parsed
    exact ⟨dump, shown, lines, Tree.map_snd_outline 0 _,
      fun node inside => (legible node inside).head_label, input⟩
  · intro left right leftTree rightTree leftParsed rightParsed same
    -- The dump gives the input, and the input has one tree.
    obtain ⟨dump, leftShown, _, leftInput⟩ := restored leftParsed
    obtain ⟨other, rightShown, _, rightInput⟩ := restored rightParsed
    obtain rfl := Option.some.inj (leftShown.symm.trans (same.trans rightShown))
    have inputs : left = right := Array.toList_inj.mp (leftInput.symm.trans rightInput)
    subst inputs
    exact ⟨rfl, Except.ok.inj (Option.some.inj (leftParsed.symm.trans rightParsed))⟩

def quotedLine : Grammar :=
  ⟨[⟨"line", [[.terminal [34, 92, 32], .nonTerminal "end"]]⟩,
    ⟨"end", [[.nonTerminal endOfLineName], [.empty]]⟩]⟩

def quotedLineBounds : Resolved.Bounds quotedLine.rules.length where
  nullable := .ofFn fun rule => rule.val == 1
  first := #v[ByteSet.ofList [34], ByteSet.ofList [endOfInputByte, 10, 13]]
  follow := .replicate _ (ByteSet.ofList [endOfInputByte])
  rank := .replicate _ 0

theorem exists_ofGrammar_quotedLine : ∃ parser, ofGrammar quotedLine = .ok parser := by
  have fits : quotedLineBounds.fit = true := by decide +kernel
  exact Resolved.Bounds.exists_ofGrammar fits

theorem quotedLine_dumps_differ :
    ∃ text parser, Grammar.load text = .ok quotedLine ∧ ofGrammar quotedLine = .ok parser ∧
      ∃ bare ended, parser.parse #[34, 92, 32] = some (.ok bare) ∧
        parser.parse #[34, 92, 32, 13, 10] = some (.ok ended) ∧
        bare.display? parser.names #[34, 92, 32] ≠
          ended.display? parser.names #[34, 92, 32, 13, 10] ∧
        ∃ dump, ended.display? parser.names #[34, 92, 32, 13, 10] = some dump ∧
          readInput dump = [34, 92, 32, 13, 10] := by
  have loaded := Grammar.load_render_of_readable (show quotedLine.Readable by decide)
  obtain ⟨parser, generated⟩ := exists_ofGrammar_quotedLine
  have lineRule : quotedLine.rules[0]? = some quotedLine.rules[0] := rfl
  have endRule : quotedLine.rules[1]? = some quotedLine.rules[1] := rfl
  have bare : quotedLine.Derives [.nonTerminal "line"]
      [.rule 0 [.terminal [34, 92, 32], .rule 1 [.empty]]] [34, 92, 32] :=
    .rule lineRule (by decide) (.terminal _ (.rule endRule (by decide) (.empty .nil) .nil)) .nil
  have ended : quotedLine.Derives [.nonTerminal "line"]
      [.rule 0 [.terminal [34, 92, 32], .rule 1 [.carriageReturn]]] [34, 92, 32, 13, 10] :=
    .rule lineRule (by decide)
      (.terminal _ (.rule endRule (by decide) (.carriageReturn rfl .nil) .nil)) .nil
  obtain ⟨_, _, bareParsed⟩ := parse_of_derives rfl generated bare
  obtain ⟨_, _, endedParsed⟩ := parse_of_derives rfl generated ended
  obtain ⟨dumps, apart⟩ := dumps_lose_nothing loaded generated
  obtain ⟨dump, shown, _, _, _, input⟩ := dumps _ _ endedParsed
  refine ⟨_, parser, loaded, generated, _, _, bareParsed, endedParsed, fun same => ?_,
    dump, shown, input⟩
  obtain ⟨inputs, _⟩ := apart _ _ _ _ bareParsed endedParsed same
  exact absurd inputs (by decide)

end Parser

end Lookahead
