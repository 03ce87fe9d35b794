import Lookahead.Proofs.Correctness
import Lookahead.Proofs.JsonDocuments

/-!
The keys of JSON documents.  The collector finds the raw text of each key once, in the order of the
document, because the members among the nodes are the members of the derivation.
-/

namespace Lookahead.Json

open Lookahead.Derivation Lookahead.Grammar
open Lookahead.Symbol (nonTerminal)

mutual

/-- The texts between the quotes of the keys in a derivation.  A member is derived by the fifth
rule and begins with its key. -/
def treeKeys : Derivation → List (List UInt8)
  | .rule id children =>
      (if id = 4 then [((children.head?.map yield).getD []).tail.dropLast] else []) ++
        treesKeys children
  | .terminal _ | .empty | .lineFeed | .carriageReturn => []

def treesKeys : List Derivation → List (List UInt8)
  | [] => []
  | tree :: rest => treeKeys tree ++ treesKeys rest

end

theorem treesKeys_append (left right : List Derivation) :
    treesKeys (left ++ right) = treesKeys left ++ treesKeys right := by
  induction left with
  | nil => rfl
  | cons tree rest ih => simp [treesKeys, ih]

/-! ### Prints are derived with their keys -/

def Yields (symbols : List Symbol) (text : List UInt8) (keys : List (List UInt8)) : Prop :=
  ∃ trees, grammar.Derives symbols trees text ∧ treesKeys trees = keys

section

variable {symbols : List Symbol} {text : List UInt8} {keys : List (List UInt8)}

theorem Yields.append {more : List Symbol} {later : List UInt8} {others : List (List UInt8)}
    (one : Yields symbols text keys) (two : Yields more later others) :
    Yields (symbols ++ more) (text ++ later) (keys ++ others) := by
  obtain ⟨trees, derives, rfl⟩ := one
  obtain ⟨rest, restDerives, rfl⟩ := two
  exact ⟨_, derives.append restDerives, treesKeys_append trees rest⟩

theorem yields_terminal (bytes : List UInt8) : Yields [.terminal bytes] bytes [] :=
  ⟨_, derives_terminal bytes, rfl⟩

theorem yields_empty : Yields [.empty] [] [] :=
  ⟨_, .empty .nil, rfl⟩

theorem yields_lineFeed : Yields [nonTerminal endOfLineName] [10] [] :=
  ⟨_, .lineFeed endOfLine_builtin .nil, rfl⟩

theorem yields_carriageReturn : Yields [nonTerminal endOfLineName] [13, 10] [] :=
  ⟨_, .carriageReturn endOfLine_builtin .nil, rfl⟩

theorem Yields.rule {alternative : Alternative} (inner : Yields alternative text keys) (id : Nat)
    (rule : Rule) (found : grammar.rules[id]? = some rule)
    (chosen : alternative ∈ rule.alternatives ∧ id ≠ 4) :
    Yields [nonTerminal rule.head] text keys := by
  obtain ⟨trees, derives, rfl⟩ := inner
  exact ⟨_, derives.of_alternative found chosen.1, by simp [treesKeys, treeKeys, chosen.2]⟩

theorem yields_oneOf (id : Nat) {head : String} {members : List Char} {byte : UInt8}
    (found : grammar.rules[id]? = some (Bnf.oneOf head members)) (other : id ≠ 4)
    (member : byte ∈ Bnf.codes members) : Yields [nonTerminal head] [byte] [] :=
  (yields_terminal [byte]).rule id _ found ⟨mem_oneOf_iff.mpr ⟨byte, member, rfl⟩, other⟩

theorem Space.yields (space : Space text) : Yields [nonTerminal "ws"] text [] := by
  induction space with
  | nil => exact yields_empty.rule 20 spaceRule rfl (by simp [spaceRule])
  | blank _ ih =>
      exact ((yields_terminal [32]).append ih).rule 20 spaceRule rfl (by simp [spaceRule])
  | tab _ ih =>
      exact ((yields_terminal [9]).append ih).rule 20 spaceRule rfl (by simp [spaceRule])
  | lineFeed _ ih =>
      exact (yields_lineFeed.append ih).rule 20 spaceRule rfl (by simp [spaceRule])
  | carriageReturn _ ih =>
      exact (yields_carriageReturn.append ih).rule 20 spaceRule rfl (by simp [spaceRule])

/-! ### Strings and numbers -/

theorem yields_digit (digit : Fin 10) : Yields [nonTerminal "digit"] [digitByte digit] [] :=
  yields_oneOf 17 rfl (by decide) (mem_digits_iff.mpr ⟨digit, rfl⟩)

theorem yields_character (character : Character) :
    Yields [nonTerminal "char"] character.bytes [] := by
  cases character with
  | plain byte itself =>
      rcases isPlain_iff.mp itself with letter | digit | punctuation
      · exact (yields_oneOf 18 rfl (by decide) letter).rule 11 charRule rfl (by simp [charRule])
      · exact (yields_oneOf 17 rfl (by decide) digit).rule 11 charRule rfl (by simp [charRule])
      · exact (yields_oneOf 19 rfl (by decide) punctuation).rule 11 charRule rfl
          (by simp [charRule])
  | escaped byte listed =>
      have escape : Yields [nonTerminal "escape"] [byte] [] :=
        yields_oneOf 12 rfl (by decide) listed
      exact ((yields_terminal [92]).append escape).rule 11 charRule rfl (by simp [charRule])

theorem yields_characters (characters : List Character) :
    Yields [nonTerminal "chars"] (rawText characters) [] := by
  induction characters with
  | nil => exact yields_empty.rule 10 charsRule rfl (by simp [charsRule])
  | cons character rest ih =>
      exact ((yields_character character).append ih).rule 10 charsRule rfl (by simp [charsRule])

theorem yields_quoted (characters : List Character) :
    Yields [nonTerminal "string"] (quoted characters) [] :=
  ((yields_terminal [34]).append ((yields_characters characters).append
    (yields_terminal [34]))).rule 9 stringRule rfl (by simp [stringRule])

theorem yields_digits (digits : List (Fin 10)) :
    Yields [nonTerminal "digits"] (digits.map digitByte) [] := by
  induction digits with
  | nil => exact yields_empty.rule 15 digitsRule rfl (by simp [digitsRule])
  | cons digit rest ih =>
      exact ((yields_digit digit).append ih).rule 15 digitsRule rfl (by simp [digitsRule])

theorem yields_numeral (numeral : Numeral) :
    Yields [nonTerminal "digit", nonTerminal "digits"] numeral.bytes [] :=
  (yields_digit numeral.first).append (yields_digits numeral.rest)

theorem yields_sign (negative : Bool) : Yields [nonTerminal "sign"] (signBytes negative) [] := by
  cases negative with
  | false => exact yields_empty.rule 14 signRule rfl (by simp [signRule])
  | true => exact (yields_terminal [45]).rule 14 signRule rfl (by simp [signRule])

theorem yields_fraction (fraction : Option Numeral) :
    Yields [nonTerminal "fraction"] (fractionBytes fraction) [] := by
  cases fraction with
  | none => exact yields_empty.rule 16 fractionRule rfl (by simp [fractionRule])
  | some numeral =>
      exact ((yields_terminal [46]).append (yields_numeral numeral)).rule 16 fractionRule rfl
        (by simp [fractionRule])

theorem yields_number (number : Number) : Yields [nonTerminal "number"] number.bytes [] :=
  (((yields_sign number.negative).append (yields_numeral number.whole)).append
    (yields_fraction number.fraction)).rule 13 numberRule rfl (by simp [numberRule])

/-! ### Values -/

theorem yields_member {key : List Character}
    (later : Yields [nonTerminal "ws", .terminal [58], nonTerminal "ws", nonTerminal "value"] text
      keys) :
    Yields [nonTerminal "member"] (quoted key ++ text) (rawText key :: keys) := by
  obtain ⟨trees, derives, none⟩ := yields_quoted key
  obtain ⟨rest, restDerives, rfl⟩ := later
  obtain ⟨tree, others, inner, after, rfl, same, here, ends⟩ := derives_cons_iff.mp derives
  obtain ⟨rfl, rfl⟩ := derives_nil_iff.mp ends
  rw [List.append_nil] at same
  have spelled : tree.yield = quoted key := by
    simpa [yields, ← same] using here.yields_eq
  refine ⟨_, (derives.append restDerives).of_alternative (show grammar.rules[4]? = some memberRule
    from rfl) (by simp [memberRule]), ?_⟩
  simp only [treesKeys, List.append_nil] at none
  simp [treesKeys, treeKeys, none, spelled, quoted]

mutual

theorem Value.Prints.yields {value : Value} {text : List UInt8} (prints : value.Prints text) :
    Yields [nonTerminal "value"] text (value.keys.map rawText) :=
  match prints with
  | @Value.Prints.object members _ body _ gap inner trail => by
      have below : Yields [nonTerminal "members"] body (members.keys.map rawText) := by
        cases members with
        | nil =>
            cases inner
            exact yields_empty.rule 3 membersRule rfl (by simp [membersRule])
        | cons key value rest =>
            exact (inner.yields (by simp)).rule 3 membersRule rfl (by simp [membersRule])
      have object : Yields [nonTerminal "object"] _ _ :=
        ((yields_terminal [123]).append (gap.yields.append (below.append
          (yields_terminal [125])))).rule 2 objectRule rfl (by simp [objectRule])
      have whole : Yields [nonTerminal "value"] _ _ :=
        (object.append trail.yields).rule 1 valueRule rfl (by simp [valueRule])
      simpa [Value.keys] using whole
  | @Value.Prints.array elements _ body _ gap inner trail => by
      have below : Yields [nonTerminal "elements"] body (elements.keys.map rawText) := by
        cases elements with
        | nil =>
            cases inner
            exact yields_empty.rule 7 elementsRule rfl (by simp [elementsRule])
        | cons value rest =>
            exact (inner.yields (by simp)).rule 7 elementsRule rfl (by simp [elementsRule])
      have array : Yields [nonTerminal "array"] _ _ :=
        ((yields_terminal [91]).append (gap.yields.append (below.append
          (yields_terminal [93])))).rule 6 arrayRule rfl (by simp [arrayRule])
      have whole : Yields [nonTerminal "value"] _ _ :=
        (array.append trail.yields).rule 1 valueRule rfl (by simp [valueRule])
      simpa [Value.keys] using whole
  | @Value.Prints.string characters _ trail => by
      have inner := (yields_quoted characters).append trail.yields
      exact inner.rule 1 valueRule rfl (by simp [valueRule])
  | @Value.Prints.number number _ trail => by
      have inner := (yields_number number).append trail.yields
      exact inner.rule 1 valueRule rfl (by simp [valueRule])
  | .true trail => by
      have inner := (yields_terminal [116, 114, 117, 101]).append trail.yields
      exact inner.rule 1 valueRule rfl (by simp [valueRule])
  | .false trail => by
      have inner := (yields_terminal [102, 97, 108, 115, 101]).append trail.yields
      exact inner.rule 1 valueRule rfl (by simp [valueRule])
  | .null trail => by
      have inner := (yields_terminal [110, 117, 108, 108]).append trail.yields
      exact inner.rule 1 valueRule rfl (by simp [valueRule])

theorem Members.Prints.yields {members : Members} {text : List UInt8}
    (prints : members.Prints text) (some : members ≠ .nil) :
    Yields [nonTerminal "member", nonTerminal "more-members"] text (members.keys.map rawText) :=
  match prints with
  | .nil => absurd rfl some
  | .last first => by
      have ends : Yields [nonTerminal "more-members"] [] [] :=
        yields_empty.rule 5 moreMembersRule rfl (by simp [moreMembersRule])
      simpa [Members.keys] using first.yields.append ends
  | .cons first gap later => by
      have inner := (yields_terminal [44]).append (gap.yields.append (later.yields (by simp)))
      have more : Yields [nonTerminal "more-members"] _ _ :=
        inner.rule 5 moreMembersRule rfl (by simp [moreMembersRule])
      simpa [Members.keys] using first.yields.append more

theorem Member.Prints.yields {key : List Character} {value : Value} {text : List UInt8}
    (prints : Member.Prints key value text) :
    Yields [nonTerminal "member"] text (rawText key :: value.keys.map rawText) :=
  match prints with
  | .mk gap after inner =>
      yields_member (gap.yields.append ((yields_terminal [58]).append
        (after.yields.append inner.yields)))

theorem Elements.Prints.yields {elements : Elements} {text : List UInt8}
    (prints : elements.Prints text) (some : elements ≠ .nil) :
    Yields [nonTerminal "value", nonTerminal "more-elements"] text (elements.keys.map rawText) :=
  match prints with
  | .nil => absurd rfl some
  | .last first => by
      have ends : Yields [nonTerminal "more-elements"] [] [] :=
        yields_empty.rule 8 moreElementsRule rfl (by simp [moreElementsRule])
      simpa [Elements.keys] using first.yields.append ends
  | .cons first gap later => by
      have inner := (yields_terminal [44]).append (gap.yields.append (later.yields (by simp)))
      have more : Yields [nonTerminal "more-elements"] _ _ :=
        inner.rule 8 moreElementsRule rfl (by simp [moreElementsRule])
      simpa [Elements.keys] using first.yields.append more

end

end

theorem Value.Document.yields {value : Value} {text : List UInt8} (document : value.Document text) :
    Yields [nonTerminal "json"] text (value.keys.map rawText) := by
  obtain ⟨gap, body, rfl, space, prints⟩ := document
  exact (space.yields.append prints.yields).rule 0 jsonRule rfl (by simp [jsonRule])

/-! ### The members among the nodes -/

def KeyNode (input : Array UInt8) (node : Tree) (key : List UInt8) : Prop :=
  ∃ string rest, node.children = string :: rest ∧ string.kind = kinds.string ∧
    string.text? input = some (34 :: (key ++ [34]))

def memberNodes (trees : List Tree) : List Tree :=
  (trees.flatMap Tree.nodes).filter fun node => node.kind = kinds.member

theorem memberNodes_nil : memberNodes [] = [] := rfl

theorem memberNodes_append (left right : List Tree) :
    memberNodes (left ++ right) = memberNodes left ++ memberNodes right := by
  simp [memberNodes]

theorem memberNodes_cons (serial : Nat) (kind : NodeKind) (span : Span)
    (children rest : List Tree) :
    memberNodes (.node serial kind span children :: rest) =
      (if kind = kinds.member then [.node serial kind span children] else []) ++
        (memberNodes children ++ memberNodes rest) := by
  rw [memberNodes, List.flatMap_cons, Tree.nodes_eq, List.cons_append, List.filter_cons]
  by_cases member : kind = kinds.member
  · simp [memberNodes, Tree.kind, Tree.children, member]
  · simp [memberNodes, Tree.kind, Tree.children, member]

section

variable {symbols : List Symbol} {trees : List Derivation} {text : List UInt8}

theorem exists_key_of_derives
    (derives : grammar.Derives [nonTerminal "string", nonTerminal "ws", .terminal [58],
      nonTerminal "ws", nonTerminal "value"] trees text) :
    ∃ children rest key later, trees = .rule 9 children :: rest ∧
      Derivation.yields children = 34 :: (key ++ [34]) ∧ text = 34 :: (key ++ [34]) ++ later := by
  obtain ⟨tree, rest, inner, later, rfl, rfl, string, _⟩ := derives_cons_iff.mp derives
  obtain ⟨_, _, same, ⟨characters, rfl⟩, rfl⟩ :=
    string.conforms keeps_grammar (Or.inl rfl) (Or.inr rfl)
  obtain ⟨_, _, children, whole, inside⟩ := (derives_rule_iff heads_nodup
    (show grammar.rules[9]? = some stringRule from rfl)).mp string
  obtain rfl := (List.cons.inj whole).1
  rw [List.append_nil] at same
  refine ⟨children, rest, rawText characters, later, rfl, ?_, by rw [same, quoted]⟩
  rw [inside.yields_eq, same, quoted]

theorem treesKeys_of_empty (derives : grammar.Derives symbols trees text) (none : text = []) :
    treesKeys trees = [] := by
  induction derives with
  | nil => rfl
  | terminal bytes _ ih =>
      obtain ⟨_, later⟩ := List.append_eq_nil_iff.mp none
      simpa [treesKeys, treeKeys] using ih later
  | empty _ ih => simpa [treesKeys, treeKeys] using ih none
  | lineFeed | carriageReturn => simp at none
  | @rule _ _ _ id rule _ _ _ found chosen inside _ innerIh ih =>
      obtain ⟨rfl, later⟩ := List.append_eq_nil_iff.mp none
      have other : id ≠ 4 := by
        rintro rfl
        obtain rfl := Option.some.inj (found.symm.trans (show _ = some memberRule from rfl))
        obtain rfl := List.mem_singleton.mp chosen
        obtain ⟨_, _, _, _, _, _, same⟩ := exists_key_of_derives inside
        simp at same
      simp [treesKeys, treeKeys, other, innerIh rfl, ih later]

theorem keyNode_of_yields {children : List Derivation} {key later : List UInt8}
    {input : Array UInt8} {offset : Nat} (spelled : yields children = 34 :: (key ++ [34]))
    (places : Places input offset (34 :: (key ++ [34]) ++ later)) (rest : List Derivation)
    (serial made : Nat) (kind : NodeKind) (span : Span) :
    KeyNode input (.node serial kind span (depictAll offset made (.rule 9 children :: rest)))
      key := by
  have text := places.left.text?_eq (places.left.le_size (List.cons_ne_nil _ _))
  refine ⟨_, _, rfl, rfl, ?_⟩
  rwa [← spelled] at text ⊢

theorem keyNodes_of_derives (derives : grammar.Derives symbols trees text) {input : Array UInt8}
    {offset : Nat} (places : Places input offset text) (made : Nat) :
    List.Forall₂ (KeyNode input) (memberNodes (depictAll offset made trees)) (treesKeys trees) := by
  induction derives generalizing offset made with
  | nil => exact .nil
  | terminal bytes _ ih =>
      simpa [depictAll, depict, yield, memberNodes_cons, memberNodes_nil, kinds, treesKeys,
        treeKeys] using ih places.right _
  | empty _ ih => exact ih places _
  | lineFeed _ _ ih =>
      have later := @Places.right input offset [10] _ places
      simpa [depictAll, depict, yield, memberNodes_cons, memberNodes_nil, kinds, treesKeys,
        treeKeys] using ih later _
  | carriageReturn _ _ ih =>
      have later := @Places.right input offset [13, 10] _ places
      simpa [depictAll, depict, yield, memberNodes_cons, memberNodes_nil, kinds, treesKeys,
        treeKeys] using ih later _
  | @rule _ _ _ id rule _ children inner found chosen inside _ innerIh ih =>
      have yielded := inside.yields_eq
      have below := innerIh places.left made
      rw [depictAll, memberNodes_append, treesKeys, yield, yielded]
      refine List.rel_append ?_ (ih places.right _)
      rw [depict, yielded, treeKeys, memberNodes_cons, memberNodes_nil, List.append_nil]
      by_cases member : id = 4
      · subst member
        obtain rfl := Option.some.inj (found.symm.trans (show _ = some memberRule from rfl))
        obtain rfl := List.mem_singleton.mp chosen
        obtain ⟨strings, rest, key, after, rfl, spelled, rfl⟩ := exists_key_of_derives inside
        have here := keyNode_of_yields spelled places.left rest
        have solid : 34 :: (key ++ [34]) ++ after ≠ [] := by simp
        have same : ((List.head? (.rule 9 strings :: rest)).map yield).getD [] =
            34 :: (key ++ [34]) := by simp [yield, spelled]
        have member : NodeKind.rule 4 = kinds.member := rfl
        rw [if_neg solid, if_pos member, if_pos rfl, same]
        refine List.rel_append ?_ below
        simpa using here _ _ _ _
      · have other : NodeKind.rule id ≠ kinds.member := by simpa [kinds] using member
        rw [if_neg other, if_neg member]
        by_cases vacant : inner = []
        · rw [if_pos vacant, treesKeys_of_empty inside vacant]
          simp [memberNodes_cons, memberNodes_nil, kinds]
        · rwa [if_neg vacant]

end

/-! ### What the collector returns -/

theorem addKey_of_keyNode {input : Array UInt8} {node : Tree} {key : List UInt8}
    (keyed : KeyNode input node key) (member : node.kind = kinds.member) (found : List String) :
    addKey kinds input (some found) node = some (Utf8.decodeString key :: found) := by
  obtain ⟨string, rest, children, kind, text⟩ := keyed
  have chosen : keyNode? kinds node = some string := by simp [keyNode?, member, children, kind]
  have bare : unquoted? input string = some (Utf8.decodeString key) := by
    simp [unquoted?, text]
  simp [addKey, chosen, bare]

theorem foldl_addKey {input : Array UInt8} {nodes : List Tree} {keys : List (List UInt8)}
    (keyed : List.Forall₂ (KeyNode input) (nodes.filter fun node => node.kind = kinds.member)
      keys) (found : List String) :
    nodes.foldl (addKey kinds input) (some found) =
      some ((keys.map Utf8.decodeString).reverse ++ found) := by
  induction nodes generalizing keys found with
  | nil =>
      cases keyed
      rfl
  | cons node rest ih =>
      rw [List.foldl_cons]
      by_cases member : node.kind = kinds.member
      · rw [List.filter_cons_of_pos (by simpa using member)] at keyed
        cases keyed with
        | cons here later => simp [addKey_of_keyNode here member, ih later]
      · rw [List.filter_cons_of_neg (by simpa using member)] at keyed
        have passed : addKey kinds input (some found) node = some found := by
          simp [addKey, keyNode?, member]
        rw [passed, ih keyed]

theorem keys?_eq_some {input : Array UInt8} {tree : ParseTree} {keys : List (List UInt8)}
    (keyed : List.Forall₂ (KeyNode input) (memberNodes [tree.root]) keys) :
    keys? kinds input tree = some (keys.map Utf8.decodeString) := by
  rw [memberNodes, List.flatMap_singleton] at keyed
  rw [keys?, Tree.walk, Tree.walkStack_eq_foldl, List.flatMap_singleton, foldl_addKey keyed]
  simp

def keyText (key : List Character) : String :=
  Bnf.asciiText (rawText key)

theorem decodeString_rawText (key : List Character) :
    Utf8.decodeString (rawText key) = keyText key := by
  have ascii : ∀ byte ∈ rawText key, byte < 0x80 := by
    intro byte member
    obtain ⟨character, _, here⟩ := List.mem_flatMap.mp member
    cases character with
    | plain plain itself =>
        obtain rfl := List.mem_singleton.mp here
        simp only [isPlain, Bool.and_eq_true] at itself
        exact Bnf.lt_of_isPrintable itself.1.1
    | escaped escaped listed =>
        have small : ∀ other ∈ 92 :: escapeBytes, other < 0x80 := by simp [escapeBytes]
        simp only [Character.bytes, List.mem_cons, List.not_mem_nil, or_false] at here
        rcases here with rfl | rfl
        · exact small _ List.mem_cons_self
        · exact small _ (List.mem_cons_of_mem _ listed)
  rw [Utf8.decodeString, Utf8.decode_ascii _ ascii, keyText, Bnf.asciiText]

section

variable {result : Parser}

/-- The parser has the kinds, so nothing but the parse and the texts of the keys is left. -/
theorem collectWith_of_parser_eq (parserIs : parser = .ok result) (input : Array UInt8) :
    collectWith parser input = do
      match ← result.parse input with
      | .error error => return .error (.engine error)
      | .ok tree => return .ok (tree, ← keys? kinds input tree) := by
  obtain ⟨_, same, generated⟩ := exists_parser_eq
  obtain rfl := Except.ok.inj (parserIs.symm.trans same)
  have named := ofNames?_eq_some generated
  rw [parserIs, collectWith]
  rcases result.parse input with _ | error | tree
  · simp
  · simp
  · simp [named]

theorem collectKeys_of_parser_eq (parserIs : parser = .ok result) (input : Array UInt8) :
    collectKeys input = do
      match ← result.parse input with
      | .error error => return .error error
      | .ok tree => return .ok (tree, ← keys? kinds input tree) := by
  rw [collectKeys, collectWith_of_parser_eq parserIs]
  rcases result.parse input with _ | error | tree
  · rfl
  · rfl
  · cases keyed : keys? kinds input tree <;> simp [keyed]

theorem collectKeys_eq_ok_iff (parserIs : parser = .ok result) {input : Array UInt8}
    {tree : ParseTree} {found : List String} :
    collectKeys input = some (.ok (tree, found)) ↔
      result.parse input = some (.ok tree) ∧ keys? kinds input tree = some found := by
  rw [collectKeys_of_parser_eq parserIs]
  rcases result.parse input with _ | error | other
  · simp
  · simp
  · constructor
    · intro collected
      cases keyed : keys? kinds input other with
      | none => simp [keyed] at collected
      | some keys =>
          obtain ⟨rfl, rfl⟩ : other = tree ∧ keys = found := by simpa [keyed] using collected
          exact ⟨rfl, keyed⟩
    · rintro ⟨⟨⟩, keyed⟩
      simp [keyed]

end

theorem collectWith_eq_engine (input : Array UInt8) :
    collectWith parser input = (collectKeys input).map (Except.mapError .engine) := by
  obtain ⟨result, parserIs, _⟩ := exists_parser_eq
  rw [collectWith_of_parser_eq parserIs, collectKeys_of_parser_eq parserIs]
  rcases result.parse input with _ | error | tree
  · rfl
  · rfl
  · cases keyed : keys? kinds input tree <;> simp [keyed, Except.mapError]

theorem collectKeys_of_derives {input : Array UInt8} {trees : List Derivation}
    (derives : grammar.Derives [nonTerminal "json"] trees input.toList) :
    ∃ tree, collectKeys input = some (.ok (tree, (treesKeys trees).map Utf8.decodeString)) ∧
      List.Forall₂ (KeyNode input) (memberNodes [tree.root]) (treesKeys trees) := by
  obtain ⟨result, parserIs, generated⟩ := exists_parser_eq
  have first : grammar.startRule? = some jsonRule := rfl
  obtain ⟨tree, _, _, _, rfl, _, _, ends⟩ := derives_cons_iff.mp derives
  obtain ⟨rfl, _⟩ := derives_nil_iff.mp ends
  obtain ⟨root, shown, accepted⟩ := Parser.parse_of_derives first generated derives
  have whole : Places input 0 input.toList := ⟨[], by simp⟩
  have keyed := keyNodes_of_derives derives whole 0
  rw [depictAll_singleton, shown] at keyed
  refine ⟨⟨root, root.size⟩, ?_, keyed⟩
  have found : keys? kinds input ⟨root, root.size⟩ = _ := keys?_eq_some keyed
  exact (collectKeys_eq_ok_iff parserIs).mpr ⟨accepted, found⟩

theorem collectKeys_of_document {value : Value} {input : Array UInt8}
    (document : value.Document input.toList) :
    ∃ tree, collectKeys input = some (.ok (tree, value.keys.map keyText)) ∧
      List.Forall₂ (KeyNode input) (memberNodes [tree.root]) (value.keys.map rawText) := by
  obtain ⟨trees, derives, same⟩ := document.yields
  obtain ⟨tree, collected, keyed⟩ := collectKeys_of_derives derives
  have texts : (value.keys.map rawText).map Utf8.decodeString = value.keys.map keyText := by
    simp [decodeString_rawText]
  rw [same] at collected keyed
  exact ⟨tree, texts ▸ collected, keyed⟩

theorem exists_document_of_parse {result : Parser} (parserIs : parser = .ok result)
    {input : Array UInt8} {tree : ParseTree} (accepted : result.parse input = some (.ok tree)) :
    ∃ value : Value, value.Document input.toList := by
  obtain ⟨_, same, generated⟩ := exists_parser_eq
  obtain rfl := Except.ok.inj (same.symm.trans parserIs)
  have first : grammar.startRule? = some jsonRule := rfl
  obtain ⟨derivation, derives⟩ := Parser.derives_of_parse first generated accepted
  exact exists_document_of_derives derives

/-- The print of a value is accepted, and the collector returns the text between the quotes of
every key in the value, once each and in the order of the document.  Whatever is accepted is the
print of a value, and every member among the nodes begins with a string in quotes.  So what is taken
from it for its key is inside it, and the collector has a result for all that is accepted.  The
kinds of members and strings are never missing. -/
theorem collects_the_keys :
    (∃ result, parser = .ok result ∧ Kinds.ofNames? result.names = some kinds) ∧
    (∀ (value : Value) (text : List UInt8), value.Document text →
      ∃ tree, collectKeys text.toArray = some (.ok (tree, value.keys.map keyText))) ∧
    (∀ input tree found, collectKeys input = some (.ok (tree, found)) →
      (∃ value : Value, value.Document input.toList ∧ found = value.keys.map keyText) ∧
        ∀ node ∈ tree.root.nodes, node.kind = kinds.member → ∃ key, KeyNode input node key) ∧
    (∀ result input tree, parser = .ok result → result.parse input = some (.ok tree) →
      ∃ found, collectKeys input = some (.ok (tree, found))) ∧
    ∀ input, collectWith parser input = (collectKeys input).map (Except.mapError .engine) := by
  refine ⟨?_, ?_, ?_, ?_, collectWith_eq_engine⟩
  · obtain ⟨result, parserIs, generated⟩ := exists_parser_eq
    exact ⟨result, parserIs, ofNames?_eq_some generated⟩
  · intro value text document
    have listed : value.Document text.toArray.toList := document
    obtain ⟨tree, collected, _⟩ := collectKeys_of_document listed
    exact ⟨tree, collected⟩
  · intro input tree found collected
    obtain ⟨result, parserIs, _⟩ := exists_parser_eq
    obtain ⟨accepted, _⟩ := (collectKeys_eq_ok_iff parserIs).mp collected
    obtain ⟨value, document⟩ := exists_document_of_parse parserIs accepted
    obtain ⟨other, again, keyed⟩ := collectKeys_of_document document
    obtain ⟨rfl, rfl⟩ : tree = other ∧ found = value.keys.map keyText := by
      simpa [collected] using again
    refine ⟨⟨value, document, rfl⟩, fun node inside member => ?_⟩
    have among : node ∈ memberNodes [tree.root] := by
      simpa [memberNodes, member] using inside
    obtain ⟨key, _, here⟩ := exists_of_forall₂_left keyed among
    exact ⟨key, here⟩
  · intro result input tree parserIs accepted
    obtain ⟨value, document⟩ := exists_document_of_parse parserIs accepted
    obtain ⟨other, collected, _⟩ := collectKeys_of_document document
    obtain ⟨again, _⟩ := (collectKeys_eq_ok_iff parserIs).mp collected
    obtain rfl := Except.ok.inj (Option.some.inj (again.symm.trans accepted))
    exact ⟨_, collected⟩

def nested : Value :=
  .object (.cons [.plain 97 rfl, .escaped 34 (by decide)]
    (.array (.cons
      (.object (.cons [.plain 98 rfl] (.number ⟨true, ⟨1, []⟩, some ⟨5, []⟩⟩) .nil)) .nil))
    (.cons [.plain 99 rfl] (.object .nil) .nil))

def nestedText : List UInt8 :=
  Bnf.utf8Bytes " \x7b\"a\\\"\" : [\x7b\"b\":-1.5\x7d],\r\n\"c\":\x7b\x7d\x7d"

theorem nested_document : nested.Document nestedText := by
  obtain ⟨body, prints, same⟩ : ∃ body, nested.Prints body ∧ nestedText = 32 :: body :=
    ⟨_, .object .nil (.cons
      (.mk (.blank .nil) (.blank .nil)
        (.array .nil (.last (.object .nil (.last (.mk .nil .nil (.number .nil))) .nil)) .nil))
      (.carriageReturn .nil)
      (.last (.mk .nil .nil (.object .nil .nil .nil)))) .nil, by decide +kernel⟩
  exact ⟨[32], body, same, .blank .nil, prints⟩

theorem nested_keys_are_collected :
    ∃ tree, collectKeys nestedText.toArray = some (.ok (tree, ["a\\\"", "b", "c"])) ∧
      ∀ node ∈ tree.root.nodes, node.kind = kinds.member →
        ∃ key, KeyNode nestedText.toArray node key := by
  obtain ⟨_, collects, found, _⟩ := collects_the_keys
  obtain ⟨tree, collected⟩ := collects nested nestedText nested_document
  have texts : nested.keys.map keyText = ["a\\\"", "b", "c"] := by decide +kernel
  exact ⟨tree, texts ▸ collected, (found _ _ _ collected).2⟩

end Lookahead.Json
