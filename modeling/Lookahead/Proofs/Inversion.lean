import Lookahead.Proofs.Derivation

/-!
Derivations taken apart and put together, symbol by symbol and rule by rule.
-/

namespace Lookahead.Grammar

variable {grammar : Grammar} {symbols : List Symbol} {trees : List Derivation} {text : List UInt8}

theorem derives_nil_iff : grammar.Derives [] trees text ↔ trees = [] ∧ text = [] := by
  constructor
  · rintro ⟨⟩
    exact ⟨rfl, rfl⟩
  · rintro ⟨rfl, rfl⟩
    exact .nil

theorem derives_cons_iff {symbol : Symbol} :
    grammar.Derives (symbol :: symbols) trees text ↔
      ∃ tree rest inner later, trees = tree :: rest ∧ text = inner ++ later ∧
        grammar.Derives [symbol] [tree] inner ∧ grammar.Derives symbols rest later := by
  constructor
  · intro derives
    cases derives with
    | terminal bytes rest =>
        have here : grammar.Derives [.terminal bytes] [.terminal bytes] (bytes ++ []) :=
          .terminal bytes .nil
        exact ⟨_, _, bytes, _, rfl, rfl, by simpa using here, rest⟩
    | empty rest => exact ⟨_, _, [], _, rfl, rfl, .empty .nil, rest⟩
    | lineFeed builtin rest => exact ⟨_, _, [10], _, rfl, rfl, .lineFeed builtin .nil, rest⟩
    | carriageReturn builtin rest =>
        exact ⟨_, _, [13, 10], _, rfl, rfl, .carriageReturn builtin .nil, rest⟩
    | @rule _ _ _ id rule _ children inner found chosen inside rest =>
        have here : grammar.Derives [.nonTerminal rule.head] [.rule id children] (inner ++ []) :=
          .rule found chosen inside .nil
        exact ⟨_, _, inner, _, rfl, rfl, by simpa using here, rest⟩
  · rintro ⟨tree, rest, inner, later, rfl, rfl, here, remaining⟩
    exact here.append remaining

theorem derives_append_iff {more : List Symbol} :
    grammar.Derives (symbols ++ more) trees text ↔
      ∃ front back inner later, trees = front ++ back ∧ text = inner ++ later ∧
        grammar.Derives symbols front inner ∧ grammar.Derives more back later := by
  constructor
  · intro derives
    induction symbols generalizing trees text with
    | nil => exact ⟨[], trees, [], text, rfl, rfl, .nil, derives⟩
    | cons symbol rest ih =>
        obtain ⟨tree, others, inner, later, rfl, rfl, here, remaining⟩ :=
          derives_cons_iff.mp derives
        obtain ⟨front, back, middle, last, rfl, rfl, one, two⟩ := ih remaining
        exact ⟨tree :: front, back, inner ++ middle, last, rfl, by simp, here.append one, two⟩
  · rintro ⟨front, back, inner, later, rfl, rfl, one, two⟩
    exact one.append two

theorem derives_terminal_iff {bytes : List UInt8} :
    grammar.Derives [.terminal bytes] trees text ↔ trees = [.terminal bytes] ∧ text = bytes := by
  constructor
  · intro derives
    cases derives with
    | terminal _ rest =>
        cases rest
        exact ⟨rfl, by simp⟩
  · rintro ⟨rfl, rfl⟩
    have here : grammar.Derives [.terminal text] [.terminal text] (text ++ []) :=
      .terminal text .nil
    simpa using here

theorem derives_terminal (bytes : List UInt8) :
    grammar.Derives [.terminal bytes] [.terminal bytes] bytes :=
  derives_terminal_iff.mpr ⟨rfl, rfl⟩

theorem derives_empty_iff :
    grammar.Derives [.empty] trees text ↔ trees = [.empty] ∧ text = [] := by
  constructor
  · intro derives
    cases derives with
    | empty rest =>
        cases rest
        exact ⟨rfl, rfl⟩
  · rintro ⟨rfl, rfl⟩
    exact .empty .nil

theorem derives_endOfLine_iff (builtin : grammar.rule? endOfLineName = none) :
    grammar.Derives [.nonTerminal endOfLineName] trees text ↔
      (trees = [.lineFeed] ∧ text = [10]) ∨ (trees = [.carriageReturn] ∧ text = [13, 10]) := by
  constructor
  · intro derives
    generalize same : ([.nonTerminal endOfLineName] : List Symbol) = symbols at derives
    cases derives with
    | lineFeed _ rest =>
        obtain rfl := (List.cons.inj same).2
        cases rest
        exact Or.inl ⟨rfl, rfl⟩
    | carriageReturn _ rest =>
        obtain rfl := (List.cons.inj same).2
        cases rest
        exact Or.inr ⟨rfl, rfl⟩
    | rule found =>
        obtain ⟨named, rfl⟩ := List.cons.inj same
        have absent := List.find?_eq_none.mp builtin _ (List.mem_of_getElem? found)
        simp [Symbol.nonTerminal.inj named] at absent
    | nil | terminal | empty => simp at same
  · rintro (⟨rfl, rfl⟩ | ⟨rfl, rfl⟩)
    · exact .lineFeed builtin .nil
    · exact .carriageReturn builtin .nil

theorem Derives.of_alternative {id : Nat} {rule : Rule} (found : grammar.rules[id]? = some rule)
    {alternative : Alternative} (chosen : alternative ∈ rule.alternatives)
    (derives : grammar.Derives alternative trees text) :
    grammar.Derives [.nonTerminal rule.head] [.rule id trees] text := by
  simpa using Derives.rule found chosen derives .nil

theorem derives_rule_iff (distinct : (grammar.rules.map Rule.head).Nodup) {id : Nat} {rule : Rule}
    (found : grammar.rules[id]? = some rule) :
    grammar.Derives [.nonTerminal rule.head] trees text ↔
      ∃ alternative ∈ rule.alternatives, ∃ children,
        trees = [.rule id children] ∧ grammar.Derives alternative children text := by
  constructor
  · intro derives
    generalize same : ([.nonTerminal rule.head] : List Symbol) = symbols at derives
    cases derives with
    | @rule _ _ _ other otherRule alternative children inner otherFound chosen inside rest =>
        obtain ⟨named, rfl⟩ := List.cons.inj same
        cases rest
        obtain rfl := eq_of_head_eq distinct found otherFound (Symbol.nonTerminal.inj named)
        obtain rfl := Option.some.inj (found.symm.trans otherFound)
        exact ⟨alternative, chosen, children, rfl, by simpa using inside⟩
    | lineFeed builtin | carriageReturn builtin =>
        obtain ⟨named, _⟩ := List.cons.inj same
        have absent := List.find?_eq_none.mp builtin rule (List.mem_of_getElem? found)
        simp [Symbol.nonTerminal.inj named] at absent
    | nil | terminal | empty => simp at same
  · rintro ⟨alternative, chosen, children, rfl, inside⟩
    exact inside.of_alternative found chosen

/-- A text made of parts that suit the symbols one by one, where a name is suited by the texts that
its specification admits. -/
def Conforms (spec : String → List UInt8 → Prop) : List Symbol → List UInt8 → Prop
  | [], text => text = []
  | .terminal bytes :: rest, text => ∃ later, text = bytes ++ later ∧ Conforms spec rest later
  | .nonTerminal name :: rest, text =>
      ∃ inner later, text = inner ++ later ∧ spec name inner ∧ Conforms spec rest later
  | .empty :: rest, text => Conforms spec rest text

/-- What a grammar derives meets every specification that its rules keep up. -/
theorem Derives.conforms {spec : String → List UInt8 → Prop}
    (kept : ∀ rule ∈ grammar.rules, ∀ alternative ∈ rule.alternatives, ∀ text,
      Conforms spec alternative text → spec rule.head text)
    (lineFeed : spec endOfLineName [10]) (carriageReturn : spec endOfLineName [13, 10])
    (derives : grammar.Derives symbols trees text) : Conforms spec symbols text := by
  induction derives with
  | nil => exact rfl
  | terminal bytes _ ih => exact ⟨_, rfl, ih⟩
  | empty _ ih => exact ih
  | lineFeed _ _ ih => exact ⟨[10], _, rfl, lineFeed, ih⟩
  | carriageReturn _ _ ih => exact ⟨[13, 10], _, rfl, carriageReturn, ih⟩
  | rule found chosen _ _ innerIh ih =>
      exact ⟨_, _, rfl, kept _ (List.mem_of_getElem? found) _ chosen _ innerIh, ih⟩

theorem exists_segments_of_derives (distinct : (grammar.rules.map Rule.head).Nodup) {id : Nat}
    {rule : Rule} (found : grammar.rules[id]? = some rule) {body : List Symbol}
    (repeats : ∀ alternative ∈ rule.alternatives,
      alternative = [.empty] ∨ alternative = body ++ [.nonTerminal rule.head])
    {tree : Derivation} (derives : grammar.Derives [.nonTerminal rule.head] [tree] text) :
    ∃ segments : List (List UInt8), text = segments.flatten ∧
      ∀ segment ∈ segments, ∃ trees, grammar.Derives body trees segment := by
  generalize sizeIs : sizeOf tree = size
  induction size using Nat.strongRecOn generalizing tree text with
  | ind size ih =>
      obtain ⟨alternative, chosen, children, same, inside⟩ :=
        (derives_rule_iff distinct found).mp derives
      obtain rfl := (List.cons.inj same).1
      rcases repeats alternative chosen with rfl | rfl
      · obtain ⟨_, rfl⟩ := derives_empty_iff.mp inside
        exact ⟨[], rfl, by simp⟩
      · obtain ⟨front, back, segment, later, rfl, rfl, here, rest⟩ :=
          derives_append_iff.mp inside
        obtain ⟨tail, others, inner, none, rfl, rfl, tailDerives, nothing⟩ :=
          derives_cons_iff.mp rest
        obtain ⟨rfl, rfl⟩ := derives_nil_iff.mp nothing
        have member : tail ∈ front ++ [tail] := by simp
        have smaller := List.sizeOf_lt_of_mem member
        have less : sizeOf tail < size := by
          rw [← sizeIs, Derivation.rule.sizeOf_spec]
          omega
        obtain ⟨segments, rfl, each⟩ := ih _ less tailDerives rfl
        exact ⟨segment :: segments, by simp, List.forall_mem_cons.mpr ⟨⟨front, here⟩, each⟩⟩

end Lookahead.Grammar
