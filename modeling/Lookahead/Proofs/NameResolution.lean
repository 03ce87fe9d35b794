import Lookahead.Proofs.Naming
import Lookahead.Proofs.RoundTrip

/-!
Names resolve back to kinds.  The names of a parser are the heads of its rules and the reserved
names; a look-up by name gives the first kind of that name, so a rule is found by its head unless
the head is a reserved name.  No head that is read from text is one.
-/

namespace Lookahead

namespace NameMap

def builtins : List (NodeKind × String) :=
  [(.literal, "_literal"), (.endOfLine, "_endofline"), (.nothing, "_nothing")]

def IsReserved (name : String) : Prop :=
  name ∈ builtins.map (·.2)

instance : DecidablePred IsReserved :=
  fun name => inferInstanceAs (Decidable (name ∈ builtins.map (·.2)))

variable {names : NameMap} {kind : NodeKind} {name : String}

theorem mem_builtins_cases (builtin : (kind, name) ∈ builtins) :
    (kind = .literal ∧ name = "_literal") ∨ (kind = .endOfLine ∧ name = "_endofline") ∨
      (kind = .nothing ∧ name = "_nothing") := by
  simpa [builtins] using builtin

theorem eq_of_mem_builtins {other : NodeKind} (one : (kind, name) ∈ builtins)
    (two : (other, name) ∈ builtins) : kind = other := by
  rcases mem_builtins_cases one with ⟨rfl, rfl⟩ | ⟨rfl, rfl⟩ | ⟨rfl, rfl⟩
  all_goals simpa [builtins, eq_comm] using two

theorem kindOf?_eq_some_iff :
    names.kindOf? name = some kind ↔
      names.get? kind = some name ∧
        ∀ other, names.get? other = some name → kind.rank ≤ other.rank := by
  simp only [get?_eq_some_iff]
  obtain ⟨entries, ordered⟩ := names
  change (entries.find? fun entry => entry.2 == name).map (·.1) = some kind ↔ _
  simp only
  -- The entries ascend by rank, so the first one with the name has the least kind.
  induction entries with
  | nil => simp
  | cons entry rest ih =>
      obtain ⟨first, restOrdered⟩ := List.pairwise_cons.mp ordered
      obtain ⟨front, label⟩ := entry
      by_cases here : label = name
      · subst here
        rw [List.find?_cons_of_pos (by simp), Option.map_some, Option.some.injEq]
        have least (other : NodeKind) (member : (other, label) ∈ (front, label) :: rest) :
            front.rank ≤ other.rank := by
          rcases List.mem_cons.mp member with same | later
          · exact Nat.le_of_eq (congrArg NodeKind.rank (congrArg Prod.fst same).symm)
          · exact Nat.le_of_lt (first _ later)
        constructor
        · rintro rfl
          exact ⟨List.mem_cons_self, least⟩
        · rintro ⟨member, below⟩
          exact NodeKind.rank_injective
            (Nat.le_antisymm (least kind member) (below front List.mem_cons_self))
      · have different (other : NodeKind) : (other, name) ≠ (front, label) :=
          fun same => here (congrArg Prod.snd same).symm
        rw [List.find?_cons_of_neg (by simpa using here)]
        simp only [List.mem_cons, different, false_or]
        exact ih restOrdered

theorem nameOf_eq_of_get? (named : names.get? kind = some name) : names.nameOf kind = name := by
  rw [nameOf, named, Option.getD_some]

theorem get?_withBuiltins_rule (names : NameMap) (id : Nat) :
    names.withBuiltins.get? (.rule id) = names.get? (.rule id) := by
  simp only [withBuiltins, get?_insert, reduceCtorEq, if_false]

theorem get?_withBuiltins_eq_some_iff :
    names.withBuiltins.get? kind = some name ↔
      (kind, name) ∈ builtins ∨ ∃ id, kind = .rule id ∧ names.get? (.rule id) = some name := by
  cases kind with
  | rule id => simp [get?_withBuiltins_rule, builtins]
  | literal | endOfLine | nothing => simp [withBuiltins, get?_insert, builtins, eq_comm]

end NameMap

namespace Parser

open NameMap

variable {grammar : Grammar} {parser : Parser}

theorem heads_nodup (generated : ofGrammar grammar = .ok parser) :
    (grammar.rules.map Rule.head).Nodup := by
  obtain ⟨_, _, resolves, _⟩ := realizes_of_ofGrammar generated
  exact resolves.heads_nodup

theorem get?_names_eq_some_iff (generated : ofGrammar grammar = .ok parser) {kind : NodeKind}
    {name : String} :
    parser.names.get? kind = some name ↔
      (kind, name) ∈ builtins ∨
        ∃ id rule, kind = .rule id ∧ grammar.rules[id]? = some rule ∧ rule.head = name := by
  obtain ⟨⟨table, names⟩, made, result⟩ := bind_eq_ok_iff.mp generated
  obtain rfl := Except.ok.inj result
  obtain ⟨analysis, analyzed, _, rfl⟩ := Grammar.generate_eq_ok_iff.mp made
  obtain ⟨_, resolves⟩ := Grammar.sound_of_analyze analyzed
  have entry (id : Nat) : analysis.names.get? (.rule id) = some name ↔
      ∃ rule, grammar.rules[id]? = some rule ∧ rule.head = name := by
    simp only [get?_eq_some_iff, Analysis.entries_names, Analysis.nameEntries, List.mem_map,
      List.mem_finRange, true_and, Prod.mk.injEq, NodeKind.rule.injEq, resolves.head_get]
    constructor
    · rintro ⟨index, rfl, named⟩
      exact ⟨_, List.getElem?_eq_getElem index.isLt, named⟩
    · rintro ⟨rule, found, named⟩
      obtain ⟨bound, rfl⟩ := List.getElem?_eq_some_iff.mp found
      exact ⟨⟨id, bound⟩, rfl, named⟩
  rw [ofTable, get?_withBuiltins_eq_some_iff]
  simp only [entry]
  refine or_congr_right ⟨?_, ?_⟩
  · rintro ⟨id, same, rule, found, named⟩
    exact ⟨id, rule, same, found, named⟩
  · rintro ⟨id, rule, same, found, named⟩
    exact ⟨id, same, rule, found, named⟩

theorem kindOf?_of_builtin (generated : ofGrammar grammar = .ok parser) {kind : NodeKind}
    {name : String} (builtin : (kind, name) ∈ builtins) :
    parser.names.kindOf? name = some kind := by
  rw [kindOf?_eq_some_iff]
  refine ⟨(get?_names_eq_some_iff generated).mpr (Or.inl builtin), fun other named => ?_⟩
  rcases (get?_names_eq_some_iff generated).mp named with same | ⟨id, _, rfl, _⟩
  · exact Nat.le_of_eq (congrArg NodeKind.rank (eq_of_mem_builtins builtin same))
  · rcases mem_builtins_cases builtin with ⟨rfl, _⟩ | ⟨rfl, _⟩ | ⟨rfl, _⟩
    all_goals
      simp only [NodeKind.rank]
      omega

theorem eq_of_names (generated : ofGrammar grammar = .ok parser) {left right : NodeKind}
    {name : String} (clear : ∀ rule ∈ grammar.rules, rule.head = name → ¬ IsReserved name)
    (one : parser.names.get? left = some name) (two : parser.names.get? right = some name) :
    left = right := by
  have apart {kind : NodeKind} {id : Nat} {rule : Rule} (builtin : (kind, name) ∈ builtins)
      (found : grammar.rules[id]? = some rule) : rule.head ≠ name := fun named =>
    clear rule (List.mem_of_getElem? found) named (List.mem_map_of_mem (f := (·.2)) builtin)
  rw [get?_names_eq_some_iff generated] at one two
  rcases one with builtin | ⟨id, rule, rfl, found, named⟩
  · rcases two with other | ⟨_, _, _, otherFound, otherNamed⟩
    · exact eq_of_mem_builtins builtin other
    · exact absurd otherNamed (apart builtin otherFound)
  · rcases two with other | ⟨_, _, rfl, otherFound, otherNamed⟩
    · exact absurd named (apart other found)
    · exact congrArg NodeKind.rule (Grammar.eq_of_head_eq (heads_nodup generated) found otherFound
        (named.trans otherNamed.symm))

theorem get?_rule (generated : ofGrammar grammar = .ok parser) {id : Nat} {rule : Rule}
    (found : grammar.rules[id]? = some rule) :
    parser.names.get? (.rule id) = some rule.head :=
  (get?_names_eq_some_iff generated).mpr (Or.inr ⟨id, rule, rfl, found, rfl⟩)

theorem kindOf?_head_iff (generated : ofGrammar grammar = .ok parser) {id : Nat} {rule : Rule}
    (found : grammar.rules[id]? = some rule) :
    parser.names.kindOf? rule.head = some (.rule id) ↔ ¬ IsReserved rule.head := by
  constructor
  · intro resolved reserved
    obtain ⟨⟨kind, name⟩, builtin, rfl⟩ := List.mem_map.mp reserved
    rw [kindOf?_of_builtin generated builtin] at resolved
    obtain rfl := Option.some.inj resolved
    simp [builtins] at builtin
  · intro free
    rw [kindOf?_eq_some_iff]
    refine ⟨get?_rule generated found, fun other named => ?_⟩
    have same := eq_of_names generated (fun _ _ _ => free) (get?_rule generated found) named
    exact Nat.le_of_eq (congrArg NodeKind.rank same)

end Parser

theorem Rule.Readable.not_isReserved {rule : Rule} (readable : rule.Readable) :
    ¬ NameMap.IsReserved rule.head := by
  intro reserved
  have unreadable : ∀ name ∈ NameMap.builtins.map (·.2), ¬ ReadableName name := by decide
  exact unreadable rule.head reserved readable.head

namespace Parser

open NameMap

variable {grammar : Grammar} {parser : Parser}

/-- Each rule is named by its head, and found by it exactly if the head is not a reserved name.
The reserved kinds are found by their names.  So no two kinds share a name exactly if no head is
reserved, and none is in a grammar that was loaded from text. -/
theorem names_resolve_back (generated : ofGrammar grammar = .ok parser) :
    (∀ id rule, grammar.rules[id]? = some rule →
      parser.names.nameOf (.rule id) = rule.head ∧
        (parser.names.kindOf? rule.head = some (.rule id) ↔ ¬ IsReserved rule.head)) ∧
    (∀ builtin ∈ builtins,
      parser.names.nameOf builtin.1 = builtin.2 ∧
        parser.names.kindOf? builtin.2 = some builtin.1) ∧
    ((∀ left right name, parser.names.get? left = some name →
        parser.names.get? right = some name → left = right) ↔
      ∀ rule ∈ grammar.rules, ¬ IsReserved rule.head) ∧
    ((∃ text, Grammar.load text = .ok grammar) →
      ∀ rule ∈ grammar.rules, ¬ IsReserved rule.head) := by
  refine ⟨?_, ?_, ⟨?_, ?_⟩, ?_⟩
  · intro id rule found
    exact ⟨nameOf_eq_of_get? (get?_rule generated found), kindOf?_head_iff generated found⟩
  · intro builtin member
    exact ⟨nameOf_eq_of_get? ((get?_names_eq_some_iff generated).mpr (Or.inl member)),
      kindOf?_of_builtin generated member⟩
  · intro unshared rule member reserved
    obtain ⟨id, found⟩ := List.mem_iff_getElem?.mp member
    obtain ⟨⟨kind, name⟩, builtin, named⟩ := List.mem_map.mp reserved
    have reservedNamed : parser.names.get? kind = some rule.head :=
      (get?_names_eq_some_iff generated).mpr (Or.inl (named ▸ builtin))
    obtain rfl := unshared _ _ _ reservedNamed (get?_rule generated found)
    simp [builtins] at builtin
  · intro free left right name one two
    exact eq_of_names generated (fun rule member named => named ▸ free rule member) one two
  · rintro ⟨text, loaded⟩ rule member
    exact ((Grammar.readable_of_load loaded).rules rule member).not_isReserved

/-- A list of one letter, which stands below a node with the name of the placeholder. -/
def placeholderHead : Grammar :=
  ⟨[⟨"list", [[.nonTerminal "_nothing"]]⟩, ⟨"_nothing", [[.terminal [97]]]⟩]⟩

def placeholderHeadBounds : Resolved.Bounds placeholderHead.rules.length where
  nullable := .replicate _ false
  first := #v[ByteSet.ofList [97], ByteSet.ofList [97]]
  follow := .replicate _ (ByteSet.ofList [endOfInputByte])
  rank := #v[1, 0]

theorem exists_ofGrammar_placeholderHead : ∃ parser, ofGrammar placeholderHead = .ok parser := by
  have fits : placeholderHeadBounds.fit = true := by decide +kernel
  exact Resolved.Bounds.exists_ofGrammar fits

theorem placeholderHead_resolves :
    ∃ parser, ofGrammar placeholderHead = .ok parser ∧
      parser.names.nameOf (.rule 0) = "list" ∧ parser.names.kindOf? "list" = some (.rule 0) ∧
      parser.names.kindOf? "_literal" = some .literal ∧
      ¬ ∃ text, Grammar.load text = .ok placeholderHead := by
  obtain ⟨parser, generated⟩ := exists_ofGrammar_placeholderHead
  obtain ⟨rules, reserved, _, readable⟩ := names_resolve_back generated
  have listed := rules 0 _ rfl
  refine ⟨parser, generated, listed.1, listed.2.mpr (by decide), ?_, fun loaded => ?_⟩
  · exact (reserved (.literal, "_literal") (by decide)).2
  · exact readable loaded ⟨"_nothing", [[.terminal [97]]]⟩ (by decide) (by decide)

/-- A rule with a reserved head has its name, and is not found by it. -/
theorem placeholderHead_is_shadowed :
    ∃ parser, ofGrammar placeholderHead = .ok parser ∧
      placeholderHead.rules[1]?.map Rule.head = some "_nothing" ∧
      parser.names.nameOf (.rule 1) = "_nothing" ∧ parser.names.nameOf .nothing = "_nothing" ∧
      parser.names.kindOf? "_nothing" = some .nothing ∧
      parser.names.kindOf? "_nothing" ≠ some (.rule 1) := by
  obtain ⟨parser, generated⟩ := exists_ofGrammar_placeholderHead
  have shadowed : parser.names.kindOf? "_nothing" = some .nothing :=
    kindOf?_of_builtin generated (by decide)
  have placeholder : parser.names.get? .nothing = some "_nothing" :=
    (get?_names_eq_some_iff generated).mpr (Or.inl (by decide))
  have found : placeholderHead.rules[1]? = some ⟨"_nothing", [[.terminal [97]]]⟩ := rfl
  have named : parser.names.get? (.rule 1) = some "_nothing" := get?_rule generated found
  refine ⟨parser, generated, rfl, nameOf_eq_of_get? named, nameOf_eq_of_get? placeholder,
    shadowed, ?_⟩
  simp [shadowed]

end Parser

end Lookahead
