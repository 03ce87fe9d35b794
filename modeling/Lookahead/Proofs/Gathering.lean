import Lookahead.Bnf.Bindings
import Lookahead.Proofs.Depiction
import Lookahead.Proofs.Inversion
import Lookahead.Proofs.Walks

/-!
Searches over the nodes that show a derivation.  What a search finds is gathered along the
derivation, wherever its text stands in the input.
-/

namespace Lookahead

def Places (input : Array UInt8) (offset : Nat) (text : List UInt8) : Prop :=
  ∃ rest, input.toList.drop offset = text ++ rest

theorem Places.left {input : Array UInt8} {offset : Nat} {text later : List UInt8}
    (places : Places input offset (text ++ later)) : Places input offset text := by
  obtain ⟨rest, ahead⟩ := places
  exact ⟨later ++ rest, by rw [ahead, List.append_assoc]⟩

theorem Places.right {input : Array UInt8} {offset : Nat} {text later : List UInt8}
    (places : Places input offset (text ++ later)) :
    Places input (offset + text.length) later := by
  obtain ⟨rest, ahead⟩ := places
  refine ⟨rest, ?_⟩
  rw [← List.drop_drop, ahead, List.append_assoc, List.drop_left]

theorem Places.text?_eq {input : Array UInt8} {offset : Nat} {text : List UInt8}
    (places : Places input offset text) (inside : offset ≤ input.size) :
    Span.text? ⟨offset, offset + text.length⟩ input = some text := by
  obtain ⟨rest, ahead⟩ := places
  have whole : input.toList = input.toList.take offset ++ text ++ rest := by
    rw [List.append_assoc, ← ahead, List.take_append_drop]
  have start : (input.toList.take offset).length = offset := by
    rw [List.length_take, Array.length_toList]
    omega
  have covered := Span.text?_of_append whole
  rwa [start] at covered

theorem Places.le_size {input : Array UInt8} {offset : Nat} {text : List UInt8}
    (places : Places input offset text) (solid : text ≠ []) : offset ≤ input.size := by
  obtain ⟨rest, ahead⟩ := places
  by_contra beyond
  have none : input.toList.drop offset = [] := by
    rw [List.drop_eq_nil_iff, Array.length_toList]
    omega
  exact solid (List.append_eq_nil_iff.mp (ahead.symm.trans none)).1

theorem Places.bytes_eq {input : Array UInt8} {offset : Nat} {text : List UInt8}
    (places : Places input offset text) (serial : Nat) (kind : NodeKind) (children : List Tree) :
    Bnf.Bindings.bytes input
      (.node serial kind ⟨offset, offset + text.length⟩ children) = text := by
  by_cases inside : offset ≤ input.size
  · simp [Bnf.Bindings.bytes, Tree.text?, Tree.span, places.text?_eq inside]
  · obtain rfl : text = [] := by
      by_contra solid
      exact inside (places.le_size solid)
    have outside : ¬ offset ≤ input.size := inside
    simp [Bnf.Bindings.bytes, Tree.text?, Tree.span, Span.text?, outside]

namespace Derivation

theorem yields_append (left right : List Derivation) :
    yields (left ++ right) = yields left ++ yields right := by
  induction left with
  | nil => rfl
  | cons tree rest ih => simp [yields, ih]

theorem depictAll_append (offset made : Nat) (left right : List Derivation) :
    depictAll offset made (left ++ right) =
      depictAll offset made left ++
        depictAll (offset + (yields left).length)
          (made + Tree.sizes (depictAll offset made left)) right := by
  induction left generalizing offset made with
  | nil => simp [depictAll, yields, Tree.sizes]
  | cons tree rest ih =>
      simp [depictAll, yields, ih, Tree.sizes_append, Nat.add_assoc]

theorem depictAll_singleton (offset made : Nat) (tree : Derivation) :
    depictAll offset made [tree] = depict offset made tree := by
  simp [depictAll]

end Derivation

open Lookahead.Derivation

section Search

variable {ε α : Type} {convert : Array UInt8 → Tree → Except ε α}
  {accepts : NodeKind → Bool}

def Converts (convert : Array UInt8 → Tree → Except ε α) (tree : Derivation) (value : α) : Prop :=
  ∀ input offset made node, Places input offset tree.yield →
    tree.depict offset made = [node] → convert input node = .ok value

/-- The outermost accepted nodes that show the derivations are converted to the values. -/
def Gathers (accepts : NodeKind → Bool) (convert : Array UInt8 → Tree → Except ε α)
    (trees : List Derivation) (values : List α) : Prop :=
  ∀ input offset made, Places input offset (yields trees) →
    List.Forall₂ (fun node value => convert input node = .ok value)
      ((depictAll offset made trees).flatMap (Tree.outermost accepts)) values

theorem Gathers.nil : Gathers accepts convert [] [] := by
  intro input offset made _
  exact .nil

theorem Gathers.append {left right : List Derivation} {values others : List α}
    (one : Gathers accepts convert left values) (two : Gathers accepts convert right others) :
    Gathers accepts convert (left ++ right) (values ++ others) := by
  intro input offset made places
  rw [yields_append] at places
  rw [depictAll_append, List.flatMap_append]
  exact List.rel_append (one input offset made places.left) (two input _ _ places.right)

theorem Gathers.cons {tree : Derivation} {rest : List Derivation} {values others : List α}
    (one : Gathers accepts convert [tree] values) (two : Gathers accepts convert rest others) :
    Gathers accepts convert (tree :: rest) (values ++ others) :=
  one.append two

theorem gathers_nil_of_kinds {trees : List Derivation}
    (none : ∀ offset made, (depictAll offset made trees).flatMap (Tree.outermost accepts) = []) :
    Gathers accepts convert trees [] := by
  intro input offset made _
  rw [none]
  exact .nil

theorem gathers_empty : Gathers accepts convert [.empty] [] :=
  gathers_nil_of_kinds fun _ _ => rfl

theorem gathers_terminal (literal : accepts .literal = false) (bytes : List UInt8) :
    Gathers accepts convert [.terminal bytes] [] :=
  gathers_nil_of_kinds fun offset made => by
    simp [depictAll, depict, Tree.outermost_eq, Tree.kind, Tree.children, literal]

theorem gathers_lineFeed (literal : accepts .literal = false)
    (endOfLine : accepts .endOfLine = false) : Gathers accepts convert [.lineFeed] [] :=
  gathers_nil_of_kinds fun offset made => by
    simp [depictAll, depict, Tree.outermost_eq, Tree.kind, Tree.children, literal, endOfLine]

theorem gathers_carriageReturn (literal : accepts .literal = false)
    (endOfLine : accepts .endOfLine = false) : Gathers accepts convert [.carriageReturn] [] :=
  gathers_nil_of_kinds fun offset made => by
    simp [depictAll, depict, Tree.outermost_eq, Tree.kind, Tree.children, literal, endOfLine]

theorem gathers_literal (literal : accepts .literal = true) {bytes : List UInt8} {value : α}
    (converts : Converts convert (.terminal bytes) value) :
    Gathers accepts convert [.terminal bytes] [value] := by
  intro input offset made places
  rw [yields, yields, List.append_nil] at places
  simp only [depictAll, depict, List.append_nil, List.flatMap_cons, List.flatMap_nil,
    Tree.outermost_eq, Tree.kind, literal, if_true]
  exact .cons (converts input offset made _ places rfl) .nil

theorem gathers_hit {id : Nat} (accepted : accepts (.rule id) = true)
    {children : List Derivation} {value : α}
    (converts : Converts convert (.rule id children) value) :
    Gathers accepts convert [.rule id children] [value] := by
  intro input offset made places
  rw [yields, yields, List.append_nil] at places
  simp only [depictAll, depict, List.append_nil, List.flatMap_cons, List.flatMap_nil,
    Tree.outermost_eq, Tree.kind, accepted, if_true]
  exact .cons (converts input offset made _ places rfl) .nil

theorem Gathers.inside {id : Nat} (passed : accepts (.rule id) = false)
    (nothing : accepts .nothing = false) {children : List Derivation} {values : List α}
    (gathers : Gathers accepts convert children values)
    (vacant : yields children = [] → values = []) :
    Gathers accepts convert [.rule id children] values := by
  intro input offset made places
  rw [yields, yields, List.append_nil, yield] at places
  simp only [depictAll, depict, List.append_nil, List.flatMap_cons, List.flatMap_nil,
    Tree.outermost_eq _ (.node _ (.rule id) _ _), Tree.kind, Tree.children, passed,
    Bool.false_eq_true, if_false]
  by_cases none : yields children = []
  · rw [if_pos none, vacant none]
    simp [Tree.outermost_eq, Tree.kind, Tree.children, nothing]
  · rw [if_neg none]
    exact gathers input offset made places

theorem converts_of_gathers {id : Nat} {children : List Derivation} {values : List α}
    (gathers : Gathers accepts convert [.rule id children] values) :
    Converts (fun input node => (node.outermost accepts).mapM (convert input))
      (.rule id children) values := by
  intro input offset made node places shown
  have found := gathers input offset made (by simpa [yields] using places)
  rw [depictAll_singleton, shown, List.flatMap_singleton] at found
  exact mapM_eq_ok_iff.mpr found

def Finds (kind : NodeKind) (convert : Array UInt8 → Tree → Except ε α) (tree : Derivation)
    (value : α) : Prop :=
  ∀ input offset made node, Places input offset tree.yield → tree.depict offset made = [node] →
    ∃ found, node.firstOfKind? kind = some found ∧ convert input found = .ok value

theorem finds_of_gathers {kind : NodeKind} {id : Nat} (other : NodeKind.rule id ≠ kind)
    {front back : List Derivation} {value : α} {values : List α}
    (gathers : Gathers (· == kind) convert front (value :: values))
    (solid : yields (front ++ back) ≠ []) :
    Finds kind convert (.rule id (front ++ back)) value := by
  intro input offset made node places shown
  rw [yield, yields_append] at places
  have passed : (NodeKind.rule id == kind) = false := beq_eq_false_iff_ne.mpr other
  rw [depict, if_neg solid] at shown
  obtain rfl := (List.cons.inj shown).1
  rw [Tree.firstOfKind?_eq_head?, Tree.outermost_eq, Tree.kind, passed, if_neg Bool.false_ne_true,
    Tree.children, depictAll_append, List.flatMap_append]
  have found := gathers input offset made places.left
  generalize (depictAll offset made front).flatMap _ = nodes at found
  cases found with
  | cons here _ => exact ⟨_, rfl, here⟩

theorem not_found_of_gathers {kind : NodeKind} {id : Nat} {children : List Derivation}
    (gathers : Gathers (· == kind) convert [.rule id children] []) (input : Array UInt8)
    (offset made : Nat) (node : Tree) (places : Places input offset (yields children))
    (shown : depict offset made (.rule id children) = [node]) :
    node.firstOfKind? kind = none := by
  have found := gathers input offset made (by simpa [yields, yield] using places)
  rw [depictAll_singleton, shown, List.flatMap_singleton] at found
  rw [Tree.firstOfKind?_eq_head?, List.forall₂_nil_right_iff.mp found]
  rfl

end Search

namespace Grammar

variable {grammar : Grammar}

def RefersTo (grammar : Grammar) (ids : List Nat) (symbols : List Symbol) : Prop :=
  ∀ id rule, grammar.rules[id]? = some rule → .nonTerminal rule.head ∈ symbols → id ∈ ids

def ClosedUnder (grammar : Grammar) (ids : List Nat) : Prop :=
  ∀ id ∈ ids, ∀ rule, grammar.rules[id]? = some rule →
    ∀ alternative ∈ rule.alternatives, grammar.RefersTo ids alternative

instance (ids : List Nat) (symbols : List Symbol) : Decidable (grammar.RefersTo ids symbols) :=
  decidable_of_iff
    (∀ pair ∈ grammar.rules.zipIdx, .nonTerminal pair.1.head ∈ symbols → pair.2 ∈ ids) <| by
    constructor
    · intro all id rule found member
      exact all (rule, id) (List.mem_zipIdx_iff_getElem?.mpr found) member
    · rintro refers ⟨rule, id⟩ listed member
      exact refers id rule (List.mem_zipIdx_iff_getElem?.mp listed) member

instance (ids : List Nat) : Decidable (grammar.ClosedUnder ids) :=
  inferInstanceAs (Decidable (∀ id ∈ ids, ∀ rule ∈ grammar.rules[id]?,
    ∀ alternative ∈ rule.alternatives, grammar.RefersTo ids alternative))

/-- A search passes over what derives from rules that it does not accept. -/
theorem Derives.gathers_nil {ids : List Nat} (closed : grammar.ClosedUnder ids)
    {ε α : Type} {convert : Array UInt8 → Tree → Except ε α} {accepts : NodeKind → Bool}
    (literal : accepts .literal = false) (endOfLine : accepts .endOfLine = false)
    (nothing : accepts .nothing = false) (passed : ∀ id ∈ ids, accepts (.rule id) = false)
    {symbols trees text} (derives : grammar.Derives symbols trees text)
    (refers : grammar.RefersTo ids symbols) : Gathers accepts convert trees [] := by
  have narrowed {symbol : Symbol} {symbols : List Symbol}
      (refers : grammar.RefersTo ids (symbol :: symbols)) : grammar.RefersTo ids symbols :=
    fun id rule found member => refers id rule found (List.mem_cons_of_mem _ member)
  induction derives with
  | nil => exact .nil
  | terminal bytes _ ih => exact (gathers_terminal literal bytes).cons (ih (narrowed refers))
  | empty _ ih => exact gathers_empty.cons (ih (narrowed refers))
  | lineFeed _ _ ih => exact (gathers_lineFeed literal endOfLine).cons (ih (narrowed refers))
  | carriageReturn _ _ ih =>
      exact (gathers_carriageReturn literal endOfLine).cons (ih (narrowed refers))
  | @rule _ _ _ id rule _ _ _ found chosen _ _ innerIh ih =>
      have inside : id ∈ ids := refers id rule found List.mem_cons_self
      have below := innerIh (closed id inside rule found _ chosen)
      exact (below.inside (passed id inside) nothing fun _ => rfl).cons (ih (narrowed refers))

end Grammar

end Lookahead
