/-!
Kinds of tree nodes and the names that are shown for them.
-/

namespace Lookahead

inductive NodeKind
  | literal
  | endOfLine
  | nothing
  | rule (id : Nat)
deriving DecidableEq

namespace NodeKind

def rank : NodeKind → Nat
  | literal => 0
  | endOfLine => 1
  | nothing => 2
  | rule id => 3 + id

theorem rank_injective {left right : NodeKind} (same : left.rank = right.rank) :
    left = right := by
  cases left <;> cases right <;> simp only [rank] at same <;>
    first
    | rfl
    | omega
    | (congr 1; omega)

/-- The number shown for a kind: negative for the reserved kinds, else the number of the rule
as a signed word of 64 bits. -/
def index : NodeKind → Int
  | literal => -1
  | endOfLine => -2
  | nothing => -3
  | rule id => Int.bmod (Int.ofNat id) 18446744073709551616

/-- The kind with the given number, where rules are numbered from 0 without a bound. -/
def ofIndex? (number : Int) : Option NodeKind :=
  if number = -1 then some literal
  else if number = -2 then some endOfLine
  else if number = -3 then some nothing
  else if 0 ≤ number then some (rule number.toNat)
  else none

end NodeKind

def ruleIdDisplay (id : Nat) : String :=
  "R" ++ toString id

/-- Names of node kinds, in the order of the kinds and at most one for each. -/
structure NameMap where
  entries : List (NodeKind × String)
  ordered : entries.Pairwise fun left right => left.1.rank < right.1.rank
deriving DecidableEq

namespace NameMap

def empty : NameMap :=
  ⟨[], List.Pairwise.nil⟩

instance : Inhabited NameMap := ⟨empty⟩

def placeEntry (kind : NodeKind) (name : String) :
    List (NodeKind × String) → List (NodeKind × String)
  | [] => [(kind, name)]
  | entry :: rest =>
    if kind.rank < entry.1.rank then (kind, name) :: entry :: rest
    else if kind = entry.1 then (kind, name) :: rest
    else entry :: placeEntry kind name rest

theorem mem_placeEntry {kind : NodeKind} {name : String} {entry : NodeKind × String}
    {entries : List (NodeKind × String)} (member : entry ∈ placeEntry kind name entries) :
    entry = (kind, name) ∨ entry ∈ entries := by
  induction entries with
  | nil => simpa [placeEntry] using member
  | cons head tail ih =>
    simp only [placeEntry] at member
    split at member
    · simpa using member
    · split at member
      · rcases List.mem_cons.mp member with same | later
        · exact Or.inl same
        · exact Or.inr (List.mem_cons_of_mem _ later)
      · rcases List.mem_cons.mp member with same | later
        · exact Or.inr (same ▸ List.mem_cons_self)
        · exact (ih later).imp_right (List.mem_cons_of_mem _)

theorem ordered_placeEntry (kind : NodeKind) (name : String) (entries : List (NodeKind × String))
    (ordered : entries.Pairwise fun left right => left.1.rank < right.1.rank) :
    (placeEntry kind name entries).Pairwise fun left right => left.1.rank < right.1.rank := by
  induction entries with
  | nil => simp [placeEntry]
  | cons head tail ih =>
    rcases List.pairwise_cons.mp ordered with ⟨headFirst, tailOrdered⟩
    simp only [placeEntry]
    split
    · rename_i before
      refine List.pairwise_cons.mpr ⟨fun entry member => ?_, ordered⟩
      rcases List.mem_cons.mp member with same | later
      · exact same ▸ before
      · exact Nat.lt_trans before (headFirst entry later)
    · rename_i notBefore
      split
      · rename_i same
        exact List.pairwise_cons.mpr ⟨fun entry member => same ▸ headFirst entry member,
          tailOrdered⟩
      · rename_i different
        refine List.pairwise_cons.mpr ⟨fun entry member => ?_, ih tailOrdered⟩
        rcases mem_placeEntry member with new | old
        · subst new
          have : kind.rank ≠ head.1.rank := fun same => different (NodeKind.rank_injective same)
          show head.1.rank < kind.rank
          omega
        · exact headFirst entry old

def insert (names : NameMap) (kind : NodeKind) (name : String) : NameMap :=
  ⟨placeEntry kind name names.entries, ordered_placeEntry kind name _ names.ordered⟩

def get? (names : NameMap) (kind : NodeKind) : Option String :=
  (names.entries.find? fun entry => entry.1 == kind).map (·.2)

theorem find?_placeEntry (kind : NodeKind) (name : String) (other : NodeKind)
    (entries : List (NodeKind × String))
    (ordered : entries.Pairwise fun left right => left.1.rank < right.1.rank) :
    ((placeEntry kind name entries).find? fun entry => entry.1 == other).map (·.2) =
      if kind = other then some name
      else (entries.find? fun entry => entry.1 == other).map (·.2) := by
  induction entries with
  | nil => by_cases same : kind = other <;> simp [placeEntry, same]
  | cons head tail ih =>
    rcases List.pairwise_cons.mp ordered with ⟨_, tailOrdered⟩
    simp only [placeEntry]
    split
    · by_cases same : kind = other <;> simp [same]
    · split
      · rename_i replaced
        by_cases same : kind = other
        · simp [same]
        · simp [same, ← replaced]
      · rename_i different
        by_cases here : head.1 = other
        · have distinct : kind ≠ other := fun same => different (same.trans here.symm)
          simp [here, distinct]
        · simp only [List.find?_cons, beq_eq_false_iff_ne.mpr here]
          exact ih tailOrdered

theorem get?_insert (names : NameMap) (kind : NodeKind) (name : String) (other : NodeKind) :
    (names.insert kind name).get? other = if kind = other then some name else names.get? other :=
  find?_placeEntry kind name other names.entries names.ordered

def withBuiltins (names : NameMap) : NameMap :=
  ((names.insert .literal "_literal").insert .endOfLine "_endofline").insert .nothing "_nothing"

/-- The name of a kind; one without a name is shown by its number. -/
def nameOf (names : NameMap) (kind : NodeKind) : String :=
  (names.get? kind).getD ("Unknown_" ++ toString kind.index)

def kindOf? (names : NameMap) (name : String) : Option NodeKind :=
  (names.entries.find? fun entry => entry.2 == name).map (·.1)

def size (names : NameMap) : Nat :=
  names.entries.length

end NameMap

end Lookahead
