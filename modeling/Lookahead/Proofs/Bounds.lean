import Lookahead.Proofs.Generation
import Lookahead.Proofs.Leastness
import Mathlib.Data.Fin.Basic

/-!
Generation by bounds.  Sets that are closed under the passes of the analysis hold all that the
analysis finds, so a grammar has a table if already the claims by such sets are apart.  The
bounds are checked without running the analysis.
-/

namespace Lookahead.Resolved

variable {n : Nat} {grammar : Resolved n}

/-- Bounds for what the analysis finds, and ranks that go down along left corners. -/
structure Bounds (n : Nat) where
  nullable : Vector Bool n
  first : Vector ByteSet n
  follow : Vector ByteSet n
  rank : Vector Nat n

def apartFrom (seen : ByteSet) : List ByteSet → Bool
  | [] => true
  | set :: rest => seen.bits &&& set.bits == 0#256 && apartFrom (seen.union set) rest

theorem contains_union_left {left right : ByteSet} {byte : UInt8}
    (member : left.contains byte = true) : (left.union right).contains byte = true := by
  change (left ∪ right).contains byte = true
  simp [member]

theorem contains_union_right {left right : ByteSet} {byte : UInt8}
    (member : right.contains byte = true) : (left.union right).contains byte = true := by
  change (left ∪ right).contains byte = true
  simp [member]

theorem apart_of_apartFrom {seen : ByteSet} {sets : List ByteSet}
    (apart : apartFrom seen sets = true) :
    (∀ set ∈ sets, seen.Apart set) ∧ sets.Pairwise ByteSet.Apart := by
  induction sets generalizing seen with
  | nil => simp
  | cons set rest ih =>
      simp only [apartFrom, Bool.and_eq_true, beq_iff_eq] at apart
      obtain ⟨fromUnion, restApart⟩ := ih apart.2
      have here : seen.Apart set := by
        intro byte inSeen
        have bit := congrArg (·.getLsbD byte.toNat) apart.1
        simp only [BitVec.getLsbD_and, BitVec.getLsbD_zero, Bool.and_eq_false_iff] at bit
        rcases bit with outside | outside
        · exact absurd (inSeen.symm.trans outside) (by simp)
        · exact outside
      refine ⟨?_, List.pairwise_cons.mpr ⟨?_, restApart⟩⟩
      · intro other member
        rcases List.mem_cons.mp member with rfl | later
        · exact here
        · exact fun byte inSeen => fromUnion other later byte (contains_union_left inSeen)
      · exact fun other member byte inSet =>
          fromUnion other member byte (contains_union_right inSet)

namespace Bounds

def claims (bounds : Bounds n) (rule : Fin n) (symbols : List (ResolvedSymbol n)) :
    List ByteSet :=
  let first := firstOf bounds.first symbols
  [first.erase endOfInputByte,
    if first.contains endOfInputByte then bounds.follow.get rule else ∅]

def followClosed (bounds : Bounds n) (owner : Fin n) : List (ResolvedSymbol n) → Bool
  | [] => true
  | .rule index :: rest =>
      let ahead := firstOf bounds.first rest
      let inherited := if ahead.contains endOfInputByte then bounds.follow.get owner else ∅
      (bounds.follow.get index).isSuperset ((ahead.erase endOfInputByte).union inherited) &&
        bounds.followClosed owner rest
  | .terminal _ :: rest | .endOfLine :: rest | .empty :: rest => bounds.followClosed owner rest

def closed (bounds : Bounds n) (production : Fin n × List (ResolvedSymbol n)) : Bool :=
  (!allNullable bounds.nullable production.2 || bounds.nullable.get production.1) &&
    (bounds.first.get production.1).isSuperset (firstOf bounds.first production.2) &&
    bounds.followClosed production.1 production.2 &&
    (leadingRules bounds.nullable production.2).all fun next =>
      bounds.rank.get next < bounds.rank.get production.1

def seeded (bounds : Bounds n) (grammar : Resolved n) (rule : Fin n) : Bool :=
  (!bounds.nullable.get rule || (bounds.first.get rule).contains endOfInputByte) &&
    (rule.val != 0 || (bounds.follow.get rule).contains endOfInputByte) &&
    apartFrom ∅ ((grammar.rules.get rule).flatMap (bounds.claims rule))

def check (bounds : Bounds n) (grammar : Resolved n) : Bool :=
  grammar.productions.all bounds.closed && (List.finRange n).all (bounds.seeded grammar)

variable {bounds : Bounds n}

theorem followed_of_followClosed {owner : Fin n} {symbols : List (ResolvedSymbol n)}
    (closed : bounds.followClosed owner symbols = true) :
    Followed bounds.first bounds.follow (bounds.follow.get owner) symbols := by
  induction symbols with
  | nil => trivial
  | cons symbol rest ih =>
      cases symbol with
      | rule index =>
          simp only [followClosed, Bool.and_eq_true] at closed
          refine ⟨fun byte predicts => ?_, ih closed.2⟩
          refine (ByteSet.isSuperset_iff _ _).mp closed.1 byte ?_
          rcases predicts with ⟨begins, different⟩ | ⟨nullable, follows⟩
          · exact contains_union_left (by simp [begins, Ne.symm different])
          · exact contains_union_right (by simp [nullable, follows])
      | _ => exact ih closed

section Closed

variable (closed : ∀ production ∈ grammar.productions, bounds.closed production = true)
include closed

theorem nullable_of_closed : grammar.NullableClosed bounds.nullable := by
  intro index symbols chosen all
  have here := closed _ (mem_productions.mpr chosen)
  simp only [Bounds.closed, Bool.and_eq_true, Bool.or_eq_true, Bool.not_eq_true'] at here
  simpa [all] using here.1.1.1

theorem first_of_closed : grammar.FirstClosed bounds.first := by
  intro index symbols chosen byte member
  have here := closed _ (mem_productions.mpr chosen)
  simp only [Bounds.closed, Bool.and_eq_true] at here
  exact (ByteSet.isSuperset_iff _ _).mp here.1.1.2 byte member

theorem follow_of_closed : grammar.FollowClosed bounds.first bounds.follow := by
  intro index symbols chosen
  have here := closed _ (mem_productions.mpr chosen)
  simp only [Bounds.closed, Bool.and_eq_true] at here
  exact followed_of_followClosed here.1.2

theorem rank_of_closed {index next : Fin n} {symbols : List (ResolvedSymbol n)}
    (chosen : symbols ∈ grammar.rules.get index)
    (leading : next ∈ leadingRules bounds.nullable symbols) :
    bounds.rank.get next < bounds.rank.get index := by
  have here := closed _ (mem_productions.mpr chosen)
  simp only [Bounds.closed, Bool.and_eq_true, List.all_eq_true, decide_eq_true_eq] at here
  exact here.2 next leading

end Closed

theorem leadingRules_within {marks : Vector Bool n}
    (within : ∀ index, marks.get index = true → bounds.nullable.get index = true)
    {symbols : List (ResolvedSymbol n)} {next : Fin n}
    (leading : next ∈ leadingRules marks symbols) :
    next ∈ leadingRules bounds.nullable symbols := by
  induction symbols with
  | nil => exact leading
  | cons symbol rest ih =>
      cases symbol with
      | rule index =>
          simp only [leadingRules, List.mem_cons] at leading ⊢
          refine leading.imp_right fun later => ?_
          split at later
          · rename_i marked
            rw [if_pos (within index marked)]
            exact ih later
          · simp at later
      | _ => exact leading

theorem checkLeftRecursion_eq_ok
    (closed : ∀ production ∈ grammar.productions, bounds.closed production = true)
    (wellFormed : grammar.WellFormed) :
    grammar.checkLeftRecursion grammar.nullableRules = .ok () := by
  refine (checkLeftRecursion_eq_ok_iff wellFormed).mpr fun rule cycle => ?_
  have lower : ∀ rule next, Relation.TransGen grammar.LeftCorner rule next →
      bounds.rank.get next < bounds.rank.get rule := by
    have corner : ∀ rule next, grammar.LeftCorner rule next →
        bounds.rank.get next < bounds.rank.get rule := by
      intro rule next leads
      have leading := (mem_leftCorners_iff wellFormed rule next).mpr leads
      obtain ⟨symbols, chosen, found⟩ := List.mem_flatMap.mp leading
      exact rank_of_closed closed chosen
        (leadingRules_within (nullableRules_least (nullable_of_closed closed)) found)
    intro rule next path
    induction path with
    | single leads => exact corner _ _ leads
    | tail _ leads ih => exact (corner _ _ leads).trans ih
  exact Nat.lt_irrefl _ (lower rule rule cycle)

section Check

variable (closed : ∀ production ∈ grammar.productions, bounds.closed production = true)
  (seeded : ∀ rule, bounds.seeded grammar rule = true)
include closed seeded

theorem firstSets_within :
    Within (grammar.firstSets grammar.nullableRules) bounds.first := by
  refine firstSets_least (fun index marked => ?_) (first_of_closed closed)
  have here := seeded index
  simp only [Bounds.seeded, Bool.and_eq_true, Bool.or_eq_true, Bool.not_eq_true'] at here
  simpa [nullableRules_least (nullable_of_closed closed) index marked] using here.1.1

theorem followSets_within :
    Within (grammar.followSets (grammar.firstSets grammar.nullableRules)) bounds.follow := by
  refine followSets_least (fun index start => ?_) fun index symbols chosen =>
    (firstSets_within closed seeded).followed (follow_of_closed closed index symbols chosen)
  have here := seeded index
  simp only [Bounds.seeded, Bool.and_eq_true, Bool.or_eq_true] at here
  simpa [start] using here.1.2

end Check

theorem claims_apart (analysis : Analysis n)
    (seeded : ∀ rule, bounds.seeded analysis.grammar rule = true)
    (firstWithin : Within analysis.first bounds.first)
    (followWithin : Within analysis.follow bounds.follow) (rule : Fin n) :
    (analysis.claims rule).Pairwise fun left right => left.1.Apart right.1 := by
  have here := seeded rule
  simp only [Bounds.seeded, Bool.and_eq_true] at here
  obtain ⟨inside, across⟩ := List.pairwise_flatMap.mp (apart_of_apartFrom here.2).2
  -- Each claim of the analysis is within one of the two that the bounds make for its alternative.
  have covered : ∀ symbols, ∀ claim ∈ RowDraft.alternativeClaims analysis rule symbols,
      ∃ bound ∈ bounds.claims rule symbols,
        ∀ byte, claim.1.contains byte = true → bound.contains byte = true := by
    intro symbols claim member
    rcases List.mem_cons.mp member with rfl | follows
    · refine ⟨_, List.mem_cons_self, fun byte contains => ?_⟩
      simp only [ByteSet.contains_erase, Bool.and_eq_true] at contains ⊢
      exact ⟨firstWithin.firstOf symbols contains.1, contains.2⟩
    · split at follows
      · rename_i nullable
        obtain rfl := List.mem_singleton.mp follows
        refine ⟨_, List.mem_cons_of_mem _ List.mem_cons_self, fun byte contains => ?_⟩
        rw [if_pos (firstWithin.firstOf symbols nullable)]
        exact followWithin rule byte contains
      · simp at follows
  refine List.pairwise_flatMap.mpr ⟨fun symbols chosen => ?_, ?_⟩
  · have own := inside symbols chosen
    rw [RowDraft.alternativeClaims]
    split
    · rename_i nullable
      refine List.pairwise_pair.mpr fun byte begins => ?_
      have apart := List.pairwise_pair.mp own byte
      rw [if_pos (firstWithin.firstOf symbols nullable)] at apart
      by_contra follows
      rw [Bool.not_eq_false] at follows
      simp only [ByteSet.contains_erase, Bool.and_eq_true] at begins apart
      have outside := apart ⟨firstWithin.firstOf symbols begins.1, begins.2⟩
      simp [followWithin rule byte follows] at outside
    · exact List.pairwise_singleton _ _
  · refine across.imp fun {left right} apart claim member other otherMember byte contains => ?_
    obtain ⟨bound, boundMember, boundHolds⟩ := covered left claim member
    obtain ⟨otherBound, otherBoundMember, otherHolds⟩ := covered right other otherMember
    by_contra both
    rw [Bool.not_eq_false] at both
    have outside := apart bound boundMember otherBound otherBoundMember byte
      (boundHolds byte contains)
    simp [otherHolds byte both] at outside

def fit {grammar : Grammar} (bounds : Bounds grammar.rules.length) : Bool :=
  match grammar.resolve with
  | .ok resolved => bounds.check resolved
  | .error _ => false

/-- A grammar with bounds has a parser. -/
theorem exists_ofGrammar {grammar : Grammar} {bounds : Bounds grammar.rules.length}
    (fits : bounds.fit = true) : ∃ parser, Parser.ofGrammar grammar = .ok parser := by
  cases resolution : grammar.resolve with
  | error defect => simp [fit, resolution] at fits
  | ok resolved =>
  have checked : bounds.check resolved = true := by simpa [fit, resolution] using fits
  simp only [check, Bool.and_eq_true, List.all_eq_true] at checked
  have seeded : ∀ rule, bounds.seeded resolved rule = true := fun rule =>
    checked.2 rule (List.mem_finRange rule)
  have wellFormed := (Grammar.resolves_of_resolve_eq_ok resolution).wellFormed
  have analyzed : grammar.analyze = .ok resolved.analysis :=
    Grammar.analyze_eq_ok_iff.mpr
      ⟨resolved, resolution, checkLeftRecursion_eq_ok checked.1 wellFormed, rfl⟩
  obtain ⟨table, tabulated⟩ := Analysis.exists_table_iff.mpr
    (claims_apart resolved.analysis seeded (firstSets_within checked.1 seeded)
      (followSets_within checked.1 seeded))
  have generated : grammar.generate = .ok (table, resolved.analysis.names) :=
    Grammar.generate_eq_ok_iff.mpr ⟨resolved.analysis, analyzed, tabulated, rfl⟩
  exact ⟨_, bind_eq_ok_iff.mpr ⟨_, generated, rfl⟩⟩

end Bounds

end Lookahead.Resolved
