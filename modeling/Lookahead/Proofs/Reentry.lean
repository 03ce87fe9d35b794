import Lookahead.Proofs.Simulation

/-!
The machine never meets an open rule again while it runs a generated table.  The rules that are
open at an offset lead to whatever is invoked there by left corners, and no rule leads to itself.
-/

namespace Lookahead

variable {n : Nat} {analysis : Analysis n}

def Operand.Sane (rules offset : Nat) : Operand → Prop
  | .invoke (.rule id) => id < rules
  | .matchLiteral bytes => bytes ≠ [] ∧ endOfInputByte ∉ bytes
  | .matchByte byte => byte ≠ endOfInputByte
  | .reduce _ start _ => start ≤ offset
  | .invoke .endOfLine | .endOfInput => True

theorem Operand.Sane.mono {rules low high : Nat} {operand : Operand}
    (sane : operand.Sane rules low) (le : low ≤ high) : operand.Sane rules high := by
  unfold Sane at *
  split <;> simp_all
  omega

theorem sane_operands {symbols : List (ResolvedSymbol n)}
    (proper : Resolved.Proper symbols) (offset : Nat) :
    ∀ operand ∈ operands symbols, operand.Sane n offset := by
  induction symbols with
  | nil => simp [operands]
  | cons symbol rest ih =>
      cases symbol with
      | terminal bytes =>
          simp only [operands_terminal, List.forall_mem_cons]
          exact ⟨⟨proper.1, proper.2.1⟩, ih proper.2.2⟩
      | empty =>
          obtain rfl : rest = [] := proper
          exact ih trivial
      | endOfLine =>
          simp only [operands_endOfLine, List.forall_mem_cons]
          exact ⟨trivial, ih proper⟩
      | rule index =>
          simp only [operands_rule, List.forall_mem_cons]
          exact ⟨index.isLt, ih proper⟩

namespace Machine

variable {machine : Machine}

def LeadsTo (grammar : Resolved n) (outer inner : Nat) : Prop :=
  ∃ left right : Fin n, left.val = outer ∧ right.val = inner ∧
    Relation.TransGen grammar.LeftCorner left right

/-- Whatever can be invoked before the next byte is led to by all rules that are open there. -/
def Ordered (machine : Machine) (grammar : Resolved n) (offset : Nat) : List Operand → Prop
  | [] => True
  | .invoke (.rule id) :: below =>
      (∀ outer ∈ machine.openRules offset below, LeadsTo grammar outer id) ∧
        ((∃ index : Fin n, index.val = id ∧ grammar.Nullable [.rule index]) →
          Ordered machine grammar offset below)
  | .reduce .. :: below => Ordered machine grammar offset below
  | .invoke .endOfLine :: _ | .matchLiteral _ :: _ | .matchByte _ :: _ | .endOfInput :: _ => True

theorem openRules_eq_nil {offset : Nat} (within : offset ≤ machine.input.size)
    {operands : List Operand}
    (earlier : ∀ kind start count, .reduce kind start count ∈ operands → start < offset) :
    machine.openRules offset operands = [] := by
  induction operands with
  | nil => rfl
  | cons operand below ih =>
      have rest := ih fun kind start count member =>
        earlier kind start count (List.mem_cons_of_mem _ member)
      cases operand with
      | reduce kind start count =>
          have before := earlier kind start count List.mem_cons_self
          have different : machine.clamp start ≠ machine.clamp offset := by
            simp only [clamp]
            omega
          unfold openRules
          rw [if_neg different]
      | _ => exact rest

theorem ordered_of_earlier {grammar : Resolved n} {offset : Nat}
    (within : offset ≤ machine.input.size) {operands : List Operand}
    (earlier : ∀ kind start count, .reduce kind start count ∈ operands → start < offset) :
    machine.Ordered grammar offset operands := by
  induction operands with
  | nil => trivial
  | cons operand below ih =>
      have belowEarlier : ∀ kind start count, .reduce kind start count ∈ below → start < offset :=
        fun kind start count member => earlier kind start count (List.mem_cons_of_mem _ member)
      cases operand with
      | invoke callee =>
          cases callee with
          | rule id =>
              refine ⟨?_, fun _ => ih belowEarlier⟩
              rw [openRules_eq_nil within belowEarlier]
              simp
          | endOfLine => trivial
      | reduce kind start count => exact ih belowEarlier
      | matchLiteral bytes => trivial
      | endOfInput => trivial
      | matchByte byte => trivial

/-- The operands of an alternative are in order above the reduction of their rule.  The induction
goes along the alternative, whose part before is what may be skipped without a byte. -/
theorem ordered_operands {grammar : Resolved n} (index : Fin n) {offset count : Nat}
    {below : List Operand}
    (leads : ∀ outer ∈ machine.openRules offset below, LeadsTo grammar outer index.val)
    (before : List (ResolvedSymbol n)) {after : List (ResolvedSymbol n)}
    (chosen : before ++ after ∈ grammar.rules.get index)
    (skipped : grammar.Nullable before)
    (ordered : grammar.Nullable after → machine.Ordered grammar offset below) :
    machine.Ordered grammar offset
      (operands after ++ .reduce (.rule index.val) offset count :: below) := by
  induction after generalizing before with
  | nil => exact ordered ⟨[], .nil⟩
  | cons symbol after ih =>
      have regrouped : before ++ [symbol] ++ after ∈ grammar.rules.get index := by
        simpa using chosen
      cases symbol with
      | terminal bytes => trivial
      | endOfLine => trivial
      | empty =>
          have vacant : grammar.Nullable [.empty] := ⟨[.empty], .empty .nil⟩
          exact ih _ regrouped (skipped.append vacant) fun nullable =>
            ordered (vacant.append nullable)
      | rule next =>
          have plain : ∀ operand ∈ operands after, isPlain operand = true := by
            intro operand member
            obtain ⟨operation, _, rfl⟩ := List.mem_map.mp member
            exact isPlain_operand operation
          have opened : machine.openRules offset
                (operands after ++ .reduce (.rule index.val) offset count :: below) =
              index.val :: machine.openRules offset below := by
            rw [machine.openRules_append_plain offset _ _ plain, openRules, if_pos rfl]
          rw [operands_rule, List.cons_append]
          refine ⟨?_, ?_⟩
          · rw [opened]
            have corner : grammar.LeftCorner index next := ⟨before, after, chosen, skipped⟩
            intro outer member
            rcases List.mem_cons.mp member with rfl | earlier
            · exact ⟨index, next, rfl, rfl, .single corner⟩
            · obtain ⟨left, right, outerIs, innerIs, path⟩ := leads outer earlier
              obtain rfl := Fin.ext innerIs
              exact ⟨left, next, outerIs, rfl, path.tail corner⟩
          · rintro ⟨same, sameIs, vacant⟩
            obtain rfl := Fin.ext sameIs
            exact ih _ regrouped (skipped.append vacant) fun nullable =>
              ordered (vacant.append nullable)

structure Healthy (machine : Machine) (analysis : Analysis n) (state : MachineState) : Prop where
  within : state.offset ≤ machine.input.size
  sane : ∀ operand ∈ state.operands, operand.Sane n state.offset
  ordered : machine.Ordered analysis.grammar state.offset state.operands

theorem healthy_initial (positive : 0 < n) (machine : Machine) :
    machine.Healthy analysis initial := by
  refine ⟨Nat.zero_le _, ?_, ?_⟩
  · simpa [initial, Operand.Sane] using positive
  · exact ⟨by simp [openRules], fun _ => trivial⟩

theorem lt_size_of_lookahead {offset : Nat} {byte : UInt8}
    (ahead : machine.lookahead offset = byte) (proper : byte ≠ endOfInputByte) :
    offset < machine.input.size := by
  by_contra beyond
  rw [lookahead, Array.getElem?_eq_none (by omega)] at ahead
  exact proper ahead.symm

theorem Healthy.sane_top {offset : Nat} {operand : Operand} {below : List Operand}
    {productions : List Production} {made : Nat}
    (healthy : machine.Healthy analysis ⟨offset, operand :: below, productions, made⟩) :
    operand.Sane n offset :=
  healthy.sane operand List.mem_cons_self

theorem Healthy.sane_below {offset : Nat} {operand : Operand} {below : List Operand}
    {productions : List Production} {made : Nat}
    (healthy : machine.Healthy analysis ⟨offset, operand :: below, productions, made⟩) :
    ∀ other ∈ below, other.Sane n offset := fun other member =>
  healthy.sane other (List.mem_cons_of_mem _ member)

theorem Healthy.expand {offset : Nat} {operand : Operand} {below : List Operand}
    {productions : List Production} {made : Nat}
    (healthy : machine.Healthy analysis ⟨offset, operand :: below, productions, made⟩)
    (added : List Operand) {kind : NodeKind} {count : Nat}
    (sane : ∀ other ∈ added, other.Sane n offset)
    (ordered : machine.Ordered analysis.grammar offset
      (added ++ .reduce kind offset count :: below)) :
    machine.Healthy analysis ⟨offset, added ++ .reduce kind offset count :: below, productions,
      made⟩ := by
  refine ⟨healthy.within, ?_, ordered⟩
  intro other member
  rcases List.mem_append.mp member with new | old
  · exact sane other new
  · rcases List.mem_cons.mp old with rfl | later
    · exact Nat.le_refl offset
    · exact healthy.sane_below other later

theorem Healthy.reduced {offset : Nat} {kind : NodeKind} {start count : Nat}
    {below : List Operand} {productions others : List Production} {made now : Nat}
    (healthy : machine.Healthy analysis
      ⟨offset, .reduce kind start count :: below, productions, made⟩) :
    machine.Healthy analysis ⟨offset, below, others, now⟩ :=
  ⟨healthy.within, healthy.sane_below, healthy.ordered⟩

theorem Healthy.moves (sound : analysis.Sound) (realizes : machine.table.Realizes analysis)
    {state next : MachineState} (healthy : machine.Healthy analysis state)
    (moves : machine.Moves state next) : machine.Healthy analysis next := by
  cases moves with
  | lineFeed ahead =>
      exact healthy.expand [.matchLiteral [10]]
        (by simp [Operand.Sane, endOfInputByte]) trivial
  | carriageReturn ahead =>
      exact healthy.expand [.matchLiteral [13], .matchLiteral [10]]
        (by simp [Operand.Sane, endOfInputByte]) trivial
  | @rule offset id below productions made row operations present found =>
      have bound : id < n := healthy.sane_top
      obtain ⟨leads, vacant⟩ := healthy.ordered
      obtain ⟨symbols, chosen, taken⟩ :=
        (realizes.lookup_iff ⟨id, bound⟩ present).mp found
      have proper := sound.wellFormed _ symbols chosen
      rcases taken with ⟨_, _, rfl⟩ | ⟨marked, _, rfl⟩
      · refine healthy.expand _ (sane_operands proper offset) ?_
        refine ordered_operands ⟨id, bound⟩ leads [] chosen ⟨[], .nil⟩ ?_
        intro nullable
        exact vacant ⟨⟨id, bound⟩, rfl, Resolved.nullable_rule_of_alternative chosen nullable⟩
      · refine healthy.expand [] (by simp) ?_
        have nullable := Resolved.nullable_of_contains_firstOf sound.first_marks proper marked
        exact vacant ⟨⟨id, bound⟩, rfl, Resolved.nullable_rule_of_alternative chosen nullable⟩
  | @literal offset bytes below productions made =>
      obtain ⟨nonempty, unreserved⟩ : bytes ≠ [] ∧ endOfInputByte ∉ bytes := healthy.sane_top
      refine healthy.expand _ ?_ ?_
      · intro other member
        obtain ⟨byte, inside, rfl⟩ := List.mem_map.mp member
        exact fun reserved => unreserved (reserved ▸ inside)
      · obtain ⟨byte, rest, rfl⟩ := List.exists_cons_of_ne_nil nonempty
        trivial
  | @byte offset byte below productions made ahead =>
      have inside := lt_size_of_lookahead ahead healthy.sane_top
      refine ⟨inside, fun other member => ?_, ?_⟩
      · exact (healthy.sane_below other member).mono (Nat.le_succ offset)
      · refine ordered_of_earlier inside fun kind start count member => ?_
        exact Nat.lt_succ_of_le (healthy.sane_below _ member)
  | reduceLiteral => exact healthy.reduced
  | reduceNothing inner => exact healthy.reduced
  | reduceTrees inner nonempty => exact healthy.reduced

theorem Healthy.steps (sound : analysis.Sound) (realizes : machine.table.Realizes analysis)
    {state last : MachineState} (healthy : machine.Healthy analysis state)
    (steps : machine.Steps state last) : machine.Healthy analysis last := by
  induction steps with
  | refl => exact healthy
  | tail _ moves ih => exact ih.moves sound realizes moves

theorem Healthy.not_reenters (sound : analysis.Sound) {state : MachineState}
    (healthy : machine.Healthy analysis state) : machine.reenters state = false := by
  rw [reenters]
  split
  · rename_i id below same
    have ordered := same ▸ healthy.ordered
    by_contra met
    rw [Bool.not_eq_false, List.contains_iff_mem] at met
    obtain ⟨left, right, leftIs, rightIs, cycle⟩ := ordered.1 id met
    obtain rfl := Fin.ext (leftIs.trans rightIs.symm)
    exact sound.acyclic left cycle
  · rfl

end Machine

end Lookahead
