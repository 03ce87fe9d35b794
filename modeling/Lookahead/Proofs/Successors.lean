import Lookahead.Proofs.Beginnings
import Lookahead.Proofs.OrderIndependence

/-!
FOLLOW sets are exact.  They are closed, so they hold what comes after a rule in a form of any
rule; and the bytes that come after rules in forms are closed as well, so the least sets hold
nothing else.
-/

namespace Lookahead

theorem Resolved.contains_of_followed {n : Nat} {first follow : Vector ByteSet n}
    {after : ByteSet} {index : Fin n} {front back : List (ResolvedSymbol n)} {byte : UInt8}
    (followed : Followed first follow after (front ++ .rule index :: back))
    (predicts : Predicts first after back byte) :
    (follow.get index).contains byte = true := by
  induction front with
  | nil => exact followed.1 byte predicts
  | cons symbol front ih =>
      cases symbol with
      | rule => exact ih followed.2
      | terminal | endOfLine | empty => exact ih followed

namespace Grammar

/-- Some rule has a form in which the named one stands right before the byte. -/
def FollowedBy (grammar : Grammar) (head : String) (byte : UInt8) : Prop :=
  ∃ rule ∈ grammar.rules, ∃ front symbol back,
    grammar.Rewrites [.nonterminal rule.head] (front ++ .nonterminal head :: symbol :: back) ∧
      grammar.Leads symbol byte

/-- The start rule has a form that ends in the named one. -/
def EndsForm (grammar : Grammar) (head : String) : Prop :=
  ∃ start, grammar.startRule? = some start ∧
    ∃ front, grammar.Rewrites [.nonterminal start.head] (front ++ [.nonterminal head])

/-- What a FOLLOW set stands for: the bytes that can come after a rule, and the reserved byte
where the input may end after it. -/
def HasFollow (grammar : Grammar) (head : String) (byte : UInt8) : Prop :=
  (byte ≠ endOfInputByte ∧ grammar.FollowedBy head byte) ∨
    (byte = endOfInputByte ∧ grammar.EndsForm head)

variable {grammar : Grammar}

theorem hasFollow_of_begins {rule : Rule} (member : rule ∈ grammar.rules) {head : String}
    {front rest : List ByteSymbol}
    (rewrites : grammar.Rewrites [.nonterminal rule.head] (front ++ .nonterminal head :: rest))
    {byte : UInt8} (different : byte ≠ endOfInputByte) (begins : grammar.Begins rest byte) :
    grammar.HasFollow head byte := by
  obtain ⟨symbol, back, later, leads⟩ := begins
  refine Or.inl ⟨different, rule, member, front, symbol, back, rewrites.trans ?_, leads⟩
  have shifted := later.within (front ++ [.nonterminal head]) []
  simpa using shifted

theorem HasFollow.inherit {owner head : String} {front : List ByteSymbol}
    (rewrites : grammar.Rewrites [.nonterminal owner] (front ++ [.nonterminal head]))
    {byte : UInt8} (has : grammar.HasFollow owner byte) : grammar.HasFollow head byte := by
  rcases has with ⟨different, rule, member, before, symbol, back, form, leads⟩ |
    ⟨same, start, first, before, form⟩
  · have inside := rewrites.within before (symbol :: back)
    exact Or.inl ⟨different, rule, member, before ++ front, symbol, back,
      form.trans (by simpa using inside), leads⟩
  · have inside := rewrites.within before []
    exact Or.inr ⟨same, start, first, before ++ front, form.trans (by simpa using inside)⟩

namespace Resolves

variable {resolved : Resolved grammar.rules.length} {alternative : Alternative}
  {symbols : List (ResolvedSymbol grammar.rules.length)}

/-- By induction on what is left of an alternative of the owner; `front` is what stands before. -/
theorem followed_setsOf (resolves : grammar.Resolves resolved)
    (owner : Fin grammar.rules.length)
    (symbolwise : List.Forall₂ grammar.ResolvesTo alternative symbols)
    (proper : Resolved.Proper symbols) (front : List ByteSymbol)
    (rewrites : grammar.Rewrites [.nonterminal (grammar.rules.get owner).head]
      (front ++ alternative.flatMap Symbol.form)) :
    Resolved.Followed resolved.analysis.first
      (setsOf fun index => grammar.HasFollow (grammar.rules.get index).head)
      ((setsOf fun index => grammar.HasFollow (grammar.rules.get index).head).get owner)
      symbols := by
  induction symbolwise generalizing front with
  | nil => trivial
  | @cons symbol _ alternative symbols here later ih =>
      have onward (proper : Resolved.Proper symbols) :=
        ih proper (front ++ symbol.form) (by simpa using rewrites)
      cases here with
      | terminal => exact onward proper.2.2
      | endOfLine => exact onward proper
      | empty =>
          obtain rfl : symbols = [] := proper
          trivial
      | rule index =>
          refine ⟨fun byte predicts => contains_get_setsOf.mpr ?_, onward proper⟩
          rcases predicts with ⟨begins, different⟩ | ⟨vanishes, follows⟩
          · rcases (resolves.contains_firstOf_iff later proper byte).mp begins with
              ⟨_, starts⟩ | ⟨same, _⟩
            · exact hasFollow_of_begins (List.getElem_mem owner.isLt) rewrites different starts
            · exact absurd same different
          · rcases (resolves.contains_firstOf_iff later proper _).mp vanishes with
              ⟨different, _⟩ | ⟨_, nothing⟩
            · exact absurd rfl different
            · have shorter :=
                nothing.within (front ++ [.nonterminal (grammar.rules.get index).head]) []
              have ends : grammar.Rewrites [.nonterminal (grammar.rules.get owner).head]
                  (front ++ [.nonterminal (grammar.rules.get index).head]) :=
                rewrites.trans (by simpa [Symbol.form] using shorter)
              exact (contains_get_setsOf.mp follows).inherit ends

theorem hasFollow_of_contains_followSets (resolves : grammar.Resolves resolved)
    (index : Fin grammar.rules.length) (byte : UInt8)
    (contains : (resolved.analysis.follow.get index).contains byte = true) :
    grammar.HasFollow (grammar.rules.get index).head byte := by
  -- As for the FIRST sets: what truly comes after the rules is closed and holds the seed.
  let bound := setsOf fun (index : Fin grammar.rules.length) =>
    grammar.HasFollow (grammar.rules.get index).head
  have seeded (rule : Fin grammar.rules.length) (start : rule.val = 0) :
      (bound.get rule).contains endOfInputByte = true := by
    refine contains_get_setsOf.mpr (Or.inr ⟨rfl, (grammar.rules.get rule), ?_, [], .refl _⟩)
    rw [startRule?, List.head?_eq_getElem?, ← start]
    exact List.getElem?_eq_getElem rule.isLt
  have closed : resolved.FollowClosed resolved.analysis.first bound := by
    intro owner symbols chosen
    obtain ⟨alternative, symbolwise, rewrites⟩ := resolves.exists_alternative_of_chosen chosen
    exact resolves.followed_setsOf owner symbolwise (resolves.wellFormed owner symbols chosen) []
      rewrites
  exact contains_get_setsOf.mp (Resolved.followSets_least seeded closed index byte contains)

theorem contains_follow_of_rewrites (resolves : grammar.Resolves resolved)
    {owner index : Fin grammar.rules.length} {after : ByteSet} {front back : List ByteSymbol}
    (within : ∀ byte, after.contains byte = true →
      (resolved.analysis.follow.get owner).contains byte = true)
    (rewrites : grammar.Rewrites [.nonterminal (grammar.rules.get owner).head]
      (front ++ .nonterminal (grammar.rules.get index).head :: back)) {byte : UInt8}
    (predicts : Resolved.Predicts resolved.analysis.first after (grammar.resolveForm back) byte) :
    (resolved.analysis.follow.get index).contains byte = true := by
  have alone : Resolved.Followed resolved.analysis.first resolved.analysis.follow after
      (grammar.resolveForm [.nonterminal (grammar.rules.get owner).head]) := by
    rw [resolveForm, List.map_singleton, resolveByteSymbol_head resolves.heads_nodup owner]
    refine ⟨fun byte predicts => ?_, trivial⟩
    rcases predicts with ⟨begins, different⟩ | ⟨_, follows⟩
    · exact absurd ((Resolved.contains_firstOf_nil byte).mp begins) different
    · exact within byte follows
  have whole := resolves.followed_of_rewrites (resolved.firstClosed_firstSets _)
    (resolved.followClosed_followSets _) rewrites alone
  rw [resolveForm, List.map_append, List.map_cons,
    resolveByteSymbol_head resolves.heads_nodup index] at whole
  exact Resolved.contains_of_followed whole predicts

theorem contains_follow_iff (resolves : grammar.Resolves resolved)
    (index : Fin grammar.rules.length) (byte : UInt8) :
    (resolved.analysis.follow.get index).contains byte = true ↔
      grammar.HasFollow (grammar.rules.get index).head byte := by
  refine ⟨resolves.hasFollow_of_contains_followSets index byte, ?_⟩
  rintro (⟨different, rule, member, front, symbol, back, rewrites, leads⟩ |
    ⟨rfl, start, first, front, rewrites⟩)
  · obtain ⟨owner, rfl⟩ := List.mem_iff_get.mp member
    have nothing (byte : UInt8) (inside : (∅ : ByteSet).contains byte = true) :
        (resolved.analysis.follow.get owner).contains byte = true := by simp at inside
    exact resolves.contains_follow_of_rewrites nothing rewrites
      (Or.inl ⟨contains_firstOf_of_leads leads, different⟩)
  · rw [startRule?, List.head?_eq_getElem?] at first
    obtain ⟨positive, rfl⟩ := List.getElem?_eq_some_iff.mp first
    have ends : (resolved.analysis.follow.get ⟨0, positive⟩).contains endOfInputByte = true :=
      resolved.followSets_start _ rfl
    exact resolves.contains_follow_of_rewrites (fun _ => id) rewrites (Or.inr ⟨by simp, ends⟩)

end Resolves

/-- FOLLOW of a rule holds the bytes that can come after it in a form of any rule, and the reserved
byte where a form of the start rule can end in it, as it does in the start rule itself. -/
theorem follow_sets_are_exact {analysis : Analysis grammar.rules.length}
    (analyzed : grammar.analyze = .ok analysis) (index : Fin grammar.rules.length) :
    (∀ byte, byte ≠ endOfInputByte → ((analysis.follow.get index).contains byte = true ↔
      grammar.FollowedBy (grammar.rules.get index).head byte)) ∧
    ((analysis.follow.get index).contains endOfInputByte = true ↔
      grammar.EndsForm (grammar.rules.get index).head) ∧
    (index.val = 0 → (analysis.follow.get index).contains endOfInputByte = true) := by
  obtain ⟨resolved, resolution, _, rfl⟩ := analyze_eq_ok_iff.mp analyzed
  have resolves := resolves_of_resolve_eq_ok resolution
  refine ⟨fun byte different => ?_, ?_, resolved.followSets_start _⟩
  · rw [resolves.contains_follow_iff, HasFollow]
    simp [different]
  · rw [resolves.contains_follow_iff, HasFollow]
    simp

theorem letterPairs_follow_sets :
    ∃ analysis, letterPairs.analyze = .ok analysis ∧
      (analysis.follow.get ⟨0, by decide⟩).contains endOfInputByte = true ∧
      (analysis.follow.get ⟨1, by decide⟩).contains 99 = true ∧
      (analysis.follow.get ⟨2, by decide⟩).contains endOfInputByte = true := by
  obtain ⟨parser, success⟩ := exists_ofGrammar_letterPairs
  obtain ⟨⟨table, names⟩, generated, _⟩ := bind_eq_ok_iff.mp success
  obtain ⟨analysis, analyzed, _⟩ := generate_eq_ok_iff.mp generated
  have pair : letterPairs.Rewrites [.nonterminal "pair"]
      [.nonterminal "front", .nonterminal "back"] := rewrites_of_mem (by decide)
  have back : letterPairs.Rewrites [.nonterminal "back"] [.terminal 99] :=
    rewrites_of_mem (by decide)
  have letter : letterPairs.Rewrites [.nonterminal "pair"] [.nonterminal "front", .terminal 99] :=
    pair.trans (back.within [.nonterminal "front"] [])
  exact ⟨analysis, analyzed, (follow_sets_are_exact analyzed ⟨0, by decide⟩).2.2 rfl,
    ((follow_sets_are_exact analyzed ⟨1, by decide⟩).1 99 (by decide)).mpr
      ⟨_, List.mem_cons_self, [], _, [], letter, .byte 99⟩,
    (follow_sets_are_exact analyzed ⟨2, by decide⟩).2.1.mpr
      ⟨_, rfl, [.nonterminal "front"], pair⟩⟩

end Grammar

end Lookahead
