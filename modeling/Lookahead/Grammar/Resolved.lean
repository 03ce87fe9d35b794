import Lookahead.Grammar.Error

/-!
Grammars whose references are resolved.  `Resolved n` has `n` rules and every reference in it is
a number below `n`, so no later stage can meet an unknown rule.
-/

namespace Lookahead

inductive ResolvedSymbol (n : Nat)
  | terminal (bytes : List UInt8)
  | rule (index : Fin n)
  | endOfLine
  | empty
deriving DecidableEq

structure Resolved (n : Nat) where
  heads : Vector String n
  rules : Vector (List (List (ResolvedSymbol n))) n

namespace Resolved

def productions {n : Nat} (grammar : Resolved n) :
    List (Fin n × List (ResolvedSymbol n)) :=
  (List.finRange n).flatMap fun rule => (grammar.rules.get rule).map fun symbols => (rule, symbols)

end Resolved

namespace Grammar

def duplicateHead? (seen : List String) : List Rule → Option String
  | [] => none
  | rule :: rest =>
    if seen.contains rule.head then some rule.head
    else duplicateHead? (rule.head :: seen) rest

/-- Resolves a symbol of the rule with the given head.  A rule named as the built-in line
terminator takes its place. -/
def resolveSymbol (grammar : Grammar) (head : String) :
    Symbol → Except GrammarError (ResolvedSymbol grammar.rules.length)
  | .terminal bytes =>
    if bytes.isEmpty || bytes.contains endOfInputByte then .error (.invalidTerminal head)
    else .ok (.terminal bytes)
  | .nonTerminal name =>
    match grammar.rules.findFinIdx? (·.head == name) with
    | some index => .ok (.rule index)
    | none =>
      if name == endOfLineName then .ok .endOfLine else .error (.undefinedNonTerminal name)
  | .empty => .ok .empty

def resolveAlternative (grammar : Grammar) (head : String) (alternative : Alternative) :
    Except GrammarError (List (ResolvedSymbol grammar.rules.length)) :=
  if alternative.isEmpty then .error (.emptyAlternative head)
  else if 1 < alternative.length && alternative.any Symbol.isEmpty then
    .error (.emptySequenceInAlternation head)
  else alternative.mapM (grammar.resolveSymbol head)

def resolveRule (grammar : Grammar) (rule : Rule) :
    Except GrammarError (List (List (ResolvedSymbol grammar.rules.length))) :=
  if rule.alternatives.isEmpty then .error (.emptyAlternative rule.head)
  else rule.alternatives.mapM (grammar.resolveAlternative rule.head)

end Grammar

theorem length_of_mapM_eq_ok {ε α β : Type} (convert : α → Except ε β) :
    ∀ (items : List α) (results : List β), items.mapM convert = .ok results →
      results.length = items.length := by
  intro items
  induction items with
  | nil =>
    intro results success
    simp only [List.mapM_nil, pure, Except.pure, Except.ok.injEq] at success
    simp [← success]
  | cons item rest ih =>
    intro results success
    simp only [List.mapM_cons, bind, Except.bind] at success
    split at success
    · simp at success
    · split at success
      · simp at success
      · rename_i tail tailEq
        simp only [pure, Except.pure, Except.ok.injEq] at success
        simp [← success, ih tail tailEq]

namespace Grammar

/-- Checks a grammar and resolves its references.  A repeated head is reported before any other
defect; the other defects are reported in the order of the rules. -/
def resolve (grammar : Grammar) : Except GrammarError (Resolved grammar.rules.length) :=
  match duplicateHead? [] grammar.rules with
  | some head => .error (.duplicateRule head)
  | none =>
    match found : grammar.rules.mapM grammar.resolveRule with
    | .error defect => .error defect
    | .ok rules =>
      .ok
        { heads := ⟨(grammar.rules.map Rule.head).toArray, by simp⟩
          rules := ⟨rules.toArray, by
            simpa using length_of_mapM_eq_ok grammar.resolveRule grammar.rules rules found⟩ }

end Grammar

end Lookahead
