import Lookahead.Grammar.Basic
import Mathlib.Data.List.Nodup

/-!
Derivation trees of a grammar, with the byte strings that they derive.
-/

namespace Lookahead

inductive Derivation
  | terminal (bytes : List UInt8)
  | empty
  | lineFeed
  | carriageReturn
  | rule (id : Nat) (children : List Derivation)

namespace Derivation

mutual

def yield : Derivation → List UInt8
  | terminal bytes => bytes
  | empty => []
  | lineFeed => [10]
  | carriageReturn => [13, 10]
  | rule _ children => yields children

def yields : List Derivation → List UInt8
  | [] => []
  | tree :: rest => tree.yield ++ yields rest

end

end Derivation

/-- The trees derive the text from the symbols, one tree for each symbol.  A name that no rule
has stands for the built-in line terminator if it is its name. -/
inductive Grammar.Derives (grammar : Grammar) :
    List Symbol → List Derivation → List UInt8 → Prop
  | nil : Derives grammar [] [] []
  | terminal {symbols trees text} (bytes : List UInt8) :
      Derives grammar symbols trees text →
      Derives grammar (.terminal bytes :: symbols) (.terminal bytes :: trees) (bytes ++ text)
  | empty {symbols trees text} : Derives grammar symbols trees text →
      Derives grammar (.empty :: symbols) (.empty :: trees) text
  | lineFeed {symbols trees text} : grammar.rule? endOfLineName = none →
      Derives grammar symbols trees text →
      Derives grammar (.nonTerminal endOfLineName :: symbols) (.lineFeed :: trees) (10 :: text)
  | carriageReturn {symbols trees text} : grammar.rule? endOfLineName = none →
      Derives grammar symbols trees text →
      Derives grammar (.nonTerminal endOfLineName :: symbols) (.carriageReturn :: trees)
        (13 :: 10 :: text)
  | rule {symbols trees text id rule alternative children inner} :
      grammar.rules[id]? = some rule → alternative ∈ rule.alternatives →
      Derives grammar alternative children inner → Derives grammar symbols trees text →
      Derives grammar (.nonTerminal rule.head :: symbols) (.rule id children :: trees)
        (inner ++ text)

namespace Grammar

variable {grammar : Grammar}

theorem Derives.yields_eq {symbols trees text} (derives : grammar.Derives symbols trees text) :
    Derivation.yields trees = text := by
  induction derives with
  | nil => rfl
  | terminal bytes _ ih => simp [Derivation.yields, Derivation.yield, ih]
  | empty _ ih => simp [Derivation.yields, Derivation.yield, ih]
  | lineFeed _ _ ih => simp [Derivation.yields, Derivation.yield, ih]
  | carriageReturn _ _ ih => simp [Derivation.yields, Derivation.yield, ih]
  | rule _ _ _ _ innerIh ih => simp [Derivation.yields, Derivation.yield, innerIh, ih]

theorem eq_of_head_eq (distinct : (grammar.rules.map Rule.head).Nodup) {left right : Nat}
    {rule other : Rule} (leftFound : grammar.rules[left]? = some rule)
    (rightFound : grammar.rules[right]? = some other) (same : rule.head = other.head) :
    left = right := by
  obtain ⟨leftBound, rfl⟩ := List.getElem?_eq_some_iff.mp leftFound
  obtain ⟨rightBound, rfl⟩ := List.getElem?_eq_some_iff.mp rightFound
  rw [← List.length_map Rule.head] at leftBound rightBound
  have heads : (grammar.rules.map Rule.head)[left] = (grammar.rules.map Rule.head)[right] := by
    simpa using same
  exact (List.Nodup.getElem_inj_iff distinct).mp heads

theorem Derives.append {left right leftTrees rightTrees leftText rightText}
    (one : grammar.Derives left leftTrees leftText)
    (two : grammar.Derives right rightTrees rightText) :
    grammar.Derives (left ++ right) (leftTrees ++ rightTrees) (leftText ++ rightText) := by
  induction one with
  | nil => exact two
  | terminal bytes _ ih => simpa using Derives.terminal bytes ih
  | empty _ ih => exact Derives.empty ih
  | lineFeed builtin _ ih => exact Derives.lineFeed builtin ih
  | carriageReturn builtin _ ih => exact Derives.carriageReturn builtin ih
  | rule found chosen inner _ _ ih => simpa using Derives.rule found chosen inner ih

end Grammar

end Lookahead
