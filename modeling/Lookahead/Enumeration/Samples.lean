import Lookahead.Enumeration.Program

/-!
Three annotated enumerations.
-/

namespace Lookahead.Samples

def productions (name : String) (texts : List String) : Variant :=
  ⟨name, .unit, texts.map fun text => ⟨"production", .text text⟩⟩

def goal (name text : String) : Variant :=
  ⟨name, .unit, [⟨"goal", .text text⟩]⟩

def assignment : Enumeration :=
  ⟨"Assignment", .enumeration, [],
    [goal "Expr" "\"A\" \"::=\" <T>", productions "T" ["\"C\"", "\"D\" <EOL>"]]⟩

def quoted : Enumeration :=
  ⟨"Quoted", .enumeration, [],
    [productions "T" ["\"B\" | \"C\" | \"\""], goal "A" "'\"' <T> \"^\""]⟩

def arithmetic : Enumeration :=
  ⟨"Arithmetic", .enumeration, [],
    [goal "Expr" "<Term> <ExprTail>",
      productions "ExprTail" ["\"\"", "\"+\" <Term> <ExprTail>", "\"-\" <Term> <ExprTail>"],
      productions "Term" ["<Factor> <TermTail>"],
      productions "TermTail"
        ["\"\"", "\"*\" <Factor> <TermTail>", "\"/\" <Factor> <TermTail>"],
      productions "Factor" ["<Number>", "\"(\" <Expr> \")\""],
      productions "Number" ["<Digit> <Digits>"],
      productions "Digits" ["\"\"", "<Digit> <Digits>"],
      productions "Digit"
        ["\"0\" | \"1\" | \"2\" | \"3\" | \"4\" | \"5\" | \"6\" | \"7\" | \"8\" | \"9\""]]⟩

def named? (name : String) : Option Enumeration :=
  [assignment, quoted, arithmetic].find? (·.name == name)

end Lookahead.Samples
