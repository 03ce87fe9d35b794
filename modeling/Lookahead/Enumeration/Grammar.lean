import Lookahead.Bnf.Load
import Lookahead.Enumeration.Basic

/-!
The grammar of an annotated enumeration.
-/

namespace Lookahead

namespace AnnotatedVariant

def line (variant : AnnotatedVariant) (alternatives : String) : String :=
  bracketed variant.name ++ " ::= " ++ alternatives

/-- The rule of a variant as a line, after each of its texts was loaded alone. -/
def checkedLine (variant : AnnotatedVariant) : Except EnumerationError String := do
  variant.texts.forM fun text => do
    let _ ← (Grammar.load (variant.line text)).mapError .load
  return variant.line (" | ".intercalate variant.texts)

end AnnotatedVariant

namespace Enumeration

def grammar (enumeration : Enumeration) : Except EnumerationError Grammar := do
  let variants ← goalFirst (← enumeration.annotated)
  let lines ← variants.mapM AnnotatedVariant.checkedLine
  (Grammar.load ("\n".intercalate lines)).mapError .load

def generate (enumeration : Enumeration) :
    Except EnumerationError (Grammar × Table × NameMap) := do
  let grammar ← enumeration.grammar
  let (table, names) ← grammar.generate.mapError .generation
  return (grammar, table, names)

end Enumeration

end Lookahead
