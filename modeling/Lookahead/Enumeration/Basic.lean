import Lookahead.Bnf.Error
import Lookahead.Error

/-!
Enumerations annotated with a grammar: each variant names a rule and its markers give the
alternatives, one of the variants being the goal.
-/

namespace Lookahead

inductive ItemKind
  | enumeration
  | record
  | union
deriving DecidableEq

inductive VariantFields
  | unit
  | tuple
  | named
deriving DecidableEq

inductive MarkerArgument
  | text (value : String)
  | otherLiteral
  | missing
deriving DecidableEq

structure Marker where
  name : String
  argument : MarkerArgument
deriving DecidableEq

structure Variant where
  name : String
  fields : VariantFields
  markers : List Marker
deriving DecidableEq

/-- An annotated item as it is written.  Only an enumeration has variants. -/
structure Enumeration where
  name : String
  item : ItemKind
  parameters : List String
  variants : List Variant
deriving DecidableEq

inductive EnumerationError
  | notAnEnumeration
  | variantHasFields (variant : String)
  | missingArgument (marker : String)
  | argumentNotText
  | lineBreak
  | secondGoalOfVariant
  | noMarker
  | noGoal
  | severalGoals
  | load (error : LoadError)
  | generation (error : GrammarError)
deriving DecidableEq

def EnumerationError.message : EnumerationError → String
  | notAnEnumeration => "derive macro only works on enums"
  | variantHasFields variant => "variant(" ++ variant ++ ") must not have fields"
  | missingArgument marker =>
    "expected attribute arguments in parentheses: #[" ++ marker ++ "(...)]"
  | argumentNotText => "expected string literal"
  | lineBreak => "a production must not contain line breaks"
  | secondGoalOfVariant => "a variant may only be marked as goal once"
  | noMarker => "expected at least one goal or production attribute"
  | noGoal => "No goal production defined"
  | severalGoals => "multiple goals defined"
  | load error => error.message
  | generation error => (Error.grammar error).message

/-- A variant as the rule that it stands for.  The text of a goal comes before the others. -/
structure AnnotatedVariant where
  name : String
  isGoal : Bool
  texts : List String
deriving DecidableEq

namespace Marker

def text (marker : Marker) : Except EnumerationError String :=
  match marker.argument with
  | .missing => .error (.missingArgument marker.name)
  | .otherLiteral => .error .argumentNotText
  | .text value =>
    if value.toList.any fun char => char == '\n' || char == '\r' then .error .lineBreak
    else .ok value

end Marker

namespace Variant

/-- Reads the markers in order; those with other names are passed over. -/
def collect (goal : Option String) (productions : List String) :
    List Marker → Except EnumerationError (Option String × List String)
  | [] => .ok (goal, productions)
  | marker :: rest =>
    if marker.name == "goal" then do
      let text ← marker.text
      if goal.isSome then .error .secondGoalOfVariant else collect (some text) productions rest
    else if marker.name == "production" then do
      let text ← marker.text
      collect goal (productions ++ [text]) rest
    else collect goal productions rest

def annotated (variant : Variant) : Except EnumerationError AnnotatedVariant :=
  if variant.fields ≠ .unit then .error (.variantHasFields variant.name)
  else do
    let (goal, productions) ← collect none [] variant.markers
    let texts := goal.toList ++ productions
    if texts.isEmpty then .error .noMarker
    else .ok ⟨variant.name, goal.isSome, texts⟩

end Variant

namespace Enumeration

def annotated (enumeration : Enumeration) : Except EnumerationError (List AnnotatedVariant) :=
  if enumeration.item ≠ .enumeration then .error .notAnEnumeration
  else enumeration.variants.mapM Variant.annotated

def goalFirst (variants : List AnnotatedVariant) :
    Except EnumerationError (List AnnotatedVariant) :=
  match variants.filter (·.isGoal) with
  | [] => .error .noGoal
  | [goal] => .ok (goal :: variants.filter fun variant => !variant.isGoal)
  | _ => .error .severalGoals

end Enumeration

end Lookahead
