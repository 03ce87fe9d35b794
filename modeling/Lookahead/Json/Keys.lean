import Lookahead.Json.Grammar

/-!
The keys of the objects in a JSON document.
-/

namespace Lookahead.Json

structure Kinds where
  member : NodeKind
  string : NodeKind
deriving DecidableEq

def Kinds.ofNames? (names : NameMap) : Option Kinds := do
  let member ← names.kindOf? "member"
  let string ← names.kindOf? "string"
  return { member, string }

inductive CollectionError
  | engine (error : Error)
  /-- The grammar has no rule for members or none for strings. -/
  | missingKinds
deriving DecidableEq

def CollectionError.message : CollectionError → String
  | engine error => error.message
  | missingKinds => "json grammar lacks <member> or <string>"

def unquoted? (input : Array UInt8) (string : Tree) : Option String := do
  let bytes ← string.text? input
  if 2 ≤ bytes.length then
    return Utf8.decodeString (bytes.extract 1 (bytes.length - 1))
  else none

def keyNode? (kinds : Kinds) (node : Tree) : Option Tree :=
  if node.kind = kinds.member then node.children.head?.filter (·.kind == kinds.string)
  else none

def addKey (kinds : Kinds) (input : Array UInt8) (found : Option (List String)) (node : Tree) :
    Option (List String) :=
  match keyNode? kinds node with
  | none => found
  | some string => do
    let before ← found
    let key ← unquoted? input string
    return key :: before

def keys? (kinds : Kinds) (input : Array UInt8) (tree : ParseTree) : Option (List String) :=
  (tree.root.walk (fun found node => (addKey kinds input found node, true)) (some [])).map
    List.reverse

/-- Parses a document, with a parser that may not have been made, and returns its tree with the
keys in it.  There is no result if the parse does not end or a key has no text. -/
def collectWith (made : Except Error Parser) (input : Array UInt8) :
    Option (Except CollectionError (ParseTree × List String)) :=
  match made with
  | .error error => some (.error (.engine error))
  | .ok parser => do
    match ← parser.parse input with
    | .error error => return .error (.engine error)
    | .ok tree =>
      match Kinds.ofNames? parser.names with
      | none => return .error .missingKinds
      | some kinds =>
        let found ← keys? kinds input tree
        return .ok (tree, found)

/-- Collects with the parser of documents, which has the kinds, so its errors are of the engine. -/
def collectKeys (input : Array UInt8) : Option (Except Error (ParseTree × List String)) := do
  match ← collectWith parser input with
  | .ok collected => return .ok collected
  | .error (.engine error) => return .error error
  | .error .missingKinds => none

end Lookahead.Json
