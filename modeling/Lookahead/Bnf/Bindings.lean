import Lookahead.Bnf.Error
import Lookahead.Grammar.Basic
import Lookahead.Names
import Lookahead.Text.Lossy
import Lookahead.Tree.Walk

/-!
Reading grammars off the trees of BNF text.  The bindings say which kinds of nodes carry meaning;
all other nodes are passed over.
-/

namespace Lookahead.Bnf

structure Bindings where
  content : NodeKind
  ruleName : NodeKind
  expression : NodeKind
  list : NodeKind
  term : NodeKind
  literal : NodeKind
  doubleQuoted : NodeKind
  singleQuoted : NodeKind
  escapeSequence : NodeKind
  escapedChar : NodeKind
deriving DecidableEq

def bind (names : NameMap) (name : String) : Except LoadError NodeKind :=
  match names.kindOf? name with
  | some kind => .ok kind
  | none => .error ⟨.missingBinding, some ("<" ++ name ++ ">")⟩

def unescape : List UInt8 → Option UInt8
  | [116] => some 9
  | [110] => some 10
  | [114] => some 13
  | [34] => some 34
  | [39] => some 39
  | [92] => some 92
  | _ => none

namespace Bindings

def ofNames (names : NameMap) : Except LoadError Bindings := do
  return {
    content := ← bind names "content"
    ruleName := ← bind names "rule-name"
    expression := ← bind names "expression"
    list := ← bind names "list"
    term := ← bind names "term"
    literal := ← bind names "literal"
    doubleQuoted := ← bind names "text1"
    singleQuoted := ← bind names "text2"
    escapeSequence := ← bind names "escape-sequence"
    escapedChar := ← bind names "escaped-char" }

/-- The bytes of a node, and none for a node outside the input, which no parse of BNF text makes. -/
def bytes (input : Array UInt8) (tree : Tree) : List UInt8 :=
  (tree.text? input).getD []

def text (input : Array UInt8) (tree : Tree) : String :=
  Utf8.decodeString (bytes input tree)

def invalidRule (input : Array UInt8) (tree : Tree) (reason : String) : LoadError :=
  ⟨.invalidRule, some (reason ++ " in `" ++ text input tree ++ "`")⟩

/-- The bytes that one piece of a quoted text stands for: itself, or what it escapes. -/
def pieceBytes (bindings : Bindings) (input : Array UInt8) (piece : Tree) :
    Except LoadError (List UInt8) :=
  if piece.kind = .literal then .ok (bytes input piece)
  else
    let escaped := ((piece.firstOfKind? bindings.escapedChar).map (bytes input)).getD []
    match unescape escaped with
    | some byte => .ok [byte]
    | none => .error ⟨.invalidEscape, some (text input piece)⟩

/-- Reads a quoted literal; without any bytes it is the empty symbol. -/
def toTerminal (bindings : Bindings) (input : Array UInt8) (literal : Tree) :
    Except LoadError Symbol :=
  let isText := fun kind => kind == bindings.doubleQuoted || kind == bindings.singleQuoted
  match literal.outermost isText with
  | [] => .error (invalidRule input literal "missing literal text")
  | quoted :: _ => do
    let isPiece := fun kind => kind == .literal || kind == bindings.escapeSequence
    let pieces ← (quoted.outermost isPiece).mapM (bindings.pieceBytes input)
    return .ofBytes pieces.flatten

def toSymbol (bindings : Bindings) (input : Array UInt8) (term : Tree) : Except LoadError Symbol :=
  match term.firstOfKind? bindings.literal with
  | some literal => bindings.toTerminal input literal
  | none =>
    match term.firstOfKind? bindings.ruleName with
    | some name => .ok (.nonTerminal (text input name))
    | none => .error (invalidRule input term "unknown symbol")

def toAlternative (bindings : Bindings) (input : Array UInt8) (list : Tree) :
    Except LoadError Alternative :=
  (list.outermost (· == bindings.term)).mapM (bindings.toSymbol input)

def toRule (bindings : Bindings) (input : Array UInt8) (content : Tree) :
    Except LoadError Rule :=
  match content.firstOfKind? bindings.ruleName with
  | none => .error (invalidRule input content "missing rule name")
  | some head =>
    match content.firstOfKind? bindings.expression with
    | none => .error (invalidRule input content "missing expression")
    | some expression => do
      let lists := expression.outermost (· == bindings.list)
      let alternatives ← lists.mapM (bindings.toAlternative input)
      return ⟨text input head, alternatives⟩

def toGrammar (bindings : Bindings) (input : Array UInt8) (tree : ParseTree) :
    Except LoadError Grammar := do
  let contents := tree.root.outermost (· == bindings.content)
  let rules ← contents.mapM (bindings.toRule input)
  return ⟨rules⟩

end Bindings

end Lookahead.Bnf
