import Lookahead.Bnf.Bindings
import Lookahead.Bnf.Grammar

/-!
Loading grammars from BNF text.
-/

namespace Lookahead

namespace Bnf

def lineNumber (input : Array UInt8) (offset : Nat) : Nat :=
  (input.toList.take offset).count 10 + 1

def parseFailure (input : Array UInt8) (error : Error) : LoadError :=
  match error.position? with
  | some offset =>
    let line := toString (lineNumber input offset)
    ⟨.parse, some ("lineno " ++ line ++ ": " ++ error.message)⟩
  | none => ⟨.parse, some error.message⟩

/-- Reads the grammar off a BNF text that holds at least one rule, with a parser that may not have
been made. -/
def loadWith (made : Except GrammarError Parser) (input : Array UInt8) :
    Except LoadError Grammar :=
  match made with
  | .error error => .error ⟨.generation, some error.message⟩
  | .ok parser =>
    match parser.parse input with
    | none => .error ⟨.parse, none⟩
    | some (.error error) => .error (parseFailure input error)
    | some (.ok tree) => do
      let bindings ← Bindings.ofNames parser.names
      let grammar ← bindings.toGrammar input tree
      if grammar.rules.isEmpty then .error ⟨.noRules, none⟩ else .ok grammar

def loadBytes (input : Array UInt8) : Except LoadError Grammar :=
  loadWith parser input

end Bnf

def Grammar.load (text : String) : Except LoadError Grammar :=
  Bnf.loadBytes text.toUTF8.data

def Table.ofText (text : String) : Except Error (Table × NameMap) := do
  let grammar ← (Grammar.load text).mapError .load
  grammar.generate.mapError .grammar

end Lookahead
