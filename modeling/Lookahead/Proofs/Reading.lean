import Lookahead.Grammar.Basic
import Mathlib.Data.List.Forall2

/-!
BNF text read directly.  A text is cut into lines, and each line is blank or spells one rule.
Nothing here knows of the grammar of BNF text or of its parser.
-/

namespace Lookahead.Bnf

/-- The lines of a text.  A carriage return right before a line feed belongs to the line end. -/
def splitLines : List UInt8 → List (List UInt8)
  | [] => [[]]
  | 10 :: rest => [] :: splitLines rest
  | 13 :: 10 :: rest => [] :: splitLines rest
  | byte :: rest =>
      match splitLines rest with
      | [] => [[byte]]
      | line :: lines => (byte :: line) :: lines

def Blank (text : List UInt8) : Prop :=
  ∀ byte ∈ text, byte = 32

def isLetter (byte : UInt8) : Bool :=
  (65 ≤ byte && byte ≤ 90) || (97 ≤ byte && byte ≤ 122)

def isNameByte (byte : UInt8) : Bool :=
  isLetter byte || (48 ≤ byte && byte ≤ 57) || byte == 45 || byte == 95

def isPrintable (byte : UInt8) : Bool :=
  32 ≤ byte && byte ≤ 126

def IsName : List UInt8 → Prop
  | [] => False
  | first :: rest => isLetter first = true ∧ ∀ byte ∈ rest, isNameByte byte = true

def asciiText (bytes : List UInt8) : String :=
  String.ofList (bytes.map fun byte => Char.ofNat byte.toNat)

def escapes : List (UInt8 × UInt8) :=
  [(116, 9), (110, 10), (114, 13), (34, 34), (39, 39), (92, 92)]

/-- What stands between quotes, with the bytes that it stands for. -/
inductive ReadsQuoted (quote : UInt8) : List UInt8 → List UInt8 → Prop
  | nil : ReadsQuoted quote [] []
  | plain {byte text bytes} : isPrintable byte = true → byte ≠ quote → byte ≠ 92 →
      ReadsQuoted quote text bytes → ReadsQuoted quote (byte :: text) (byte :: bytes)
  | escape {char byte text bytes} : (char, byte) ∈ escapes → ReadsQuoted quote text bytes →
      ReadsQuoted quote (92 :: char :: text) (byte :: bytes)

inductive ReadsTerm : List UInt8 → Symbol → Prop
  | name {name} : IsName name → ReadsTerm (60 :: name ++ [62]) (.nonTerminal (asciiText name))
  | quoted {quote text bytes} : quote = 34 ∨ quote = 39 → ReadsQuoted quote text bytes →
      ReadsTerm (quote :: text ++ [quote]) (.ofBytes bytes)

inductive ReadsAlternative : List UInt8 → Alternative → Prop
  | last {text gap symbol} : ReadsTerm text symbol → Blank gap →
      ReadsAlternative (text ++ gap) [symbol]
  | cons {text gap rest symbol symbols} : ReadsTerm text symbol → Blank gap →
      ReadsAlternative rest symbols → ReadsAlternative (text ++ gap ++ rest) (symbol :: symbols)

inductive ReadsAlternatives : List UInt8 → List Alternative → Prop
  | last {text alternative} : ReadsAlternative text alternative →
      ReadsAlternatives text [alternative]
  | cons {text gap rest alternative alternatives} : ReadsAlternative text alternative →
      Blank gap → ReadsAlternatives rest alternatives →
      ReadsAlternatives (text ++ 124 :: gap ++ rest) (alternative :: alternatives)

inductive ReadsRule : List UInt8 → Rule → Prop
  | mk {name before after body alternatives} : IsName name → Blank before → Blank after →
      ReadsAlternatives body alternatives →
      ReadsRule (60 :: name ++ 62 :: before ++ [58, 58, 61] ++ after ++ body)
        ⟨asciiText name, alternatives⟩

inductive ReadsLine : List UInt8 → Option Rule → Prop
  | blank {line} : Blank line → ReadsLine line none
  | rule {lead text rule} : Blank lead → ReadsRule text rule →
      ReadsLine (lead ++ text) (some rule)

/-- The text reads as what its lines read as, one after the other. -/
def Reads (text : List UInt8) (rules : List (Option Rule)) : Prop :=
  List.Forall₂ ReadsLine (splitLines text) rules

def utf8Bytes (text : String) : List UInt8 :=
  text.toUTF8.data.toList

def ReadsText (text : String) (rules : List (Option Rule)) : Prop :=
  Reads (utf8Bytes text) rules

end Lookahead.Bnf
