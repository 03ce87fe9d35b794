import Lookahead.Byte.Text
import Lookahead.Grammar.Text

/-!
Why a table cannot be run over an input.
-/

namespace Lookahead

inductive TableError
  | emptyTable
  | noStartRule
  | missingRow (rule : String)
  /-- The nodes completed so far are not what a reduction needs. -/
  | inconsistentReduction
deriving DecidableEq

def TableError.message : TableError → String
  | emptyTable => "table has no rows"
  | noStartRule => "table has no row for the start rule"
  | missingRow rule => "table has no row for rule " ++ bracketed rule
  | inconsistentReduction => "production stack is inconsistent with the table"

inductive Expected
  | rule (name : String)
  | byte (value : UInt8)
  | endOfLine
deriving DecidableEq

def Expected.display : Expected → String
  | rule name => bracketed name
  | byte value => describeByte value
  | endOfLine => bracketed endOfLineName

inductive ParseError
  | unexpectedByte (expected : Expected) (got : UInt8) (offset : Nat)
  | unexpectedEndOfInput (expected : Expected) (offset : Nat)
  | trailingInput (got : UInt8) (offset : Nat)
  | reservedByte (offset : Nat)
deriving DecidableEq

namespace ParseError

def position : ParseError → Nat
  | unexpectedByte _ _ offset => offset
  | unexpectedEndOfInput _ offset => offset
  | trailingInput _ offset => offset
  | reservedByte offset => offset

def message : ParseError → String
  | unexpectedByte expected got offset =>
    "unexpected byte " ++ describeByte got ++ " at offset " ++ toString offset ++
      ", expected " ++ expected.display
  | unexpectedEndOfInput expected offset =>
    "unexpected end of input at offset " ++ toString offset ++ ", expected " ++ expected.display
  | trailingInput got offset =>
    "trailing input " ++ describeByte got ++ " at offset " ++ toString offset
  | reservedByte offset =>
    "input contains the reserved byte 0 at offset " ++ toString offset

end ParseError

end Lookahead
