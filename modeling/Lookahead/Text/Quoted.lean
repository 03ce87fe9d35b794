import Lookahead.Byte.Text
import Lookahead.Text.Printable

/-!
Text between double quotes, with everything escaped that would not be seen as itself.
-/

namespace Lookahead

def escapeChar (char : Char) : String :=
  if char == '\x00' then "\\0"
  else if char == '\t' then "\\t"
  else if char == '\n' then "\\n"
  else if char == '\r' then "\\r"
  else if char == '"' then "\\\""
  else if char == '\\' then "\\\\"
  else if isShown char then String.singleton char
  else codePointEscape char.toNat

def quoteText (chars : List Char) : String :=
  "\"" ++ String.join (chars.map escapeChar) ++ "\""

end Lookahead
