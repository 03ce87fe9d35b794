import Lookahead.Byte.Set

/-!
How bytes and byte sets are shown in messages.  A byte is read as the character of the same
code; characters outside printable ASCII are written as escapes.
-/

namespace Lookahead

def hexDigits (value : Nat) : String :=
  String.ofList (Nat.toDigits 16 value)

def codePointEscape (value : Nat) : String :=
  "\\u\x7b" ++ hexDigits value ++ "\x7d"

def escapeByte (byte : UInt8) : String :=
  if byte == 9 then "\\t"
  else if byte == 10 then "\\n"
  else if byte == 13 then "\\r"
  else if byte == 34 then "\\\""
  else if byte == 39 then "\\'"
  else if byte == 92 then "\\\\"
  else if 0x20 ≤ byte && byte ≤ 0x7e then String.singleton (Char.ofNat byte.toNat)
  else codePointEscape byte.toNat

def describeByte (byte : UInt8) : String :=
  if byte == endOfInputByte then "EOS"
  else "'" ++ escapeByte byte ++ "' (" ++ toString byte.toNat ++ ")"

namespace ByteSet

private def member (byte : UInt8) : String :=
  if byte == endOfInputByte then "EOS" else "'" ++ escapeByte byte ++ "'"

private def braced (items : List String) : String :=
  "\x7b" ++ ", ".intercalate items ++ "\x7d"

def display (set : ByteSet) : String :=
  braced (set.toList.map member)

def debugDisplay (set : ByteSet) : String :=
  braced (set.toList.map fun byte => "ByteRepr(" ++ toString byte.toNat ++ ")")

end ByteSet

end Lookahead
