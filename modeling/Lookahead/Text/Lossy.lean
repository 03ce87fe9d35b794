/-!
Reading bytes as UTF-8 text when they need not be valid.  Every maximal prefix of a sequence
that breaks off is read as one replacement character, and so is every byte that starts none.
-/

namespace Lookahead.Utf8

def replacement : Char := '\ufffd'

/-- What a first byte promises: the bits it contributes, how many bytes follow, and the bounds of
the first of those. -/
structure Lead where
  bits : Nat
  following : Nat
  low : UInt8
  high : UInt8

/-- Reads a first byte.  The bounds of the second byte exclude overlong forms, surrogates and
values beyond the last code point. -/
def Lead.ofByte? (byte : UInt8) : Option Lead :=
  let value := byte.toNat
  if byte < 0x80 then some ⟨value, 0, 0x80, 0xbf⟩
  else if byte < 0xc2 then none
  else if byte < 0xe0 then some ⟨value - 0xc0, 1, 0x80, 0xbf⟩
  else if byte == 0xe0 then some ⟨value - 0xe0, 2, 0xa0, 0xbf⟩
  else if byte == 0xed then some ⟨value - 0xe0, 2, 0x80, 0x9f⟩
  else if byte < 0xf0 then some ⟨value - 0xe0, 2, 0x80, 0xbf⟩
  else if byte == 0xf0 then some ⟨value - 0xf0, 3, 0x90, 0xbf⟩
  else if byte < 0xf4 then some ⟨value - 0xf0, 3, 0x80, 0xbf⟩
  else if byte == 0xf4 then some ⟨value - 0xf0, 3, 0x80, 0x8f⟩
  else none

def takeFollowing (low high : UInt8) (value : Nat) : Nat → List UInt8 → Option Nat × List UInt8
  | 0, rest => (some value, rest)
  | _ + 1, [] => (none, [])
  | count + 1, byte :: rest =>
    if low ≤ byte && byte ≤ high then
      takeFollowing 0x80 0xbf (value * 64 + (byte.toNat - 0x80)) count rest
    else (none, byte :: rest)

theorem length_takeFollowing (low high : UInt8) (value count : Nat) (bytes : List UInt8) :
    (takeFollowing low high value count bytes).2.length ≤ bytes.length := by
  fun_induction takeFollowing low high value count bytes with
  | case1 => simp
  | case2 => simp
  | case3 low high value count byte rest fits ih => simp only [List.length_cons]; omega
  | case4 => simp

def decode : List UInt8 → List Char
  | [] => []
  | byte :: rest =>
    match Lead.ofByte? byte with
    | none => replacement :: decode rest
    | some lead =>
      let followed := takeFollowing lead.low lead.high lead.bits lead.following rest
      (followed.1.elim replacement Char.ofNat) :: decode followed.2
termination_by bytes => bytes.length
decreasing_by
  · simp
  · have := length_takeFollowing lead.low lead.high lead.bits lead.following rest
    simp only [List.length_cons]
    omega

def decodeString (bytes : List UInt8) : String :=
  String.ofList (decode bytes)

theorem decode_ascii (bytes : List UInt8) (ascii : ∀ byte ∈ bytes, byte < 0x80) :
    decode bytes = bytes.map fun byte => Char.ofNat byte.toNat := by
  induction bytes with
  | nil => simp [decode]
  | cons byte rest ih =>
    have small := ascii byte (by simp)
    have tail := ih fun other member => ascii other (by simp [member])
    rw [decode]
    simp [Lead.ofByte?, small, takeFollowing, tail]

end Lookahead.Utf8
