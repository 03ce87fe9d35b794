/-!
Streams of bytes that are handed out in pieces.
-/

namespace Lookahead

/-- A stream with the bytes that it still holds.  One reading hands out at most `chunk` of them;
a reading that has none to hand out says that the stream is at its end, or fails. -/
structure ByteStream where
  rest : List UInt8
  chunk : Nat
  /-- Why a reading with nothing to hand out fails, if it does. -/
  failure : Option String

namespace ByteStream

def read (stream : ByteStream) : Except String (List UInt8 × ByteStream) :=
  match stream.rest.take stream.chunk, stream.failure with
  | [], some reason => .error reason
  | bytes, _ => .ok (bytes, { stream with rest := stream.rest.drop stream.chunk })

theorem length_rest_of_read {stream next : ByteStream} {byte : UInt8} {bytes : List UInt8}
    (read : stream.read = .ok (byte :: bytes, next)) : next.rest.length < stream.rest.length := by
  have taken : stream.rest.take stream.chunk = byte :: bytes ∧
      { stream with rest := stream.rest.drop stream.chunk } = next := by
    unfold ByteStream.read at read
    split at read
    · simp at read
    · simpa using read
  rw [← taken.2]
  have lengths := congrArg List.length taken.1
  simp only [List.length_take, List.length_cons, List.length_drop] at *
  omega

def readAll (stream : ByteStream) : Except String (List UInt8) :=
  match _read : stream.read with
  | .error reason => .error reason
  | .ok ([], _) => .ok []
  | .ok (byte :: bytes, next) => do
    let rest ← readAll next
    return byte :: bytes ++ rest
termination_by stream.rest.length
decreasing_by exact length_rest_of_read _read

end ByteStream

end Lookahead
