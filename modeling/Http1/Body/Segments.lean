import Http1.Body.Encoder

/-!
Data that comes in several segments. It goes out one segment after the other, without being put
together first; what goes out is what a single segment with all of the data comes to.
-/

namespace Http1

/-- At most `room` bytes of the segments, one after the other. -/
def Bytes.gather (room : Nat) : List Bytes → Bytes
  | [] => []
  | segment :: rest => segment.take room ++ gather (room - segment.length) rest

theorem Bytes.gather_eq (room : Nat) (segments : List Bytes) :
    gather room segments = segments.flatten.take room := by
  induction segments generalizing room with
  | nil => simp [gather]
  | cons segment rest ih => rw [gather, ih, List.flatten_cons, List.take_append]

/-- The number of bytes that the segments have together. -/
def Bytes.totalLength : List Bytes → Nat
  | [] => 0
  | segment :: rest => segment.length + totalLength rest

theorem Bytes.totalLength_eq (segments : List Bytes) :
    totalLength segments = segments.flatten.length := by
  induction segments with
  | nil => rfl
  | cons segment rest ih => rw [totalLength, ih, List.flatten_cons, List.length_append]

namespace BodyEncoder

/-- A piece of data in segments; only their total length counts for the framing. -/
def chunkOf (encoder : BodyEncoder) (segments : List Bytes) :
    Except SendError (Bytes × BodyEncoder) :=
  let size := Bytes.totalLength segments
  match encoder with
  | length left =>
    .ok (Bytes.gather (fitting left size).1 segments, .length (fitting left size).2)
  | chunked encoder =>
    (encoder.beginChunk size).map fun (line, encoder) =>
      match line with
      | none => ([], .chunked encoder)
      | some line => (line ++ segments.flatten ++ Bytes.crlf, .chunked encoder)
  | untilClose ended => .ok (segments.flatten, .untilClose ended)

theorem chunkOf_eq (encoder : BodyEncoder) (segments : List Bytes) :
    encoder.chunkOf segments = encoder.chunk segments.flatten := by
  cases encoder with
  | length left => simp only [chunkOf, chunk, Bytes.gather_eq, Bytes.totalLength_eq]
  | chunked encoder =>
    simp only [chunkOf, chunk, Chunked.Encoder.chunk, Bytes.totalLength_eq]
    rcases encoder.beginChunk _ with error | ⟨_ | line, next⟩ <;> rfl
  | untilClose ended => rfl

end BodyEncoder
end Http1
