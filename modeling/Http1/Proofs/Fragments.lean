import Mathlib
import Http1.Body.Segments

/-! A piece of data that is framed as a fragment, and written by the caller between what the encoder
gives, comes to the same as a piece that the encoder writes by itself: the same bytes, the same
answer and the same encoder after it (`call_plain`). So any mix of the two ways, over data in any
segments, writes what the plain way writes (`run_mixed`). -/

namespace Http1

/-- A step of writing a body. Data is handed over in segments and written by the encoder, or it is
framed by the encoder and written by the caller. -/
inductive EncoderCall
  | whole (segments : List Bytes)
  | fragment (data : Bytes)
  | finish
  | setTrailers (trailers : Headers)

/-- The same step with its data handed over in one segment. -/
def EncoderCall.plain : EncoderCall → EncoderCall
  | whole segments => whole [segments.flatten]
  | fragment data => whole [data]
  | finish => finish
  | setTrailers trailers => setTrailers trailers

/-- The data that is handed over in a step. -/
def EncoderCall.given : EncoderCall → Bytes
  | whole segments => segments.flatten
  | fragment data => data
  | finish => []
  | setTrailers _ => []

def EncoderCall.data (calls : List EncoderCall) : Bytes := calls.flatMap given

/-- A fragment takes no more data than there is. -/
theorem BodyEncoder.beginFragment_size {encoder next : BodyEncoder} {size : Nat}
    {fragment : Fragment} (h : encoder.beginFragment size = .ok (fragment, next)) :
    fragment.size ≤ size := by
  cases encoder with
  | length left =>
    cases h
    exact Nat.min_le_right _ _
  | untilClose ended =>
    cases h
    exact le_rfl
  | chunked encoder =>
    rw [beginFragment] at h
    generalize encoder.beginChunk size = begun at h
    rcases begun with error | ⟨_ | line, next⟩
    · cases h
    · cases h
      exact Nat.zero_le _
    · cases h
      exact le_rfl

/-- An encoder with the output that it writes to. -/
structure Encoding where
  encoder : BodyEncoder
  output : Bytes

namespace Encoding

/-- What an encoder has written goes behind the output; when it fails, nothing has happened. -/
def put (encoding : Encoding) :
    Except SendError (Bytes × BodyEncoder) → Except SendError Unit × Encoding
  | .error error => (.error error, encoding)
  | .ok (bytes, encoder) => (.ok (), ⟨encoder, encoding.output ++ bytes⟩)

/-- The lead of a fragment goes out, then as much of the data as the fragment takes, which the
caller writes, and then its suffix. -/
def stream (encoding : Encoding) (data : Bytes) : Except SendError Unit × Encoding :=
  match encoding.encoder.beginFragment data.length with
  | .error error => (.error error, encoding)
  | .ok (fragment, encoder) =>
    let begun := encoding.output ++ fragment.lead
    (.ok (), ⟨encoder, begun ++ data.take fragment.size ++ fragment.suffix⟩)

def call (encoding : Encoding) : EncoderCall → Except SendError Unit × Encoding
  | .whole segments => encoding.put (encoding.encoder.chunkOf segments)
  | .fragment data => encoding.stream data
  | .finish => encoding.put encoding.encoder.finish
  | .setTrailers trailers =>
    (.ok (), { encoding with encoder := encoding.encoder.withTrailers trailers })

/-- Calls one after the other, whatever they come to. -/
def run (encoding : Encoding) : List EncoderCall → List (Except SendError Unit) × Encoding
  | [] => ([], encoding)
  | first :: others =>
    let (answer, next) := encoding.call first
    let (answers, last) := next.run others
    (answer :: answers, last)

variable (encoding : Encoding)

theorem run_cons (first : EncoderCall) (others : List EncoderCall) :
    encoding.run (first :: others)
      = ((encoding.call first).1 :: ((encoding.call first).2.run others).1,
        ((encoding.call first).2.run others).2) := rfl

theorem run_append (front back : List EncoderCall) :
    encoding.run (front ++ back)
      = ((encoding.run front).1 ++ ((encoding.run front).2.run back).1,
        ((encoding.run front).2.run back).2) := by
  induction front generalizing encoding with
  | nil => rfl
  | cons first others ih =>
    rw [List.cons_append, run_cons, run_cons, ih]
    rfl

theorem stream_eq (data : Bytes) :
    encoding.stream data = encoding.put (encoding.encoder.chunk data) := by
  obtain ⟨encoder, output⟩ := encoding
  cases encoder with
  | length left => simp [stream, put, BodyEncoder.beginFragment, BodyEncoder.chunk]
  | untilClose ended => simp [stream, put, BodyEncoder.beginFragment, BodyEncoder.chunk]
  | chunked encoder =>
    simp only [stream, put, BodyEncoder.beginFragment, BodyEncoder.chunk, Chunked.Encoder.chunk]
    rcases encoder.beginChunk data.length with error | ⟨_ | line, next⟩
    · rfl
    · simp [Except.map]
    · simp [Except.map]

theorem call_fragment (data : Bytes) :
    encoding.call (.fragment data) = encoding.call (.whole [data]) := by
  rw [call, call, stream_eq, BodyEncoder.chunkOf_eq, List.flatten_singleton]

theorem call_whole (segments : List Bytes) :
    encoding.call (.whole segments) = encoding.call (.whole [segments.flatten]) := by
  rw [call, call, BodyEncoder.chunkOf_eq, BodyEncoder.chunkOf_eq, List.flatten_singleton]

/-- The way that the data of a step takes does not show. -/
theorem call_plain (step : EncoderCall) : encoding.call step = encoding.call step.plain := by
  cases step with
  | whole segments => exact encoding.call_whole segments
  | fragment data => exact encoding.call_fragment data
  | finish => rfl
  | setTrailers trailers => rfl

theorem run_plain (calls : List EncoderCall) :
    encoding.run calls = encoding.run (calls.map EncoderCall.plain) := by
  induction calls generalizing encoding with
  | nil => rfl
  | cons first others ih =>
    rw [run, List.map_cons, run, ← call_plain]
    rcases encoding.call first with ⟨answer, next⟩
    simp only [ih next]

/-- Whatever the encoder is and whatever has been written: a fragment takes no more than its data,
it comes to the same as the data written whole, in any segments, and any calls come to the same as
the calls that write all of their data whole and in one segment. -/
theorem run_mixed :
    (∀ size fragment next, encoding.encoder.beginFragment size = .ok (fragment, next) →
        fragment.size ≤ size)
      ∧ (∀ segments : List Bytes,
        encoding.call (.fragment segments.flatten) = encoding.call (.whole segments))
      ∧ ∀ calls, encoding.run calls = encoding.run (calls.map EncoderCall.plain) := by
  refine ⟨fun size fragment next h => BodyEncoder.beginFragment_size h, fun segments => ?_,
    encoding.run_plain⟩
  rw [call_fragment, ← call_whole]

end Encoding

/-! A length that is exceeded, half by a fragment and half by segments. -/

namespace Exceeding

def encoding : Encoding := ⟨.length 3, [58]⟩

theorem run_mixed_exceeding :
    encoding.encoder.beginFragment 2 = .ok (⟨[], 2, []⟩, .length 1) ∧ 2 ≤ 2
      ∧ encoding.run [.fragment [97, 98], .whole [[], [99, 100], [101]], .fragment [102]]
        = ([.ok (), .ok (), .ok ()], ⟨.length 0, [58, 97, 98, 99]⟩) := by
  obtain ⟨hsize, -, hrun⟩ := Encoding.run_mixed encoding
  refine ⟨rfl, hsize 2 ⟨[], 2, []⟩ (.length 1) rfl, ?_⟩
  rw [hrun]
  rfl

end Exceeding
end Http1
