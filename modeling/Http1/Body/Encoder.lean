import Http1.Chunked.Encoder
import Http1.Framing

/-!
Writing the body of a message by any framing. A piece of data goes out whole with `chunk`, or in
two steps: `beginFragment` gives what stands before and after the data, and how much of it is sent.
-/

namespace Http1

/-- A body of declared length still has room for `left` bytes. -/
inductive BodyEncoder
  | length (left : Nat)
  | chunked (encoder : Chunked.Encoder)
  | untilClose (ended : Bool)
  deriving DecidableEq

/-- The lead goes out first, then `size` bytes of the data, then the suffix. -/
structure Fragment where
  lead : Bytes
  size : Nat
  suffix : Bytes
  deriving DecidableEq

namespace BodyEncoder

def start : Framing → BodyEncoder
  | .length size => .length size
  | .chunked => .chunked .start
  | .untilClose => .untilClose false

def framing : BodyEncoder → Framing
  | length left => .length left
  | chunked _ => .chunked
  | untilClose _ => .untilClose

/-- Only chunked bodies have a place for trailers. -/
def withTrailers (encoder : BodyEncoder) (trailers : Headers) : BodyEncoder :=
  match encoder with
  | chunked encoder => .chunked (encoder.withTrailers trailers)
  | other => other

def isFinished : BodyEncoder → Bool
  | length left => left == 0
  | chunked encoder => encoder.finished
  | untilClose ended => ended

/-- How many of `size` bytes fit a declared length, and what is left of it then. -/
def fitting (left size : Nat) : Nat × Nat := (min left size, left - min left size)

def beginFragment (encoder : BodyEncoder) (size : Nat) :
    Except SendError (Fragment × BodyEncoder) :=
  match encoder with
  | length left => .ok (⟨[], (fitting left size).1, []⟩, .length (fitting left size).2)
  | chunked encoder =>
    (encoder.beginChunk size).map fun (line, encoder) =>
      match line with
      | none => (⟨[], 0, []⟩, .chunked encoder)
      | some line => (⟨line, size, Bytes.crlf⟩, .chunked encoder)
  | untilClose ended => .ok (⟨[], size, []⟩, .untilClose ended)

/-- Data beyond a declared length is dropped. -/
def chunk (encoder : BodyEncoder) (data : Bytes) : Except SendError (Bytes × BodyEncoder) :=
  match encoder with
  | length left =>
    .ok (data.take (fitting left data.length).1, .length (fitting left data.length).2)
  | chunked encoder => (encoder.chunk data).map fun (out, encoder) => (out, .chunked encoder)
  | untilClose ended => .ok (data, .untilClose ended)

def finish (encoder : BodyEncoder) : Except SendError (Bytes × BodyEncoder) :=
  match encoder with
  | length left => .ok ([], .length left)
  | chunked encoder => encoder.finish.map fun (out, encoder) => (out, .chunked encoder)
  | untilClose _ => .ok ([], .untilClose true)

end BodyEncoder
end Http1
