import Http1.Error
import Http1.Headers

/-!
Writing a chunked body: a chunk is its size in upper-case hexadecimal, CR LF, its data, CR LF; the
end is a chunk of size zero, the trailer fields and an empty line.
-/

namespace Http1.Chunked

/-- The data bytes that were `sent` are counted in 64 bits. -/
structure Encoder where
  finished : Bool
  sent : UInt64
  trailers : Option Headers
  deriving DecidableEq

namespace Encoder

def start : Encoder := ⟨false, 0, none⟩

def withTrailers (encoder : Encoder) (trailers : Headers) : Encoder :=
  { encoder with trailers := some trailers }

def alreadyFinished : SendError := .invalidBody "chunked body already finished"

def sizeLine (size : Nat) : Bytes := Bytes.hex size ++ Bytes.crlf

def fieldLine (field : Field) : Bytes :=
  field.name.bytes ++ [Byte.colon, Byte.space] ++ field.value.bytes ++ Bytes.crlf

def trailerLines (trailers : Option Headers) : Bytes :=
  match trailers with
  | none => []
  | some headers => headers.grouped.flatMap fieldLine

/-- The size line of a chunk of `size` bytes; an empty chunk is skipped, because it would read as
the end. -/
def beginChunk (encoder : Encoder) (size : Nat) : Except SendError (Option Bytes × Encoder) :=
  if encoder.finished then .error alreadyFinished
  else if size = 0 then .ok (none, encoder)
  else .ok (some (sizeLine size), { encoder with sent := encoder.sent + UInt64.ofNat size })

def chunk (encoder : Encoder) (data : Bytes) : Except SendError (Bytes × Encoder) :=
  (encoder.beginChunk data.length).map fun (line, encoder) =>
    match line with
    | none => ([], encoder)
    | some line => (line ++ data ++ Bytes.crlf, encoder)

/-- The trailers are used up by the end that carries them. -/
def finish (encoder : Encoder) : Except SendError (Bytes × Encoder) :=
  if encoder.finished then .error alreadyFinished
  else .ok (Bytes.ofAscii "0" ++ Bytes.crlf ++ trailerLines encoder.trailers ++ Bytes.crlf,
    { encoder with finished := true, trailers := none })

end Encoder
end Http1.Chunked
