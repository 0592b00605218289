import Http1.Chunked.Trailers

/-!
The states of a chunked body, one byte at a time. All that is remembered of the bytes so far is in
the phase, so a body may be cut between any two of them.
-/

namespace Http1.Chunked

structure Limits where
  lineLength : Option Nat
  fieldCount : Option Nat
  deriving DecidableEq, Repr

namespace Limits

def none : Limits := ⟨.none, .none⟩

/-- The error of a line that has grown to `line` bytes, if that is too long. The limit goes before
all other rules for the byte that breaks it. -/
def lineFault? (limits : Limits) (line : Nat) : Option ParseError :=
  match limits.lineLength with
  | .none => .none
  | some max => if line ≤ max then .none else some (.tooLongLine max)

end Limits

inductive ChunkFault
  | sizeOverflow
  | sizeMissing
  | sizeDigit
  | sizeBlank
  | extensionNewline
  | sizeLf
  | dataCr
  | dataLf
  | endLf
  deriving DecidableEq, Repr

def ChunkFault.text : ChunkFault → String
  | sizeOverflow => "invalid overflow chunked length"
  | sizeMissing => "invalid chunk size line: missing size"
  | sizeDigit => "invalid chunk size line: Invalid Size"
  | sizeBlank => "invalid chunk size linear white space"
  | extensionNewline => "invalid chunk extension contains newline"
  | sizeLf => "invalid chunk size LF"
  | dataCr => "invalid chunk body CR"
  | dataLf => "invalid chunk body LF"
  | endLf => "invalid chunk end LF"

def ChunkFault.error (fault : ChunkFault) : ParseError := .invalidChunk fault.text

/-- The trailer section so far: its complete lines and the bytes of the line being read. -/
structure Section where
  text : Array UInt8
  lines : Nat
  deriving DecidableEq

namespace Section

def empty : Section := ⟨#[], 0⟩

def push (collected : Section) (b : UInt8) : Section :=
  { collected with text := collected.text.push b }

def endLine (collected : Section) : Section :=
  ⟨(collected.text.push Byte.cr).push Byte.lf, collected.lines + 1⟩

/-- An empty section leaves no trailers at all. -/
def trailers (collected : Section) : Except (Failure Trailers.Fault) (Option Headers) :=
  if collected.text.isEmpty then .ok none
  else (Trailers.parse collected.lines collected.text.toList).map some

end Section

/-- Where the decoder stands. `value` is the chunk size read so far and `line` the length of the
line so far, limits apply to it; `data 0` has the chunk's data behind it. -/
inductive Phase
  | size (value : Option Nat) (line : Nat)
  | sizeBlank (value line : Nat)
  | extension (value line : Nat)
  | sizeLf (value : Nat)
  | data (left : Nat)
  | dataLf
  | endCr (collected : Section)
  | trailer (collected : Section) (line : Nat)
  | trailerLf (collected : Section)
  | endLf (collected : Section)
  | done (trailers : Option Headers)
  deriving DecidableEq

/-- What one byte does. A refused byte is used up, and the decoder stays in its phase. -/
inductive Step
  | moved (phase : Phase)
  | delivered (phase : Phase)
  | refused (phase : Phase) (failure : Failure ParseError)

namespace Phase

def start : Phase := .size none 0

def name : Phase → String
  | size _ _ => "Size"
  | sizeBlank _ _ => "SizeLws"
  | extension _ _ => "Extension"
  | sizeLf _ => "SizeLf"
  | data 0 => "BodyCr"
  | data _ => "Body"
  | dataLf => "BodyLf"
  | endCr _ => "EndCr"
  | trailer _ _ => "Trailer"
  | trailerLf _ => "TrailerLf"
  | endLf _ => "EndLf"
  | done _ => "End"

def isDone : Phase → Bool
  | done _ => true
  | _ => false

def trailers : Phase → Option Headers
  | done trailers => trailers
  | _ => none

/-- A chunk size is less than 2 ^ 64. -/
def stepSize (value : Option Nat) (line : Nat) (b : UInt8) : Step :=
  match Byte.hexValue? b, value with
  | some digit, _ =>
    let grown := 16 * value.getD 0 + digit
    if grown < UInt64.size then .moved (.size (some grown) line)
    else .refused (.size value line) (.error ChunkFault.sizeOverflow.error)
  | none, none =>
    if Byte.isBlank b || b == Byte.semicolon || b == Byte.cr then
      .refused (.size value line) (.error ChunkFault.sizeMissing.error)
    else .refused (.size value line) (.error ChunkFault.sizeDigit.error)
  | none, some known =>
    if Byte.isBlank b then .moved (.sizeBlank known line)
    else if b = Byte.semicolon then .moved (.extension known line)
    else if b = Byte.cr then .moved (.sizeLf known)
    else .refused (.size value line) (.error ChunkFault.sizeDigit.error)

/-- No digit may follow the white space after a size. -/
def stepSizeBlank (value line : Nat) (b : UInt8) : Step :=
  if Byte.isBlank b then .moved (.sizeBlank value line)
  else if b = Byte.semicolon then .moved (.extension value line)
  else if b = Byte.cr then .moved (.sizeLf value)
  else .refused (.sizeBlank value line) (.error ChunkFault.sizeBlank.error)

def stepExtension (value line : Nat) (b : UInt8) : Step :=
  if b = Byte.cr then .moved (.sizeLf value)
  else if b = Byte.lf then
    .refused (.extension value line) (.error ChunkFault.extensionNewline.error)
  else .moved (.extension value line)

/-- A line is counted when it is complete, so one line too many has been collected. -/
def stepTrailerLf (limits : Limits) (collected : Section) : Step :=
  match limits.fieldCount with
  | none => .moved (.endCr collected)
  | some max =>
    if collected.lines ≤ max then .moved (.endCr collected)
    else .refused (.trailerLf collected) (.error (.tooManyTrailers max))

def stepEndLf (collected : Section) : Step :=
  match collected.trailers with
  | .ok trailers => .moved (.done trailers)
  | .error failure => .refused (.endLf collected) (failure.map Trailers.Fault.error)

def step (limits : Limits) (b : UInt8) : Phase → Step
  | size value line =>
    match limits.lineFault? (line + 1) with
    | some error => .refused (.size value (line + 1)) (.error error)
    | none => stepSize value (line + 1) b
  | sizeBlank value line =>
    match limits.lineFault? (line + 1) with
    | some error => .refused (.sizeBlank value (line + 1)) (.error error)
    | none => stepSizeBlank value (line + 1) b
  | extension value line =>
    match limits.lineFault? (line + 1) with
    | some error => .refused (.extension value (line + 1)) (.error error)
    | none => stepExtension value (line + 1) b
  | sizeLf value =>
    if b = Byte.lf then .moved (if value = 0 then .endCr .empty else .data value)
    else .refused (.sizeLf value) (.error ChunkFault.sizeLf.error)
  | data (left + 1) => .delivered (.data left)
  | data 0 =>
    if b = Byte.cr then .moved .dataLf else .refused (.data 0) (.error ChunkFault.dataCr.error)
  | dataLf =>
    if b = Byte.lf then .moved (.size none 0) else .refused .dataLf (.error ChunkFault.dataLf.error)
  | endCr collected =>
    if b = Byte.cr then .moved (.endLf collected)
    else match limits.lineFault? 1 with
      | some error => .refused (.endCr collected) (.error error)
      | none => .moved (.trailer (collected.push b) 1)
  | trailer collected line =>
    if b = Byte.cr then .moved (.trailerLf collected)
    else match limits.lineFault? (line + 1) with
      | some error => .refused (.trailer collected (line + 1)) (.error error)
      | none => .moved (.trailer (collected.push b) (line + 1))
  | trailerLf collected =>
    if b = Byte.lf then stepTrailerLf limits collected.endLine
    else .refused (.trailerLf collected) (.error Trailers.Fault.lineEnd.error)
  | endLf collected =>
    if b = Byte.lf then stepEndLf collected
    else .refused (.endLf collected) (.error ChunkFault.endLf.error)
  | done trailers => .moved (.done trailers)

end Phase
end Http1.Chunked
