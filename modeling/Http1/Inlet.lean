import Http1.Endpoint.Source
import Http1.Error

/-!
The reading side of a connection: the bytes that were read and not used yet, and the source of more.
Bytes are only ever added at the back and taken from the front, so the buffered bytes followed by
the undelivered ones (`Inlet.ahead`) are what every consumer has still before it.
-/

namespace Http1

/-- A read takes at most `readSize` bytes, and a fill makes room for that many behind those that are
there; `longest` records the most that has been in the buffer, with the room for a read. -/
structure InputBuffer where
  buffered : Bytes
  readSize : Nat
  longest : Nat := 0

namespace InputBuffer

def start (readSize : Nat) : InputBuffer := ⟨[], readSize, 0⟩

/-- Bytes are waiting that were read before. -/
def hasBuffered (buffer : InputBuffer) : Bool := !buffer.buffered.isEmpty

/-- Drops what is buffered. -/
def clear (buffer : InputBuffer) : InputBuffer := { buffer with buffered := [] }

end InputBuffer

/-- A buffer with the source that it is filled from. -/
structure Inlet extends InputBuffer where
  source : Source

/-- What one look at the source shows. -/
inductive Peek
  | data (size : Nat)
  | endOfStream
  | wouldBlock
  deriving DecidableEq

namespace Inlet

def start (readSize : Nat) (source : Source) : Inlet := ⟨.start readSize, source⟩

def ahead (inlet : Inlet) : Bytes := inlet.buffered ++ inlet.source.undelivered

/-- One read from the source, zero meaning the end of the stream. -/
def fill (inlet : Inlet) : Except IoError Nat × Inlet :=
  let longest := max inlet.longest (inlet.buffered.length + inlet.readSize)
  let (answer, source) := inlet.source.read inlet.readSize
  match answer with
  | .error error => (.error error, { inlet with longest, source })
  | .ok bytes =>
    (.ok bytes.length, { inlet with buffered := inlet.buffered ++ bytes, longest, source })

/-- Looks for bytes, reading only when none are buffered. A read that timed out is no failure. -/
def peek (inlet : Inlet) : Except IoError Peek × Inlet :=
  if ¬ inlet.buffered.isEmpty then (.ok (.data inlet.buffered.length), inlet)
  else
    let (answer, inlet) := inlet.fill
    match answer with
    | .ok 0 => (.ok .endOfStream, inlet)
    | .ok (n + 1) => (.ok (.data (n + 1)), inlet)
    | .error error =>
      if error.kind.isTimeout then (.ok .wouldBlock, inlet) else (.error error, inlet)

/-- Takes at most `size` bytes of what is buffered, from the front. -/
def take (inlet : Inlet) (size : Nat) : Bytes × Inlet :=
  (inlet.buffered.take size, { inlet with buffered := inlet.buffered.drop size })

/-- Gives at most `size` bytes, none of them at the end of the stream, and reads only when none are
buffered and some are wanted. -/
def read (inlet : Inlet) (size : Nat) : Except IoError Bytes × Inlet :=
  if size = 0 then (.ok [], inlet)
  else if ¬ inlet.buffered.isEmpty then (.ok (inlet.take size).1, (inlet.take size).2)
  else
    let (answer, inlet) := inlet.fill
    match answer with
    | .error error => (.error error, inlet)
    | .ok _ => (.ok (inlet.take size).1, (inlet.take size).2)

/-- The end of the first empty line in a text that has `before` bytes in front of it. -/
def headEndFrom (before : Nat) : Bytes → Option Nat
  | 13 :: 10 :: 13 :: 10 :: _ => some (before + 4)
  | [] => none
  | _ :: rest => headEndFrom (before + 1) rest

/-- The length of a text up to and including its first empty line. -/
def headEnd? (text : Bytes) : Option Nat := headEndFrom 0 text

theorem fill_ahead (inlet : Inlet) : inlet.fill.2.ahead = inlet.ahead := by
  have hg := inlet.source.given_read inlet.readSize
  unfold fill
  cases hr : inlet.source.read inlet.readSize with
  | mk answer source =>
    rw [hr] at hg
    cases answer <;> simp_all [ahead, Source.given]

theorem fill_length {inlet next : Inlet} {n : Nat} (h : inlet.fill = (.ok n, next)) :
    next.buffered.length = inlet.buffered.length + n := by
  unfold fill at h
  cases hr : inlet.source.read inlet.readSize with
  | mk answer source =>
    rw [hr] at h
    cases answer with
    | error error => cases h
    | ok bytes => cases h; exact List.length_append

theorem peek_ahead (inlet : Inlet) : inlet.peek.2.ahead = inlet.ahead := by
  have hf := inlet.fill_ahead
  unfold peek
  split
  · rfl
  · cases hr : inlet.fill with
    | mk answer next =>
      rw [hr] at hf
      rcases answer with error | n
      · simp only
        split <;> exact hf
      · cases n <;> exact hf

/-- Takes a message head up to and including its empty line, at most `max` bytes of it, and gives
none when the stream ends before the first byte. When it fails, no byte has been taken. -/
def readHead (max : Nat) (inlet : Inlet) : Except ParseError (Option Bytes) × Inlet :=
  match headEnd? inlet.buffered with
  | some size =>
    if size ≤ max then (.ok (some (inlet.take size).1), (inlet.take size).2)
    else (.error (.tooLargeHeader size max), inlet)
  | none =>
    if inlet.buffered.length ≤ max then
      match _h : inlet.fill with
      | (.error error, inlet) => (.error (.io error), inlet)
      | (.ok 0, inlet) =>
        (if inlet.buffered.isEmpty then .ok none
          else .error (.truncatedHead inlet.buffered.length), inlet)
      | (.ok (_ + 1), inlet) => readHead max inlet
    else (.error (.tooLargeHeader inlet.buffered.length max), inlet)
termination_by max + 1 - inlet.buffered.length
decreasing_by
  have := fill_length _h
  omega

/-- The head that a caller has got. -/
def headGiven : Except ParseError (Option Bytes) → Bytes
  | .ok (some head) => head
  | _ => []

end Inlet
end Http1
