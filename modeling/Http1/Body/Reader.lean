import Http1.Body.Decoder
import Http1.Inlet

/-!
Reading one message body from the inlet of a connection. The reader uses up the bytes of the body
and no others; what follows the body stays in the inlet for the next message.

Loops end because every turn uses up bytes: `length_ahead` counts those that are left, and no piece
of a body is empty.
-/

namespace Http1

/-- The part of a piece that `read` has not given yet is `pending`. -/
structure BodyReader where
  decoder : BodyDecoder
  pending : Bytes
  ended : Bool
  inlet : Inlet

namespace BodyReader

def start (decoder : BodyDecoder) (inlet : Inlet) : BodyReader := ⟨decoder, [], false, inlet⟩

/-- Every byte of the body has been given. -/
def isEof (reader : BodyReader) : Bool := reader.ended && reader.pending.isEmpty

def trailers (reader : BodyReader) : Option Headers := reader.decoder.trailers

def framing (reader : BodyReader) : Framing := reader.decoder.framing

/-- The reader with what a decoder left. -/
def after (reader : BodyReader) (found : Decoded BodyDecoder) : BodyReader :=
  { reader with
    decoder := found.decoder
    inlet := { reader.inlet with buffered := found.rest } }

/-- What a caller sees of a decoded item; a decoder that needs more has nothing to add at the end of
the stream. -/
def outcome (reader : BodyReader) :
    Item → Except (Failure ParseError) (Option Bytes) × BodyReader
  | .data bytes => (.ok (some bytes), reader)
  | .failed failure => (.error failure, reader)
  | .endOfBody | .needMore => (.ok none, { reader with ended := true })

/-- The next piece from the decoder, reading from the source only while the buffered bytes do not
complete one. -/
def advance (reader : BodyReader) : Except (Failure ParseError) (Option Bytes) × BodyReader :=
  if reader.ended then (.ok none, reader)
  else
    let found := reader.decoder.decode reader.inlet.buffered
    let reader' := reader.after found
    match found.item with
    | .needMore =>
      match _h : reader'.inlet.fill with
      | (.error error, inlet) => (.error (.error (.io error)), { reader' with inlet })
      | (.ok 0, inlet) =>
        let last := reader'.decoder.decodeEof inlet.buffered
        ({ reader' with inlet }.after last).outcome last.item
      | (.ok (_ + 1), inlet) => advance { reader' with inlet }
    | item => reader'.outcome item
termination_by reader.inlet.source.undelivered.length
decreasing_by
  have hl := Inlet.fill_length _h
  have ha := congrArg List.length reader'.inlet.fill_ahead
  rw [_h] at ha
  simp only [Inlet.ahead, List.length_append, reader', after] at ha hl
  omega

/-- The next piece of the body, none at its end. -/
def nextChunk (reader : BodyReader) : Except (Failure ParseError) (Option Bytes) × BodyReader :=
  if reader.pending.isEmpty then reader.advance
  else (.ok (some reader.pending), { reader with pending := [] })

/-- At most `size` bytes of what is pending. -/
def give (reader : BodyReader) (size : Nat) : Bytes × BodyReader :=
  (reader.pending.take size, { reader with pending := reader.pending.drop size })

/-- At most `size` bytes of the body: none only when none are wanted or the body has ended. -/
def read (reader : BodyReader) (size : Nat) : Except (Failure IoError) Bytes × BodyReader :=
  if size = 0 then (.ok [], reader)
  else if ¬ reader.pending.isEmpty then (.ok (reader.give size).1, (reader.give size).2)
  else match reader.advance with
    | (.error failure, reader) => (.error (failure.map ParseError.toIo), reader)
    | (.ok none, reader) => (.ok [], reader)
    | (.ok (some bytes), reader) =>
      let reader := { reader with pending := bytes }
      (.ok (reader.give size).1, (reader.give size).2)

/-- The bytes that are not used up yet. -/
def ahead (reader : BodyReader) : Bytes := reader.pending ++ reader.inlet.ahead

theorem length_after {reader : BodyReader} {found : Decoded BodyDecoder}
    (h : found.Takes reader.inlet.buffered) :
    found.item.bytes.length + (reader.after found).ahead.length ≤ reader.ahead.length := by
  have := h.2
  simp only [ahead, after, Inlet.ahead, List.length_append]
  omega

theorem length_decode (reader : BodyReader) :
    (reader.after (reader.decoder.decode reader.inlet.buffered)).ahead.length
      ≤ reader.ahead.length :=
  Nat.le_trans (Nat.le_add_left _ _) (length_after (reader.decoder.decode_takes _))

theorem outcome_some {reader next : BodyReader} {item : Item} {bytes : Bytes}
    (h : reader.outcome item = (.ok (some bytes), next)) : item = .data bytes ∧ next = reader := by
  cases item <;> simp_all [outcome]

/-- A decoded piece is not empty, and its bytes are used up. -/
theorem outcome_after {reader next : BodyReader} {found : Decoded BodyDecoder} {bytes : Bytes}
    (ht : found.Takes reader.inlet.buffered)
    (h : (reader.after found).outcome found.item = (.ok (some bytes), next)) :
    bytes ≠ [] ∧ bytes.length + next.ahead.length ≤ reader.ahead.length := by
  obtain ⟨hi, rfl⟩ := outcome_some h
  refine ⟨fun e => ht.1 (by rw [hi, e]), ?_⟩
  have := length_after ht
  rwa [hi] at this

theorem ahead_fill {reader : BodyReader} {inlet : Inlet} {n : Nat}
    (h : reader.inlet.fill = (.ok n, inlet)) :
    ({ reader with inlet } : BodyReader).ahead = reader.ahead := by
  have ha := reader.inlet.fill_ahead
  rw [h] at ha
  simp only [ahead, ha]

theorem advance_some {reader next : BodyReader} {bytes : Bytes}
    (h : reader.advance = (.ok (some bytes), next)) :
    bytes ≠ [] ∧ bytes.length + next.ahead.length ≤ reader.ahead.length := by
  fun_induction advance reader with
  | case1 => simp at h
  | case2 => simp at h
  | case3 reader hr found reader' hi inlet hf last =>
    have h' := outcome_after (reader'.decoder.decodeEof_takes inlet.buffered) h
    rw [ahead_fill hf] at h'
    exact ⟨h'.1, Nat.le_trans h'.2 (length_decode reader)⟩
  | case4 reader hr found reader' hi n inlet hf ih =>
    have h' := ih h
    rw [ahead_fill hf] at h'
    exact ⟨h'.1, Nat.le_trans h'.2 (length_decode reader)⟩
  | case5 => exact outcome_after (BodyDecoder.decode_takes _ _) h

theorem nextChunk_some {reader next : BodyReader} {bytes : Bytes}
    (h : reader.nextChunk = (.ok (some bytes), next)) :
    bytes ≠ [] ∧ bytes.length + next.ahead.length ≤ reader.ahead.length := by
  unfold nextChunk at h
  split at h
  · exact advance_some h
  · next hp =>
    cases h
    exact ⟨by simpa using hp, by simp [ahead]⟩

theorem nextChunk_lt {reader next : BodyReader} {bytes : Bytes}
    (h : reader.nextChunk = (.ok (some bytes), next)) :
    next.ahead.length < reader.ahead.length := by
  have := nextChunk_some h
  have := List.length_pos_iff.2 this.1
  omega

/-- Drops the rest of the body and counts it on top of `skipped`. -/
def skipFrom (skipped : Nat) (reader : BodyReader) :
    Except (Failure ParseError) Nat × BodyReader :=
  match _h : reader.nextChunk with
  | (.error failure, reader) => (.error failure, reader)
  | (.ok none, reader) => (.ok skipped, reader)
  | (.ok (some bytes), reader) => skipFrom (skipped + bytes.length) reader
termination_by reader.ahead.length
decreasing_by exact nextChunk_lt _h

/-- Drops the rest of the body and says how many bytes that was. -/
def skipBody (reader : BodyReader) : Except (Failure ParseError) Nat × BodyReader :=
  skipFrom 0 reader

/-- The rest of the body in pieces, behind those in `done`, the last one first; with the failure
that cut it short. -/
def drainFrom (done : List Bytes) (reader : BodyReader) :
    List Bytes × Option (Failure ParseError) × BodyReader :=
  match _h : reader.nextChunk with
  | (.error failure, reader) => (done, some failure, reader)
  | (.ok none, reader) => (done, none, reader)
  | (.ok (some bytes), reader) => drainFrom (bytes :: done) reader
termination_by reader.ahead.length
decreasing_by exact nextChunk_lt _h

/-- The rest of the body, as far as it could be read, and the failure that cut it short. -/
def readToEnd (reader : BodyReader) : Bytes × Option (Failure IoError) × BodyReader :=
  let (pieces, failure, reader) := drainFrom [] reader
  (pieces.reverse.flatten, failure.map (Failure.map ParseError.toIo), reader)

end BodyReader
end Http1
