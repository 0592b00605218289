import Http1.Chunked.Decoder
import Http1.Config
import Http1.Framing

/-!
Reading the body of a message from a buffer, by any framing.
-/

namespace Http1

/-- A body of declared length has delivered `received` bytes and waits for `left` more. -/
inductive BodyDecoder
  | length (received left : Nat)
  | chunked (limits : Chunked.Limits) (phase : Chunked.Phase)
  | untilClose (ended : Bool)
  deriving DecidableEq

namespace BodyDecoder

def start (limits : Chunked.Limits) : Framing → BodyDecoder
  | .length size => .length 0 size
  | .chunked => .chunked limits .start
  | .untilClose => .untilClose false

/-- The limits of a configuration apply to chunked bodies. -/
def ofConfig (config : Config) (framing : Framing) : BodyDecoder :=
  start ⟨config.maxLineLength, config.maxHeaderCount⟩ framing

def framing : BodyDecoder → Framing
  | length received left => .length (received + left)
  | chunked _ _ => .chunked
  | untilClose _ => .untilClose

def trailers : BodyDecoder → Option Headers
  | chunked _ phase => phase.trailers
  | length _ _ | untilClose _ => none

def decodeLength (received left : Nat) (src : Bytes) : Decoded BodyDecoder :=
  if left = 0 then ⟨.endOfBody, .length received left, src⟩
  else if src.isEmpty then ⟨.needMore, .length received left, src⟩
  else
    let taken := src.take left
    ⟨.data taken, .length (received + taken.length) (left - taken.length), src.drop left⟩

def decodeUntilClose (ended : Bool) (src : Bytes) : Decoded BodyDecoder :=
  if ended then ⟨.endOfBody, .untilClose ended, src⟩
  else if src.isEmpty then ⟨.needMore, .untilClose ended, src⟩
  else ⟨.data src, .untilClose ended, []⟩

def decode (decoder : BodyDecoder) (src : Bytes) : Decoded BodyDecoder :=
  match decoder with
  | length received left => decodeLength received left src
  | chunked limits phase => (phase.decode limits src).map (.chunked limits)
  | untilClose ended => decodeUntilClose ended src

/-- What a decoder that needs more makes of the end of the source: it completes only a body that
runs until then. -/
def close : BodyDecoder → Item × BodyDecoder
  | length received left =>
    (.failed (.error (.prematureEof (received + left) received)), .length received left)
  | chunked limits phase => (.failed (.error phase.truncated), .chunked limits phase)
  | untilClose _ => (.endOfBody, .untilClose true)

/-- Decodes a buffer to which nothing will be added. -/
def decodeEof (decoder : BodyDecoder) (src : Bytes) : Decoded BodyDecoder :=
  let found := decoder.decode src
  match found.item with
  | .needMore => ⟨found.decoder.close.1, found.decoder.close.2, found.rest⟩
  | _ => found

theorem decode_takes (decoder : BodyDecoder) (src : Bytes) : (decoder.decode src).Takes src := by
  cases decoder with
  | length received left =>
    simp only [decode, decodeLength]
    split
    · simp [Decoded.Takes, Item.bytes]
    split
    · simp [Decoded.Takes, Item.bytes]
    · next hl hs =>
      refine ⟨by cases src <;> simp_all, ?_⟩
      simp only [Item.bytes, List.length_take, List.length_drop]
      omega
  | chunked limits phase => exact (phase.decode_takes limits src).map
  | untilClose ended =>
    simp only [decode, decodeUntilClose]
    split
    · simp [Decoded.Takes, Item.bytes]
    split <;> simp_all [Decoded.Takes, Item.bytes]

theorem close_bytes (decoder : BodyDecoder) : decoder.close.1.bytes = [] := by
  cases decoder <;> rfl

theorem decodeEof_takes (decoder : BodyDecoder) (src : Bytes) :
    (decoder.decodeEof src).Takes src := by
  have h := decoder.decode_takes src
  simp only [decodeEof]
  split
  · refine ⟨fun e => ?_, ?_⟩
    · have := (decoder.decode src).decoder.close_bytes
      cases hd : (decoder.decode src).decoder <;> simp [hd, close] at e
    · have := (decoder.decode src).decoder.close_bytes
      have := h.2
      simp_all
      omega
  · exact h

theorem decode_data_lt {decoder : BodyDecoder} {src bytes : Bytes}
    (h : (decoder.decode src).item = .data bytes) :
    (decoder.decode src).rest.length < src.length := by
  obtain ⟨hn, hl⟩ := decoder.decode_takes src
  rw [h] at hn hl
  have : 0 < bytes.length := List.length_pos_iff.2 fun e => hn (by rw [e])
  simp only [Item.bytes] at hl
  omega

/-- The pieces of data that a buffer holds, behind those in `done`, the last one first; with the
first item that is not data. -/
def drainFrom (done : List Bytes) (decoder : BodyDecoder) (src : Bytes) :
    List Bytes × Decoded BodyDecoder :=
  let found := decoder.decode src
  match _h : found.item with
  | .data bytes => drainFrom (bytes :: done) found.decoder found.rest
  | _ => (done, found)
termination_by src.length
decreasing_by exact decode_data_lt _h

/-- All pieces of data that a buffer holds, and the first item that is not data. -/
def drain (decoder : BodyDecoder) (src : Bytes) : List Bytes × Decoded BodyDecoder :=
  let (pieces, last) := drainFrom [] decoder src
  (pieces.reverse, last)

end BodyDecoder
end Http1
