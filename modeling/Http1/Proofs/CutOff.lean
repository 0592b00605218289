import Http1.Proofs.SteadyBody
import Http1.Proofs.TrailerSection

/-! A body that is cut off is never taken for a complete one. No proper front part of a chunked body
leads to its end (`WholeBody.scan_cut`), and a declared length is not reached before its last byte,
so the decoder still wants more when the source ends. Draining then fails behind the data that was
there, and as long as the source stays at its end every further call fails in the same way
(`Stalled.run`). -/

namespace Http1

namespace Chunked.WholeBody

open Phase

/-- The data among the first `n` bytes. -/
def dataWithin (body : WholeBody) (n : Nat) : Bytes := Marked.data (body.marked.take n)

theorem dataWithin_prefix (body : WholeBody) (n : Nat) : body.dataWithin n <+: body.data := by
  refine ⟨Marked.data (body.marked.drop n), ?_⟩
  rw [dataWithin, ← Marked.data_append, List.take_append_drop, data_marked]

theorem scan_cut (body : WholeBody) {text : Bytes} (h : text <+: body.wire)
    (hne : text ≠ body.wire) :
    ∃ phase, Phase.start.scan .none text
      = ⟨body.dataWithin text.length, .needMore, phase, []⟩ := by
  -- the last LF is not there, so there is no telling yet what it would do
  have hfront : text <+: body.front.bytes := by
    rw [← body.bytes_front] at h hne
    exact (List.prefix_concat_iff.1 h).resolve_left hne
  obtain ⟨phase, hp, hbytes, hopen⟩ := body.passes_front.within hfront
  have hd : phase.isDone = false := by
    by_cases hall : text = body.front.bytes
    · obtain ⟨-, rfl⟩ := hp.unique body.passes_front (hbytes.trans hall)
      rfl
    · exact hopen hall
  have htake : body.marked.take text.length = body.front.take text.length := by
    have hlen := hfront.length_le
    rw [Marked.bytes, List.length_map] at hlen
    rw [body.marked_front, List.take_append_of_le_length hlen]
  have hscan := hp.scan_eq hd
  rw [hbytes, ← htake] at hscan
  exact ⟨phase, hscan⟩

end Chunked.WholeBody

namespace BodyDecoder

/-- The end of the source is a failure of this decoder. -/
theorem whole_short {decoder waiting : BodyDecoder} {src data : Bytes} {error : ParseError}
    (h : decoder.scan src = ⟨data, .needMore, waiting, []⟩)
    (hclose : waiting.close = (.failed (.error error), waiting)) :
    decoder.whole src = ⟨data, .failed (.error error), waiting, []⟩ := by
  rw [whole, h, closeScan]
  simp only [hclose]

end BodyDecoder

namespace BodyReader

/-- The source has ended, and the body has not. -/
structure Stalled (error : ParseError) (reader : BodyReader) : Prop where
  steady : reader.inlet.Steady
  idle : reader.Idle
  ahead : reader.inlet.ahead = []
  whole : reader.decoder.whole [] = ⟨[], .failed (.error error), reader.decoder, []⟩

variable {error : ParseError} {reader : BodyReader}

/-- Asking for more leaves the reader where it is. -/
theorem Stalled.advance (h : Stalled error reader) :
    ∃ next, reader.advance = (.error (.error error), next) ∧ Stalled error next := by
  have hy := advance_yields h.steady h.idle.pending
  rw [future_fresh h.idle.ended h.idle.pending, h.ahead, h.whole] at hy
  generalize hadvance : reader.advance = found at hy
  cases hy with
  | data hne hs hp hf =>
    have hdata := congrArg Scan.data hf
    rw [Scan.prepend_data] at hdata
    exact absurd (List.append_eq_nil_iff.1 hdata.symm).1 hne
  | ended hs hf => cases hf
  | @failed cause next hs hf =>
    obtain ⟨hpending, hended⟩ := advance_failed hadvance
    have hitem := congrArg (fun found => found.last.item) hf
    have hdecoder := congrArg (fun found => found.last.decoder) hf
    have hahead := congrArg (fun found => found.last.rest) hf
    cases hitem
    have hsame : next.decoder = reader.decoder := hdecoder.symm
    refine ⟨next, rfl, hs, ⟨hpending.trans h.idle.pending, hended⟩, hahead.symm, ?_⟩
    rw [hsame]
    exact h.whole

theorem Stalled.call (h : Stalled error reader) (bodyCall : BodyCall) :
    ∃ next, reader.call bodyCall = (bodyCall.failure (.error error), next)
      ∧ Stalled error next := by
  obtain ⟨next, hadvance, hnext⟩ := h.advance
  obtain ⟨last, hcall, rfl | rfl⟩ := call_fails h.idle.pending hadvance bodyCall
  · exact ⟨last, hcall, hnext⟩
  · exact ⟨last, hcall, h⟩

theorem Stalled.run (h : Stalled error reader) (calls : List BodyCall) :
    (reader.run calls).1 = calls.map (BodyCall.failure (.error error)) := by
  induction calls generalizing reader with
  | nil => rfl
  | cons first others ih =>
    obtain ⟨next, hcall, hnext⟩ := h.call first
    rw [BodyReader.run, hcall, List.map_cons, ← ih hnext]

/-- The replies to any calls, reads of nothing included, when the source ends behind this data: it
is handed out, and once a call has failed every other call fails too. -/
inductive CutShort (error : ParseError) : Bytes → List BodyCall → List Reply → Prop
  | start (data : Bytes) : CutShort error data [] []
  | nothing {data : Bytes} {calls : List BodyCall} {replies : List Reply}
      (rest : CutShort error data calls replies) :
    CutShort error data (.read 0 :: calls) (.data [] :: replies)
  | data {bytes data : Bytes} {first : BodyCall} {calls : List BodyCall} {replies : List Reply}
      (hne : bytes ≠ []) (rest : CutShort error data calls replies) :
    CutShort error (bytes ++ data) (first :: calls) (.data bytes :: replies)
  | failed {data : Bytes} {reply : Reply} {first : BodyCall} {calls : List BodyCall}
      (h : Delivers (.failed (.error error)) [reply] data) :
    CutShort error data (first :: calls) (reply :: calls.map (BodyCall.failure (.error error)))

/-- Draining hands out this data and then fails, as does every call after it; and any other calls
get no more than that. -/
structure CutsOff (error : ParseError) (data : Bytes) (reader : BodyReader) : Prop where
  drain : ∀ plan, ∃ replies last, reader.drainBy plan 0 = (replies, last)
    ∧ Delivers (.failed (.error error)) replies data
    ∧ ∀ calls, (last.run calls).1 = calls.map (BodyCall.failure (.error error))
  run : ∀ calls, CutShort error data calls (reader.run calls).1

/-- Each call gives a front part of the data, or fails and leaves the reader stalled. -/
theorem run_short {waiting : BodyDecoder} {data : Bytes} (hs : reader.inlet.Steady)
    (hf : reader.future = ⟨data, .failed (.error error), waiting, []⟩)
    (hagain : waiting.whole [] = ⟨[], .failed (.error error), waiting, []⟩)
    (calls : List BodyCall) :
    CutShort error data calls (reader.run calls).1 := by
  induction calls generalizing reader data with
  | nil => exact .start data
  | cons first others ih =>
    by_cases hw : first.Wants
    · have hgives := call_gives hs hw
      rw [hf] at hgives
      rw [BodyReader.run]
      generalize hcall : reader.call first = called at hgives
      cases hgives with
      | @data bytes next hne hsteady hnext =>
        have hdata : data = bytes ++ next.future.data := congrArg Scan.data hnext
        have hlast : ⟨.failed (.error error), waiting, []⟩ = next.future.last :=
          congrArg Scan.last hnext
        rw [hdata]
        exact .data hne (ih hsteady (congrArg (Scan.mk _) hlast.symm))
      | @last reply next hsteady hdelivers hdecoder hahead _ =>
        have hstalled : Stalled error next := by
          refine ⟨hsteady, call_failed hcall hdelivers.isFailure, hahead, ?_⟩
          rw [hdecoder]
          exact hagain
        dsimp only
        rw [hstalled.run others]
        exact .failed hdelivers
    · rw [BodyCall.eq_read_zero hw]
      exact .nothing (ih hs hf)

/-- A body whose decoder wants more at the end of the source. -/
theorem cutsOff_short {decoder waiting : BodyDecoder} {inlet : Inlet} {data : Bytes}
    (hs : inlet.Steady) (hscan : decoder.scan inlet.ahead = ⟨data, .needMore, waiting, []⟩)
    (hclose : waiting.close = (.failed (.error error), waiting)) :
    CutsOff error data (start decoder inlet) := by
  have hwhole := BodyDecoder.whole_short hscan hclose
  have hagain := BodyDecoder.whole_short (BodyDecoder.scan_again hscan) hclose
  constructor
  · intro plan
    obtain ⟨replies, reader, hdrain, hdelivers, hsteady, hdecoder, hahead⟩ :=
      drainBy_start plan hs hwhole
    have hstalled : Stalled error reader :=
      ⟨hsteady, drainBy_failed hdrain hdelivers, hahead, by rw [hdecoder]; exact hagain⟩
    exact ⟨replies, reader, hdrain, hdelivers, hstalled.run⟩
  · exact run_short hs ((future_fresh rfl rfl).trans hwhole) hagain

/-- A cut-off body is never reported as complete. A chunked one delivers the data that was there
and fails as truncated; one of declared length delivers every byte that was there and then says how
many are missing. Further calls fail in the same way. -/
theorem start_cutsOff {inlet : Inlet} (hs : inlet.Steady) :
    (∀ body : Chunked.WholeBody, inlet.ahead <+: body.wire → inlet.ahead ≠ body.wire →
      ∃ reason, (ParseError.truncatedChunk reason).toIo.kind = .unexpectedEof
        ∧ body.dataWithin inlet.ahead.length <+: body.data
        ∧ CutsOff (.truncatedChunk reason) (body.dataWithin inlet.ahead.length)
          (start (.start .none .chunked) inlet))
    ∧ ∀ size, inlet.ahead.length < size →
      CutsOff (.prematureEof size inlet.ahead.length) inlet.ahead
        (start (.start .none (.length size)) inlet) := by
  constructor
  · intro body hprefix hne
    obtain ⟨phase, hphase⟩ := body.scan_cut hprefix hne
    have hscan : (BodyDecoder.start .none .chunked).scan inlet.ahead
        = ⟨body.dataWithin inlet.ahead.length, .needMore, .chunked .none phase, []⟩ := by
      rw [BodyDecoder.start, BodyDecoder.scan_chunked, hphase]
      rfl
    exact ⟨_, rfl, body.dataWithin_prefix _, cutsOff_short hs hscan rfl⟩
  · intro size hsize
    have hscan := BodyDecoder.scan_length_short hsize 0
    have htotal : 0 + inlet.ahead.length + (size - inlet.ahead.length) = size := by omega
    refine cutsOff_short hs hscan ?_
    rw [BodyDecoder.close, htotal, Nat.zero_add]

/-! The end of the stream between the CR and the LF of the last line, and one byte before a declared
length. -/

namespace CutOff

def chunk : Chunked.Chunk := ⟨.ofDigit 51 (by decide), [97, 98, 99], by decide, by decide⟩

def body : Chunked.WholeBody :=
  ⟨⟨[chunk], .zero, Chunked.SizeLine.value_zero⟩, []⟩

/-- The body without its last byte, partly buffered and partly in pieces. -/
def inlet : Inlet where
  buffered := [51, 13, 10, 97]
  readSize := 4
  source := ⟨[.data [98], .data [99, 13, 10, 48, 13, 10, 13]], #[]⟩

def plan : DrainPlan where
  call turn := if turn = 0 then .read 1 else if turn = 1 then .nextChunk else .skip
  wants turn := by
    split
    · exact Nat.one_pos
    · split <;> trivial

theorem inlet_steady : inlet.Steady := by
  refine ⟨by decide, ?_⟩
  intro event he
  simp only [inlet, List.mem_cons, List.not_mem_nil, or_false] at he
  rcases he with rfl | rfl
  · exact ⟨_, List.cons_ne_nil _ _, rfl⟩
  · exact ⟨_, List.cons_ne_nil _ _, rfl⟩

theorem cutsOff_last_lf :
    inlet.ahead ++ [10] = body.wire
      ∧ (∃ reason, (ParseError.truncatedChunk reason).toIo.kind = .unexpectedEof
        ∧ CutsOff (.truncatedChunk reason) [97, 98, 99] (start (.start .none .chunked) inlet)
        ∧ ∃ replies reader,
          (start (.start .none .chunked) inlet).drainBy plan 0 = (replies, reader)
            ∧ Delivers (.failed (.error (.truncatedChunk reason))) replies [97, 98, 99])
      ∧ CutsOff (.prematureEof 13 12) inlet.ahead (start (.start .none (.length 13)) inlet) := by
  have hwire : inlet.ahead ++ [10] = body.wire := by decide
  have hprefix : inlet.ahead <+: body.wire := ⟨[10], hwire⟩
  have hne : inlet.ahead ≠ body.wire := by decide
  obtain ⟨hchunked, hlength⟩ := start_cutsOff inlet_steady
  obtain ⟨reason, hkind, -, hcuts⟩ := hchunked body hprefix hne
  obtain ⟨replies, reader, hdrain, hdelivers, -⟩ := hcuts.drain plan
  exact ⟨hwire, ⟨reason, hkind, hcuts, replies, reader, hdrain, hdelivers⟩,
    hlength 13 (by decide)⟩

end CutOff
end BodyReader
end Http1
