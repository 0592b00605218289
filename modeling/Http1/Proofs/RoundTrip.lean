import Http1.Proofs.Sending
import Http1.Proofs.SteadyBody

/-! What is sent is what is received. Any calls on a writer over a willing sink succeed and put one
encoding of the data behind what was waiting before (`send_sending`, `finish_sending`); a reader of
the same framing takes exactly that encoding off a steady source (`Frames.whole`). -/

namespace Http1

/-- A call on a body writer before it is finished. -/
inductive WriterCall
  | write (bytes : Bytes)
  | flush
  | setTrailers (trailers : Headers)

/-- What a call on a writer came to. -/
inductive WriterReply
  | wrote (answer : Except IoError Nat)
  | flushed (answer : Except IoError Unit)
  | set

namespace WriterCall

/-- The data that a call gives. -/
def given : WriterCall → Bytes
  | write bytes => bytes
  | flush | setTrailers _ => []

/-- The data that the calls give, all together. -/
def data (calls : List WriterCall) : Bytes := calls.flatMap given

/-- The trailers that are set after a call. -/
def trailersAfter (before : Option Headers) : WriterCall → Option Headers
  | setTrailers trailers => some trailers
  | write _ | flush => before

/-- The trailers that the last of the calls which set any has set. -/
def lastTrailers (calls : List WriterCall) : Option Headers := calls.foldl trailersAfter none

/-- The reply of a call that succeeds: a write takes all of its bytes. -/
def success : WriterCall → WriterReply
  | write bytes => .wrote (.ok bytes.length)
  | flush => .flushed (.ok ())
  | setTrailers _ => .set

end WriterCall

namespace BodyWriter

def call (writer : BodyWriter) : WriterCall → WriterReply × BodyWriter
  | .write bytes => (writer.write bytes).map .wrote id
  | .flush => writer.flush.map .flushed id
  | .setTrailers trailers => (.set, writer.withTrailers trailers)

def send (writer : BodyWriter) : List WriterCall → List WriterReply × BodyWriter
  | [] => ([], writer)
  | first :: others =>
    let (reply, writer) := writer.call first
    let (replies, writer) := writer.send others
    (reply :: replies, writer)

variable {framing : Framing} {base data : Bytes} {writer : BodyWriter}

theorem call_sending (h : Sending framing base data writer) (first : WriterCall)
    (hb : ∀ bytes, first = .write bytes → bytes.length < 2 ^ 64) :
    ∃ next, writer.call first = (first.success, next)
      ∧ Sending framing base (data ++ first.given) next := by
  cases first with
  | write bytes =>
    obtain ⟨next, hwrite, hnext⟩ := write_sending h (hb bytes rfl)
    refine ⟨next, ?_, hnext⟩
    rw [call, hwrite]
    rfl
  | flush =>
    obtain ⟨next, hflush, hnext⟩ := flush_sending h
    refine ⟨next, ?_, by rwa [WriterCall.given, List.append_nil]⟩
    rw [call, hflush]
    rfl
  | setTrailers trailers =>
    refine ⟨writer.withTrailers trailers, rfl, ?_⟩
    rw [WriterCall.given, List.append_nil]
    exact withTrailers_sending h trailers

/-- All calls succeed, and what they give comes behind what was given before. -/
theorem send_sending {calls : List WriterCall} (h : Sending framing base data writer)
    (hb : ∀ bytes, .write bytes ∈ calls → bytes.length < 2 ^ 64) :
    ∃ next, writer.send calls = (calls.map WriterCall.success, next)
      ∧ Sending framing base (data ++ WriterCall.data calls) next := by
  induction calls generalizing writer data with
  | nil => exact ⟨writer, rfl, by rwa [WriterCall.data, List.flatMap_nil, List.append_nil]⟩
  | cons first others ih =>
    obtain ⟨middle, hcall, hmiddle⟩ :=
      call_sending h first fun bytes hw => hb bytes (hw ▸ List.mem_cons_self)
    obtain ⟨next, hsend, hnext⟩ := ih hmiddle fun bytes hm => hb bytes (List.mem_cons_of_mem _ hm)
    refine ⟨next, ?_, ?_⟩
    · rw [send, hcall]
      simp only [hsend]
      rfl
    · rwa [List.append_assoc] at hnext

theorem take_trailers (writer : BodyWriter) (bytes : Bytes) :
    (writer.take bytes).2.encoder.trailers? = writer.encoder.trailers? := by
  have hflush := writer.flushCache_trailers
  unfold take
  split
  · exact writeFragment_trailers writer bytes
  split
  · rfl
  split
  · next hcache => rwa [hcache] at hflush
  next middle hcache =>
  rw [hcache] at hflush
  split
  · exact hflush
  · exact (writeFragment_trailers middle bytes).trans hflush

theorem flush_trailers (writer : BodyWriter) :
    writer.flush.2.encoder.trailers? = writer.encoder.trailers? := by
  have hflush := writer.flushCache_trailers
  unfold flush
  split
  · next hcache => rwa [hcache] at hflush
  · next hcache => rwa [hcache] at hflush

theorem call_trailers (writer : BodyWriter) (first : WriterCall) :
    (writer.call first).2.encoder.trailers? = writer.encoder.trailers?.map first.trailersAfter := by
  cases first with
  | write bytes => exact (take_trailers writer bytes).trans Option.map_id'.symm
  | flush => exact (flush_trailers writer).trans Option.map_id'.symm
  | setTrailers trailers => exact writer.encoder.withTrailers_trailers trailers

/-- A chunked body gets the trailers that were set last, whatever became of the calls. -/
theorem send_trailers (writer : BodyWriter) (calls : List WriterCall) :
    (writer.send calls).2.encoder.trailers?
      = writer.encoder.trailers?.map fun before => calls.foldl WriterCall.trailersAfter before := by
  induction calls generalizing writer with
  | nil => exact Option.map_id'.symm
  | cons first others ih =>
    rw [send]
    refine (ih (writer.call first).2).trans ?_
    rw [call_trailers, Option.map_map]
    rfl

theorem start_trailers {framing : Framing} (hc : framing = .chunked) (chunkSize : Nat)
    (outlet : Outlet) (calls : List WriterCall) :
    ((start framing chunkSize outlet).send calls).2.encoder.trailers?
      = some (WriterCall.lastTrailers calls) := by
  subst hc
  exact send_trailers _ calls

end BodyWriter

namespace Framing

/-- The data that a body of this framing carries: a declared length cuts it off. -/
def carried : Framing → Bytes → Bytes
  | length size, data => data.take size
  | chunked, data | untilClose, data => data

/-- How reading the body ends: a declared length that was never reached is missed, and more trailers
than any map has room for are the end of the program. -/
def ending : Framing → Option Headers → Bytes → Item
  | length size, _, data =>
    if size ≤ data.length then .endOfBody
    else .failed (.error (.prematureEof size data.length))
  | chunked, trailers, _ => if Headers.Fit trailers then .endOfBody else .failed .overrun
  | untilClose, _, _ => .endOfBody

/-- Some bodies reach to the end of the stream. -/
def Open : Framing → Bytes → Prop
  | length size, data => data.length < size
  | chunked, _ => False
  | untilClose, _ => True

theorem Frames.whole {framing : Framing} {trailers : Option Headers} {wire data : Bytes}
    (h : framing.Frames trailers wire data) (rest : Bytes) (hrest : framing.Open data → rest = []) :
    ∃ decoder, BodyDecoder.whole (.start .none framing) (wire ++ rest)
      = ⟨framing.carried data, framing.ending trailers data, decoder, rest⟩ := by
  cases h with
  | length size trailers data =>
    by_cases hs : size ≤ data.length
    · have hlen : (data.take size).length = size := by rw [List.length_take]; omega
      have hscan := BodyDecoder.scan_length hlen 0 rest
      refine ⟨.length (0 + size) 0, ?_⟩
      rw [BodyDecoder.start, BodyDecoder.whole_of_scan (by rw [hscan]; trivial), hscan, ending,
        if_pos hs]
      rfl
    · have hshort : data.length < size := Nat.lt_of_not_le hs
      have hscan := BodyDecoder.scan_length_short hshort 0
      refine ⟨.length data.length (size - data.length), ?_⟩
      rw [hrest hshort, List.append_nil, carried, List.take_of_length_le (Nat.le_of_lt hshort),
        ending, if_neg hs, BodyDecoder.start, BodyDecoder.whole, hscan, BodyDecoder.closeScan]
      simp only [BodyDecoder.close, Nat.zero_add]
      rw [Nat.add_sub_cancel' (Nat.le_of_lt hshort)]
  | chunked chunks trailers =>
    have hroom := Chunked.WholeBody.hasRoom_ofChunks chunks trailers
    by_cases hfit : Headers.Fit trailers
    · have hscan := Chunked.WholeBody.scan (hroom.2 hfit) rest
      refine ⟨.chunked .none (.done (Chunked.WholeBody.ofChunks chunks trailers).trailers), ?_⟩
      rw [BodyDecoder.whole_of_scan (by rw [hscan]; trivial), hscan, ending, if_pos hfit]
      rfl
    · have hscan := Chunked.WholeBody.scan_overrun (fun h => hfit (hroom.1 h)) rest
      refine ⟨.chunked .none (.endLf (.ofLines (.ofTrailers trailers))), ?_⟩
      rw [BodyDecoder.whole_of_scan (by rw [hscan]; trivial), hscan, ending, if_neg hfit]
      rfl
  | untilClose =>
    refine ⟨.untilClose true, ?_⟩
    rw [hrest trivial, List.append_nil]
    rfl

end Framing

namespace BodyWriter

/-- A body is received as it was sent, whatever the calls and the sizes on both sides are, as long
as there is room for its trailers; all of its data is received in any case. A chunk holds what is
cached or one slice, and both fit a machine word. -/
theorem sent_received (framing : Framing) {chunkSize : Nat} {outlet : Outlet}
    {calls : List WriterCall} (hs : outlet.sink.Willing) (hc : chunkSize < 2 ^ 64)
    (hb : ∀ bytes, .write bytes ∈ calls → bytes.length < 2 ^ 64) :
    ∃ writer next wire, (start framing chunkSize outlet).send calls
          = (calls.map WriterCall.success, writer)
      ∧ writer.finish = (.ok (), next) ∧ next.pending = []
      ∧ next.sink.accepted = outlet.sink.accepted ++ outlet.pending ++ wire
      ∧ framing.Frames (WriterCall.lastTrailers calls) wire (WriterCall.data calls)
      ∧ ∀ (inlet : Inlet) (rest : Bytes) (plan : DrainPlan), inlet.Steady →
        inlet.ahead = wire ++ rest → (framing.Open (WriterCall.data calls) → rest = []) →
        ∃ replies reader, (BodyReader.start (.start .none framing) inlet).drainBy plan 0
            = (replies, reader)
          ∧ Delivers (framing.ending (WriterCall.lastTrailers calls) (WriterCall.data calls))
            replies (framing.carried (WriterCall.data calls))
          ∧ reader.inlet.ahead = rest := by
  obtain ⟨writer, hsend, hsending⟩ := send_sending (start_sending framing hs hc) hb
  rw [List.nil_append] at hsending
  have htrailers (hc : framing = .chunked) := start_trailers hc chunkSize outlet calls
  rw [hsend] at htrailers
  obtain ⟨next, wire, hfinish, hpending, haccepted, hframes⟩ := finish_sending hsending htrailers
  refine ⟨writer, next, wire, hsend, hfinish, hpending, haccepted, hframes, ?_⟩
  intro inlet rest plan hsteady hahead hopen
  obtain ⟨decoder, hwhole⟩ := hframes.whole rest hopen
  rw [← hahead] at hwhole
  obtain ⟨replies, reader, hdrain, hdelivers, -, -, hrest⟩ :=
    BodyReader.drainBy_start plan hsteady hwhole
  exact ⟨replies, reader, hdrain, hdelivers, hrest⟩

/-! A chunked body that is cached, interrupted and sent byte by byte, and read byte by byte. -/

namespace Bytewise

def outlet : Outlet where
  pending := [33]
  capacity := 3
  threshold := 1
  sink := ⟨[.accept 1, .fail ⟨.interrupted, ""⟩, .accept 1], [.ok ()], #[]⟩

def calls : List WriterCall :=
  [.write [97], .setTrailers .empty, .flush, .write [98, 99, 100], .write []]

/-- An inlet that reads these bytes one by one. -/
def inlet (bytes : Bytes) : Inlet := .start 1 ⟨bytes.map fun b => .data [b], #[]⟩

def plan : DrainPlan := ⟨fun _ => .nextChunk, fun _ => trivial⟩

theorem inlet_steady (bytes : Bytes) : (inlet bytes).Steady := by
  refine ⟨Nat.one_pos, ?_⟩
  intro event he
  obtain ⟨b, -, rfl⟩ := List.mem_map.1 he
  exact ⟨[b], List.cons_ne_nil _ _, rfl⟩

theorem inlet_ahead (bytes : Bytes) : (inlet bytes).ahead = bytes := by
  have hahead : (inlet bytes).ahead
      = (bytes.map fun b => ReadEvent.data [b]).flatMap ReadEvent.bytes := rfl
  rw [hahead, List.flatMap_map]
  exact List.flatMap_singleton' bytes

theorem sent_received_bytewise :
    ∃ writer next wire, (start .chunked 2 outlet).send calls
          = (calls.map WriterCall.success, writer)
      ∧ writer.finish = (.ok (), next) ∧ next.pending = []
      ∧ next.sink.accepted = 33 :: wire
      ∧ Framing.Frames .chunked (some .empty) wire [97, 98, 99, 100]
      ∧ ∃ replies reader, (BodyReader.start (.start .none .chunked) (inlet (wire ++ [90]))).drainBy
            plan 0 = (replies, reader)
          ∧ Delivers .endOfBody replies [97, 98, 99, 100] ∧ reader.inlet.ahead = [90] := by
  have hs : outlet.sink.Willing := by
    refine ⟨?_, ?_⟩
    · simp [outlet, WriteEvent.Willing]
    · simp [outlet]
  have hb : ∀ bytes, .write bytes ∈ calls → bytes.length < 2 ^ 64 := by
    intro bytes hm
    simp [calls] at hm
    rcases hm with rfl | rfl | rfl
    · decide
    · decide
    · decide
  obtain ⟨writer, next, wire, hsend, hfinish, hpending, haccepted, hframes, hread⟩ :=
    sent_received .chunked hs (by decide : 2 < 2 ^ 64) hb
  exact ⟨writer, next, wire, hsend, hfinish, hpending, haccepted, hframes,
    hread (inlet (wire ++ [90])) [90] plan (inlet_steady _) (inlet_ahead _) False.elim⟩

end Bytewise

/-! A body without data and with any number of trailers, all of one name. -/

namespace CrowdedTrailers

def trailers (n : Nat) : Headers := ⟨List.replicate n Chunked.FieldLine.bare.field⟩

def calls (n : Nat) : List WriterCall := [.setTrailers (trailers n)]

def outlet : Outlet := .start 8 0 ⟨[], [], #[]⟩

theorem outlet_willing : outlet.sink.Willing := ⟨nofun, nofun⟩

theorem not_fit {n : Nat} (hn : 24576 < n) : ¬ Headers.Fit (WriterCall.lastTrailers (calls n)) := by
  intro hfit
  have hsize : (trailers n).size ≤ 24576 := hfit (trailers n) rfl
  rw [Headers.size, trailers, List.length_replicate] at hsize
  omega

theorem sent_overruns {n : Nat} (hn : 24576 < n) :
    ∃ writer next wire, (start .chunked 4 outlet).send (calls n) = ([.set], writer)
      ∧ writer.finish = (.ok (), next) ∧ next.sink.accepted = wire
      ∧ ∃ replies reader, (BodyReader.start (.start .none .chunked) (Bytewise.inlet wire)).drainBy
            Bytewise.plan 0 = (replies, reader)
          ∧ Delivers (.failed .overrun) replies [] := by
  have hb : ∀ bytes, .write bytes ∈ calls n → bytes.length < 2 ^ 64 := by simp [calls]
  obtain ⟨writer, next, wire, hsend, hfinish, -, haccepted, -, hread⟩ :=
    sent_received .chunked outlet_willing (by decide : 4 < 2 ^ 64) hb
  obtain ⟨replies, reader, hdrain, hdelivers, -⟩ := hread (Bytewise.inlet wire) [] Bytewise.plan
    (Bytewise.inlet_steady wire) (by rw [Bytewise.inlet_ahead, List.append_nil]) False.elim
  rw [Framing.ending, if_neg (not_fit hn)] at hdelivers
  exact ⟨writer, next, wire, hsend, hfinish, haccepted, replies, reader, hdrain, hdelivers⟩

/-- One trailer too many is sent like the others, and nobody gets to the end of what was sent. -/
theorem sent_crowded :
    ∃ writer next wire, (start .chunked 4 outlet).send (calls 24577) = ([.set], writer)
      ∧ writer.finish = (.ok (), next) ∧ next.sink.accepted = wire
      ∧ ∃ replies reader, (BodyReader.start (.start .none .chunked) (Bytewise.inlet wire)).drainBy
            Bytewise.plan 0 = (replies, reader)
          ∧ Delivers (.failed .overrun) replies [] ∧ ¬ Delivers .endOfBody replies [] := by
  have hn : 24576 < 24577 := by decide
  obtain ⟨writer, next, wire, hsend, hfinish, haccepted, replies, reader, hdrain, hdelivers⟩ :=
    sent_overruns hn
  exact ⟨writer, next, wire, hsend, hfinish, haccepted, replies, reader, hdrain, hdelivers,
    hdelivers.not_ended⟩

end CrowdedTrailers
end BodyWriter
end Http1
