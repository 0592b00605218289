import Http1.Proofs.RoundTrip

/-! What a finished body is worth on a sink that fails whenever it likes. A fragment that fails
half-way has left its size line in the outlet and its data nowhere, and the body can still be
finished. It is the right one as long as every write succeeded and no flush failed inside a fragment
or with bytes both sent and waiting (`BodyWriter.Unbroken`); a caller who stops at the first failure
is always on that side. -/

namespace Http1

/-- The data of the writes that succeeded. -/
def WriterCall.acknowledged : List WriterCall → List WriterReply → Bytes
  | .write bytes :: calls, .wrote (.ok _) :: replies => bytes ++ acknowledged calls replies
  | _ :: calls, _ :: replies => acknowledged calls replies
  | _, _ => []

namespace BodyWriter

/-- The call leaves what was acknowledged in order. A flush may fail for all that, once the cache is
in the outlet and while nothing is both sent and waiting. -/
def Survives (writer : BodyWriter) : WriterCall → Prop
  | .write bytes => (writer.write bytes).1 = .ok bytes.length
  | .flush => ∃ middle, writer.flushCache = (.ok (), middle) ∧ ¬ middle.outlet.Repeats .flush
  | .setTrailers _ => True

/-- Every call survives at the writer that it is made on. -/
def Unbroken (writer : BodyWriter) : List WriterCall → Prop
  | [] => True
  | first :: others => writer.Survives first ∧ (writer.call first).2.Unbroken others

variable {framing : Framing} {base data : Bytes} {writer : BodyWriter}

theorem survives_of_success {first : WriterCall} (h : (writer.call first).1 = first.success) :
    writer.Survives first := by
  cases first with
  | write bytes =>
    exact WriterReply.wrote.inj h
  | flush =>
    have hok : writer.flush.1 = .ok () := WriterReply.flushed.inj h
    unfold flush at hok
    split at hok
    · cases hok
    · next middle hcache =>
      exact ⟨middle, hcache, fun hr => hr.1 hok⟩
  | setTrailers trailers => trivial

theorem unbroken_of_success {calls : List WriterCall}
    (h : (writer.send calls).1 = calls.map WriterCall.success) : writer.Unbroken calls := by
  induction calls generalizing writer with
  | nil => trivial
  | cons first others ih =>
    obtain ⟨hfirst, hothers⟩ := List.cons.inj h
    exact ⟨survives_of_success hfirst, ih hothers⟩

theorem flush_sound (h : Sound framing base data writer) (hs : writer.Survives .flush) :
    Sound framing base data writer.flush.2 := by
  obtain ⟨middle, hcache, hr⟩ := hs
  obtain ⟨-, -, hmiddle⟩ := flushCache_sound h hcache
  have hstream := (Outlet.exact_of_not_repeats hr).stream_of_delivering (.inl rfl)
  rw [OutletCall.given, List.append_nil] at hstream
  unfold flush
  rw [hcache]
  exact hmiddle.onOutlet hstream

theorem call_sound (h : Sound framing base data writer) {first : WriterCall}
    (hs : writer.Survives first) (hb : ∀ bytes, first = .write bytes → bytes.length < 2 ^ 64) :
    Sound framing base (data ++ first.given) (writer.call first).2 := by
  cases first with
  | write bytes => exact write_sound h (hb bytes rfl) (Prod.ext hs rfl)
  | flush =>
    rw [WriterCall.given, List.append_nil]
    exact flush_sound h hs
  | setTrailers trailers =>
    rw [WriterCall.given, List.append_nil]
    exact withTrailers_sound h trailers

theorem acknowledged_survives {first : WriterCall} (hs : writer.Survives first)
    (others : List WriterCall) (replies : List WriterReply) :
    WriterCall.acknowledged (first :: others) ((writer.call first).1 :: replies)
      = first.given ++ WriterCall.acknowledged others replies := by
  cases first with
  | write bytes =>
    have hreply : (writer.call (.write bytes)).1 = .wrote (.ok bytes.length) :=
      congrArg WriterReply.wrote hs
    rw [hreply]
    rfl
  | flush => rfl
  | setTrailers trailers => rfl

/-- What was acknowledged by an unbroken run comes behind what was given before. -/
theorem send_sound {calls : List WriterCall} (h : Sound framing base data writer)
    (hu : writer.Unbroken calls) (hb : ∀ bytes, .write bytes ∈ calls → bytes.length < 2 ^ 64) :
    Sound framing base (data ++ WriterCall.acknowledged calls (writer.send calls).1)
      (writer.send calls).2 := by
  induction calls generalizing writer data with
  | nil => exact (List.append_nil data).symm ▸ h
  | cons first others ih =>
    have hfirst := call_sound h hu.1 fun bytes hw => hb bytes (hw ▸ List.mem_cons_self)
    have hothers := ih hfirst hu.2 fun bytes hm => hb bytes (List.mem_cons_of_mem _ hm)
    rw [List.append_assoc, ← acknowledged_survives hu.1] at hothers
    exact hothers

/-- A finish that succeeds after an unbroken run has put one chunked body on the wire, which is
decoded to what was acknowledged, and to its end as long as there is room for the trailers. A run in
which every call succeeds is unbroken. -/
theorem finish_acknowledged {chunkSize : Nat} {outlet : Outlet} {calls : List WriterCall}
    {replies : List WriterReply} {writer : BodyWriter} (hc : chunkSize < 2 ^ 64)
    (hb : ∀ bytes, .write bytes ∈ calls → bytes.length < 2 ^ 64)
    (hsend : (start .chunked chunkSize outlet).send calls = (replies, writer)) :
    (replies = calls.map WriterCall.success → (start .chunked chunkSize outlet).Unbroken calls)
    ∧ ((start .chunked chunkSize outlet).Unbroken calls →
      ∀ next, writer.finish = (.ok (), next) →
        next.pending = [] ∧ ∃ body : Chunked.WholeBody,
          next.sink.accepted = outlet.stream ++ body.wire
          ∧ body.data = WriterCall.acknowledged calls replies
          ∧ (Headers.Fit (WriterCall.lastTrailers calls) →
            ∀ rest, BodyDecoder.scan (.start .none .chunked) (body.wire ++ rest)
              = ⟨body.data, .endOfBody, .chunked .none (.done body.trailers), rest⟩)
          ∧ (¬ Headers.Fit (WriterCall.lastTrailers calls) →
            ∀ rest, BodyDecoder.scan (.start .none .chunked) (body.wire ++ rest)
              = ⟨body.data, .failed .overrun, .chunked .none (.endLf (.ofLines body.lines)),
                rest⟩)) := by
  constructor
  · intro hok
    exact unbroken_of_success (hok ▸ congrArg Prod.fst hsend)
  · intro hu next hf
    have hsound := send_sound (start_sound .chunked outlet hc) hu hb
    have htrailers := start_trailers rfl chunkSize outlet calls
    rw [hsend, List.nil_append] at hsound
    rw [hsend] at htrailers
    dsimp only at hsound
    obtain ⟨hpending, wire, haccepted, hframes⟩ := finish_sound hsound (fun _ => htrailers) hf
    generalize WriterCall.acknowledged calls replies = data at hframes ⊢
    generalize WriterCall.lastTrailers calls = trailers at hframes ⊢
    cases hframes with
    | chunked chunks trailers =>
      have hroom := Chunked.WholeBody.hasRoom_ofChunks chunks trailers
      exact ⟨hpending, .ofChunks chunks trailers, haccepted, rfl,
        fun hfit => Chunked.WholeBody.scan (hroom.2 hfit),
        fun hfit => Chunked.WholeBody.scan_overrun fun h => hfit (hroom.1 h)⟩

/-! A flush of the sink that fails between two chunks, and a write to the sink that fails while the
cache is sent. -/

namespace Failing

def outlet (writes : List WriteEvent) (flushes : List (Except IoError Unit)) : Outlet :=
  .start 8 0 ⟨writes, flushes, #[]⟩

def broken : IoError := ⟨.brokenPipe, ""⟩

def harmless : BodyWriter := .start .chunked 4 (outlet [] [.error broken])

def harmful : BodyWriter := .start .chunked 4 (outlet [.fail broken] [])

theorem finish_between_chunks :
    (harmless.send [.write [97, 98], .flush, .write [99]]).1
        = [.wrote (.ok 2), .flushed (.error broken), .wrote (.ok 1)]
      ∧ ∃ next, (harmless.send [.write [97, 98], .flush, .write [99]]).2.finish = (.ok (), next)
        ∧ next.pending = [] ∧ ∃ body : Chunked.WholeBody,
          next.sink.accepted = body.wire ∧ body.data = [97, 98, 99] := by
  have hreplies : (harmless.send [.write [97, 98], .flush, .write [99]]).1
      = [.wrote (.ok 2), .flushed (.error broken), .wrote (.ok 1)] := by cbv
  have hfinish : (harmless.send [.write [97, 98], .flush, .write [99]]).2.finish.1 = .ok () := by
    cbv
  have hu : harmless.Unbroken [.write [97, 98], .flush, .write [99]] := by
    refine ⟨rfl, ⟨_, Prod.ext ?_ rfl, ?_⟩, ?_, trivial⟩
    · cbv
    · intro hr
      exact hr.2.1 (by cbv)
    · unfold Survives
      cbv
  have hb : ∀ bytes, WriterCall.write bytes ∈ [.write [97, 98], .flush, .write [99]] →
      bytes.length < 2 ^ 64 := by
    intro bytes hm
    simp at hm
    rcases hm with rfl | rfl
    · decide
    · decide
  obtain ⟨hpending, body, haccepted, hdata, -⟩ :=
    (finish_acknowledged (by decide : 4 < 2 ^ 64) hb (Prod.ext hreplies rfl)).2 hu _
      (Prod.ext hfinish rfl)
  exact ⟨hreplies, _, Prod.ext hfinish rfl, hpending, body, haccepted, hdata⟩

theorem finish_inside_chunk :
    (harmful.send [.write [97, 98], .flush]).1 = [.wrote (.ok 2), .flushed (.error broken)]
      ∧ (harmful.send [.write [97, 98], .flush]).2.finish.1 = .ok ()
      ∧ (harmful.send [.write [97, 98], .flush]).2.finish.2.sink.accepted
        = [50, 13, 10, 48, 13, 10, 13, 10]
      ∧ (BodyDecoder.scan (.start .none .chunked) [50, 13, 10, 48, 13, 10, 13, 10]).last.item
        = .failed (.error (.invalidChunk "invalid chunk body CR"))
      ∧ ¬ ∃ body : Chunked.WholeBody,
        (harmful.send [.write [97, 98], .flush]).2.finish.2.sink.accepted = body.wire := by
  have haccepted : (harmful.send [.write [97, 98], .flush]).2.finish.2.sink.accepted
      = [50, 13, 10, 48, 13, 10, 13, 10] := by cbv
  have hfailed :
      (BodyDecoder.scan (.start .none .chunked) [50, 13, 10, 48, 13, 10, 13, 10]).last.item
        = .failed (.error (.invalidChunk "invalid chunk body CR")) := by cbv
  refine ⟨by cbv, by cbv, haccepted, hfailed, ?_⟩
  rintro ⟨body, hbody⟩
  have hscan := Chunked.WholeBody.scan_front body.passes_front []
  rw [List.append_nil, ← hbody, haccepted] at hscan
  rw [hscan] at hfailed
  split at hfailed
  · cases hfailed
  · cases hfailed

end Failing
end BodyWriter
end Http1
