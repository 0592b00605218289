import Http1.Proofs.Lifecycle
import Http1.Proofs.Offers

/-! The buffers of a connection stay within the sizes of its configuration. An inlet is filled only
while at most a buffer of bytes is there, so it never holds more than two (`Inlet.Roomy`). An
outlet may get the line in front of a chunk whatever it holds, but the data and the line end behind
that make it send what does not fit, so it is back within its capacity when the fragment is written,
unless the sink has failed (`Outlet.Bounded`). -/

namespace Http1

/-! ### The inlet -/

theorem Source.readFrom_length (offered : Nat) (calls : Array Call) (script : List ReadEvent) :
    (given (readFrom offered calls script).1).length ≤ offered := by
  fun_induction readFrom offered calls script with
  | case1 calls => exact Nat.zero_le _
  | case2 calls bytes rest taken left => exact List.length_take_le _ _
  | case3 calls error rest calls' hk ih => exact ih
  | case4 calls error rest calls' hk => exact Nat.zero_le _

namespace Inlet

theorem fill_le (inlet : Inlet) :
    inlet.fill.2.buffered.length ≤ inlet.buffered.length + inlet.readSize := by
  have hread : (Source.given (inlet.source.read inlet.readSize).1).length ≤ inlet.readSize :=
    Source.readFrom_length _ _ _
  unfold fill
  cases hr : inlet.source.read inlet.readSize with
  | mk answer source =>
    rw [hr] at hread
    cases answer with
    | error error => exact Nat.le_add_right _ _
    | ok bytes =>
      simp only [List.length_append]
      exact Nat.add_le_add_left hread _

theorem fill_readSize (inlet : Inlet) : inlet.fill.2.readSize = inlet.readSize := by
  unfold fill
  rcases inlet.source.read inlet.readSize with ⟨error | bytes, source⟩
  · rfl
  · rfl

/-- Every fill is on record, with the room that it makes. -/
theorem fill_longest (inlet : Inlet) :
    inlet.fill.2.longest = max inlet.longest (inlet.buffered.length + inlet.readSize) := by
  unfold fill
  rcases inlet.source.read inlet.readSize with ⟨error | bytes, source⟩
  · rfl
  · rfl

/-- An inlet that reads `size` bytes at a time and has never held more than twice as many. -/
structure Roomy (size : Nat) (inlet : Inlet) : Prop where
  readSize : inlet.readSize = size
  recorded : inlet.buffered.length ≤ inlet.longest
  longest_le : inlet.longest ≤ 2 * size

/-- A fill with at most a read in the buffer makes room for a second one. -/
theorem roomy_kept (size : Nat) : Kept size (Roomy size) where
  fill inlet hb h := by
    have hreadSize := h.readSize
    refine ⟨(fill_readSize inlet).trans hreadSize, ?_, ?_⟩
    · rw [fill_longest]
      exact (fill_le inlet).trans (le_max_right _ _)
    · rw [fill_longest]
      exact max_le h.longest_le (by omega)
  take inlet rest hrest h := ⟨h.readSize, hrest.length_le.trans h.recorded, h.longest_le⟩

/-- Nothing is ever struck off the record. -/
theorem longest_kept (least most : Nat) : Kept most fun inlet => least ≤ inlet.longest where
  fill inlet _ h := by
    rw [fill_longest]
    exact h.trans (le_max_left _ _)
  take _ _ _ h := h

end Inlet

/-! ### The outlet -/

/-- It is no write or flush that has failed. A write that takes nothing has failed too. -/
def Call.Sound (call : Call) : Prop := call.IsWrite → call.fault? = none

/-- Offers that fail have met the failure of a write. -/
theorem Offers.exists_fault {bytes : Bytes} {calls : List Call} {answer : Except IoError Unit}
    (h : Offers bytes calls answer) {error : IoError} (he : answer = .error error) :
    ∃ call ∈ calls, call.IsWrite ∧ call.fault? = some error := by
  induction h with
  | done => cases he
  | taken hn hle h ih =>
    obtain ⟨call, hc, hfault⟩ := ih he
    exact ⟨call, List.mem_cons_of_mem _ hc, hfault⟩
  | again hb hk h ih =>
    obtain ⟨call, hc, hfault⟩ := ih he
    exact ⟨call, List.mem_cons_of_mem _ hc, hfault⟩
  | failed hb hf =>
    cases he
    exact ⟨_, List.mem_cons_self, trivial, hf⟩

/-- A write fails only when one of its calls does. -/
theorem Sink.writeAll_unsound {sink next : Sink} {bytes : Bytes} {error : IoError}
    (h : sink.writeAll bytes = (.error error, next)) : ¬ LogOf Call.Sound next.calls := by
  obtain ⟨made, hcalls, hoffers⟩ := sink.writeAll_offers bytes
  rw [h] at hcalls hoffers
  obtain ⟨call, hc, hwrite, hfault⟩ := hoffers.exists_fault rfl
  intro hsound
  have hmem : call ∈ next.calls := by
    rw [← Array.mem_toList_iff, hcalls]
    exact List.mem_append_right _ hc
  have hnone := hsound call hmem hwrite
  rw [hfault] at hnone
  cases hnone

namespace Outlet

/-- An outlet of this capacity. -/
structure Sized (bound : Nat) (outlet : Outlet) : Prop where
  capacity : outlet.capacity = bound
  threshold : outlet.threshold ≤ bound

/-- What waits is within the capacity, unless a call has failed since or among the earlier ones. -/
structure Bounded (bound : Nat) (earlier : Array Call) (outlet : Outlet) : Prop
    extends Sized bound outlet where
  pending : LogOf Call.Sound (earlier ++ outlet.sink.calls) → outlet.pending.length ≤ bound

variable {bound : Nat} {earlier : Array Call} {outlet : Outlet}

/-- Behind a flush of the buffer nothing waits. -/
theorem afterFlush_bounded {next : Outlet → Except IoError Unit × Outlet} (h : outlet.Sized bound)
    (hn : ∀ middle : Outlet, middle.Sized bound → middle.pending = [] →
      (next middle).2.Bounded bound earlier) :
    (outlet.afterFlush next).2.Bounded bound earlier := by
  unfold afterFlush flushBuffer
  cases hw : outlet.sink.writeAll outlet.pending with
  | mk answer sink =>
    cases answer with
    | error error =>
      exact ⟨⟨h.capacity, h.threshold⟩, fun hs => absurd hs.right (Sink.writeAll_unsound hw)⟩
    | ok u => exact hn _ ⟨h.capacity, h.threshold⟩ rfl

/-- A write that is not empty brings an outlet back within its capacity. -/
theorem write_bounded {bytes : Bytes} (h : outlet.Sized bound)
    (hb : bytes ≠ [] ∨ outlet.Bounded bound earlier) :
    (outlet.write bytes).2.Bounded bound earlier := by
  have hthreshold := h.threshold
  unfold write
  split
  · refine afterFlush_bounded h ?_
    intro middle hm hempty
    refine ⟨⟨hm.capacity, hm.threshold⟩, fun _ => ?_⟩
    rw [sendDirect, hempty]
    exact Nat.zero_le _
  split
  · refine afterFlush_bounded h ?_
    intro middle hm hempty
    refine ⟨⟨hm.capacity, hm.threshold⟩, fun _ => ?_⟩
    simp only [append, hempty, List.nil_append]
    omega
  · next hfits =>
    refine ⟨⟨h.capacity, h.threshold⟩, fun hs => ?_⟩
    rw [h.capacity] at hfits
    rw [append, List.length_append]
    rcases hb with hne | hbounded
    · -- an outlet that holds too much has no room for a byte
      have hpos := List.length_pos_iff.2 hne
      omega
    · have hle := hbounded.pending hs
      omega

theorem flush_bounded (h : outlet.Sized bound) : outlet.flush.2.Bounded bound earlier := by
  refine afterFlush_bounded h ?_
  intro middle hm hempty
  refine ⟨⟨hm.capacity, hm.threshold⟩, fun _ => ?_⟩
  dsimp only
  rw [hempty]
  exact Nat.zero_le _

end Outlet

/-- Only a piece of data that is not empty has something in front of it. -/
theorem BodyEncoder.beginFragment_lead {encoder next : BodyEncoder} {size : Nat}
    {fragment : Fragment} (h : encoder.beginFragment size = .ok (fragment, next)) :
    fragment.lead = [] ∨ fragment.size = size ∧ size ≠ 0 := by
  cases encoder with
  | length left => cases h; exact .inl rfl
  | untilClose ended => cases h; exact .inl rfl
  | chunked encoder =>
    rw [beginFragment, Chunked.Encoder.beginChunk] at h
    split at h
    · cases h
    split at h
    · cases h; exact .inl rfl
    · next hne => cases h; exact .inr ⟨rfl, hne⟩

namespace BodyWriter

/-- A writer whose cache stays below a chunk of `most` bytes, over an outlet within its capacity. -/
structure Bounded (bound : Nat) (earlier : Array Call) (most : Nat) (writer : BodyWriter) :
    Prop where
  chunkSize : writer.chunkSize = most
  cache : writer.cache = [] ∨ writer.cache.length < most
  outlet : writer.outlet.Bounded bound earlier

variable {bound most : Nat} {earlier : Array Call} {writer : BodyWriter}

theorem writeFragment_bounded (h : writer.Bounded bound earlier most) (bytes : Bytes) :
    (writer.writeFragment bytes).2.Bounded bound earlier most
      ∧ (writer.writeFragment bytes).2.cache = writer.cache := by
  unfold writeFragment
  split
  · exact ⟨h, rfl⟩
  · next fragment encoder hbegin =>
    have hsized : (writer.outlet.append fragment.lead).Sized bound :=
      ⟨h.outlet.capacity, h.outlet.threshold⟩
    have hlead : bytes.take fragment.size ≠ []
        ∨ (writer.outlet.append fragment.lead).Bounded bound earlier := by
      rcases BodyEncoder.beginFragment_lead hbegin with hnone | ⟨hsize, hne⟩
      · right
        rw [hnone, Outlet.append, List.append_nil]
        exact h.outlet
      · left
        rw [hsize, List.take_length]
        exact List.ne_nil_of_length_pos (Nat.pos_of_ne_zero hne)
    have hdata := Outlet.write_bounded hsized hlead
    split
    · next hr =>
      rw [hr] at hdata
      exact ⟨⟨h.chunkSize, h.cache, hdata⟩, rfl⟩
    · next middle hr =>
      rw [hr] at hdata
      have hsuffix : (middle.write fragment.suffix).2.Bounded bound earlier :=
        Outlet.write_bounded hdata.toSized (.inr hdata)
      exact ⟨⟨h.chunkSize, h.cache, hsuffix⟩, rfl⟩

theorem flushCache_bounded (h : writer.Bounded bound earlier most) :
    writer.flushCache.2.Bounded bound earlier most ∧ writer.flushCache.2.cache = [] := by
  unfold flushCache
  split
  · next hempty => exact ⟨h, List.isEmpty_iff.1 hempty⟩
  · have hcleared : ({ writer with cache := [] } : BodyWriter).Bounded bound earlier most :=
      ⟨h.chunkSize, .inl rfl, h.outlet⟩
    exact writeFragment_bounded hcleared writer.cache

theorem keep_bounded (h : writer.Bounded bound earlier most) {bytes : Bytes}
    (hb : writer.cache.length + bytes.length < most) :
    (writer.keep bytes).Bounded bound earlier most := by
  refine ⟨h.chunkSize, .inr ?_, h.outlet⟩
  rw [keep, List.length_append]
  exact hb

theorem take_bounded (h : writer.Bounded bound earlier most) (bytes : Bytes) :
    (writer.take bytes).2.Bounded bound earlier most := by
  have hflushed := flushCache_bounded h
  unfold take
  split
  · exact (writeFragment_bounded h bytes).1
  split
  · next hfits =>
    rw [h.chunkSize] at hfits
    exact keep_bounded h hfits
  split
  · next hr =>
    rw [hr] at hflushed
    exact hflushed.1
  · next middle hr =>
    rw [hr] at hflushed
    obtain ⟨hmiddle, hempty⟩ := hflushed
    split
    · next hfits =>
      refine keep_bounded hmiddle ?_
      rw [hmiddle.chunkSize] at hfits
      rwa [hempty, List.length_nil, Nat.zero_add]
    · exact (writeFragment_bounded hmiddle bytes).1

theorem flush_bounded (h : writer.Bounded bound earlier most) :
    writer.flush.2.Bounded bound earlier most := by
  have hflushed := (flushCache_bounded h).1
  unfold flush
  split
  · next hr =>
    rw [hr] at hflushed
    exact hflushed
  · next middle hr =>
    rw [hr] at hflushed
    exact ⟨hflushed.chunkSize, hflushed.cache, Outlet.flush_bounded hflushed.outlet.toSized⟩

theorem call_bounded (h : writer.Bounded bound earlier most) (call : WriterCall) :
    (writer.call call).2.Bounded bound earlier most := by
  cases call with
  | write bytes => exact take_bounded h bytes
  | flush => exact flush_bounded h
  | setTrailers trailers => exact ⟨h.chunkSize, h.cache, h.outlet⟩

theorem send_bounded (h : writer.Bounded bound earlier most) (calls : List WriterCall) :
    (writer.send calls).2.Bounded bound earlier most := by
  induction calls generalizing writer with
  | nil => exact h
  | cons first others ih => exact ih (call_bounded h first)

theorem finish_bounded (h : writer.Bounded bound earlier most) :
    writer.finish.2.Bounded bound earlier := by
  have hflushed := (flushCache_bounded h).1
  unfold finish
  split
  · next hr =>
    rw [hr] at hflushed
    exact hflushed.outlet
  · next middle hr =>
    rw [hr] at hflushed
    split
    · exact hflushed.outlet
    · next last _ _ =>
      have hsized : (middle.outlet.append last).Sized bound :=
        ⟨hflushed.outlet.capacity, hflushed.outlet.threshold⟩
      exact Outlet.flush_bounded hsized

theorem start_bounded {outlet : Outlet} (h : outlet.Bounded bound earlier) (framing : Framing)
    (chunkSize : Nat) :
    (start framing chunkSize outlet).Bounded bound earlier
      (if framing.isChunked then chunkSize else 0) :=
  ⟨rfl, .inl rfl, h⟩

theorem use_bounded {outlet : Outlet} (h : outlet.Bounded bound earlier) (framing : Framing)
    (chunkSize : Nat) (calls : List WriterCall) (finish : Bool) :
    (use calls finish (.start framing chunkSize outlet)).2.Bounded bound earlier := by
  have hsent := send_bounded (start_bounded h framing chunkSize) calls
  cases finish with
  | true => exact finish_bounded hsent
  | false => exact hsent.outlet

end BodyWriter

/-! ### The connection -/

/-- A session whose buffers are within the sizes of a configuration. -/
structure Session.Bounded (config : Config) (session : Session) : Prop where
  inlet : Inlet.Roomy config.bufferSize session.inlet
  sized : session.outlet.Sized config.bufferSize
  handed : session.outlet.sink.calls = #[]
  pending : LogOf Call.Sound session.log → session.outlet.pending.length ≤ config.bufferSize

namespace Session

variable {config : Config} {session : Session}

theorem start_bounded (config : Config) (endpoint : Endpoint) (log : Array Call) :
    (Session.start config endpoint log).Bounded config where
  inlet := ⟨rfl, Nat.zero_le _, Nat.zero_le _⟩
  sized := ⟨rfl, Nat.min_le_right _ _⟩
  handed := rfl
  pending _ := Nat.zero_le _

theorem queryTimeout_bounded (h : session.Bounded config) :
    session.queryTimeout.2.Bounded config :=
  ⟨h.inlet, h.sized, h.handed, fun hs => h.pending hs.of_push⟩

theorem changeTimeout_bounded (h : session.Bounded config) (timeout : Timeout) :
    (session.changeTimeout timeout).2.Bounded config :=
  ⟨h.inlet, h.sized, h.handed, fun hs => h.pending hs.of_push⟩

theorem receiving_bounded {α : Type} {use : Inlet → α × Inlet} (h : session.Bounded config)
    (hu : ∀ {P : Inlet → Prop}, Inlet.Kept config.bufferSize P →
      ∀ inlet, P inlet → P (use inlet).2) :
    (session.receiving use).2.Bounded config := by
  have hnext := hu (Inlet.roomy_kept config.bufferSize) session.inlet h.inlet
  exact ⟨⟨hnext.readSize, hnext.recorded, hnext.longest_le⟩, h.sized, h.handed,
    fun hs => h.pending hs.left⟩

theorem Bounded.outlet (h : session.Bounded config) :
    session.outlet.Bounded config.bufferSize session.log := by
  refine ⟨h.sized, ?_⟩
  rw [h.handed, Array.append_empty]
  exact h.pending

theorem sending_bounded {α : Type} {use : Outlet → α × Outlet} (h : session.Bounded config)
    (hu : (use session.outlet).2.Bounded config.bufferSize session.log) :
    (session.sending use).2.Bounded config :=
  ⟨h.inlet, ⟨hu.capacity, hu.threshold⟩, rfl, hu.pending⟩

/-- Every step keeps the buffers within their sizes. -/
theorem Steps.bounded {last : Session} (hs : Steps config session last)
    (h : session.Bounded config) : last.Bounded config := by
  induction hs with
  | refl => exact h
  | query _ ih => exact queryTimeout_bounded ih
  | change _ timeout ih => exact changeTimeout_bounded ih timeout
  | peek _ ih => exact receiving_bounded ih fun hP inlet => Inlet.peek_keeps hP inlet
  | head _ ih => exact receiving_bounded ih fun hP inlet => Inlet.readHead_keeps hP le_rfl inlet
  | body _ framing calls ih =>
    exact receiving_bounded ih fun hP inlet =>
      BodyReader.run_keeps hP (.start (.ofConfig config framing) inlet) calls
  | flush _ ih => exact sending_bounded ih (Outlet.flush_bounded ih.outlet.toSized)
  | send _ framing calls finish ih =>
    exact sending_bounded ih
      (BodyWriter.use_bounded ih.outlet framing config.chunkSizeHint calls finish)

end Session

namespace Connection

/-- The record of an open connection goes on through everything that leaves it open. -/
theorem run_longest {connection : Connection} {session last : Session} {operations : List Operation}
    (hsession : connection.session? = some session)
    (hlast : (connection.run operations).2.session? = some last) :
    session.inlet.longest ≤ last.inlet.longest := by
  obtain ⟨addresses, hopen⟩ := session?_eq_some.1 hsession
  rw [eq_withOpen hopen] at hlast
  have hsteps := run_steps hlast
  exact hsteps.keeps (Inlet.longest_kept session.inlet.longest _) (fun _ h => h) le_rfl

/-- The buffers of a connection stay within the sizes of its configuration, whatever the endpoint
does and whatever is done. The most that the inlet has ever held, on a record that begins with the
connection and goes through all of the run, is two buffers of bytes. Unless a write or a flush has
failed, what waits to be sent fits one buffer, and that is so after each call on the writer of a
body too. The cache of a writer stays below the chunk size that was asked for, and nothing is cached
when that is zero or the body is not chunked. -/
theorem run_bounded (config : Config) (strategy : Headers → Except ParseError Framing)
    (operations : List Operation) {last : Session}
    (hlast : ((start config strategy).run operations).2.session? = some last) :
    (∀ front earlier, front <+: operations →
        ((start config strategy).run front).2.session? = some earlier →
        earlier.inlet.buffered.length ≤ earlier.inlet.longest
          ∧ earlier.inlet.longest ≤ last.inlet.longest)
      ∧ last.inlet.longest ≤ 2 * config.bufferSize
      ∧ last.inlet.buffered.length ≤ 2 * config.bufferSize
      ∧ (LogOf Call.Sound last.log → last.outlet.pending.length ≤ config.bufferSize)
      ∧ ∀ framing calls,
        let writer := ((BodyWriter.start framing config.chunkSizeHint last.outlet).send calls).2
        (LogOf Call.Sound (last.log ++ writer.outlet.sink.calls) →
            writer.outlet.pending.length ≤ config.bufferSize)
          ∧ (0 < config.chunkSizeHint → writer.cache.length < config.chunkSizeHint)
          ∧ (config.chunkSizeHint = 0 ∨ framing.isChunked = false → writer.cache = []) := by
  have hrecorded {operations : List Operation} {session : Session}
      (h : ((start config strategy).run operations).2.session? = some session) :
      session.Bounded config := by
    obtain ⟨endpoint, -, hsteps⟩ := start_steps h
    exact hsteps.bounded (Session.start_bounded config endpoint _)
  have hbounded := hrecorded hlast
  refine ⟨?_, hbounded.inlet.longest_le,
    hbounded.inlet.recorded.trans hbounded.inlet.longest_le, hbounded.pending, ?_⟩
  · rintro front earlier ⟨back, rfl⟩ hearlier
    rw [run_append] at hlast
    exact ⟨(hrecorded hearlier).inlet.recorded, run_longest hearlier hlast⟩
  intro framing calls writer
  have hwriter : writer.Bounded config.bufferSize last.log
      (if framing.isChunked then config.chunkSizeHint else 0) :=
    BodyWriter.send_bounded (BodyWriter.start_bounded hbounded.outlet framing _) calls
  refine ⟨hwriter.outlet.pending, ?_, ?_⟩
  · intro hpos
    rcases hwriter.cache with hempty | hlt
    · rwa [hempty]
    · split at hlt
      · exact hlt
      · omega
  · intro hnone
    rcases hwriter.cache with hempty | hlt
    · exact hempty
    · split at hlt
      · next hchunked =>
        rcases hnone with hzero | hno
        · omega
        · rw [hchunked] at hno
          cases hno
      · omega

end Connection

/-! A chunk larger than the buffer, over an endpoint that takes its size line in two writes and is
interrupted between them. -/

namespace SmallBuffers

def config : Config := ⟨4, 3, none, none, by decide⟩

def endpoint : Endpoint where
  reads := [.data [97, 98, 99, 100, 101, 102]]
  writes := [.accept 1, .fail ⟨.interrupted, ""⟩, .accept 2]
  flushes := []
  control := ⟨⟨7⟩, [], [], []⟩
  localAddr := .ok "a"
  peerAddr := .ok "b"

def last? : Option Session :=
  ((Connection.start config fun _ => .ok .untilClose).run
    [.bind endpoint, .isStale, .sendContent .chunked [.write [1, 2], .write [3, 4, 5, 6]] false]).2
    |>.session?

theorem run_bounded_small :
    ∃ last, last? = some last ∧ LogOf Call.Sound last.log ∧ last.inlet.longest ≤ 8
      ∧ last.inlet.buffered.length ≤ 8 ∧ last.outlet.pending.length ≤ 4 := by
  obtain ⟨last, hlast⟩ := Option.isSome_iff_exists.1 (by decide +kernel : last?.isSome = true)
  have hfaults : last?.all (·.log.toList.all (·.fault?.isNone)) = true := by decide +kernel
  rw [hlast, Option.all_some, List.all_eq_true] at hfaults
  have hsound : LogOf Call.Sound last.log :=
    fun call hc _ => Option.isNone_iff_eq_none.1 (hfaults call (Array.mem_toList_iff.2 hc))
  obtain ⟨-, hlongest, hinlet, houtlet, -⟩ := Connection.run_bounded config _ _ hlast
  exact ⟨last, hlast, hsound, hlongest, hinlet, houtlet hsound⟩

end SmallBuffers
end Http1
