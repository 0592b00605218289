import Mathlib
import Http1.Connection

/-! Sending over a sink that fails whenever it likes. What waits leaves the outlet only when all of
it was sent, so a flush that fails behind a front part of it leaves that part in both places and the
next one sends it again (`Outlet.Repeats`). Every other call, whether it fails or not, keeps the
bytes that were taken and those that wait together as one stream (`Outlet.Exact`), and over a whole
run no byte comes twice just when no call repeats one (`Outlet.run_exact_iff`). -/

namespace Http1

/-- A call on an outlet. -/
inductive OutletCall
  | write (bytes : Bytes)
  | flushBuffer
  | flush

def OutletCall.given : OutletCall → Bytes
  | write bytes => bytes
  | flushBuffer | flush => []

namespace Sink

theorem writeAll_nil (sink : Sink) : sink.writeAll [] = (.ok (), sink) := by
  obtain ⟨writes, flushes, calls⟩ := sink
  cases writes with
  | nil => rfl
  | cons event rest => rfl

end Sink

namespace Outlet

def call (outlet : Outlet) : OutletCall → Except IoError Unit × Outlet
  | .write bytes => outlet.write bytes
  | .flushBuffer => outlet.flushBuffer
  | .flush => outlet.flush

/-- Any calls one after the other, whatever they come to. -/
def run (outlet : Outlet) : List OutletCall → List (Except IoError Unit) × Outlet
  | [] => ([], outlet)
  | first :: others =>
    let (answer, next) := outlet.call first
    let (answers, last) := next.run others
    (answer :: answers, last)

theorem run_cons (outlet : Outlet) (first : OutletCall) (others : List OutletCall) :
    outlet.run (first :: others) = ((outlet.call first).1 :: ((outlet.call first).2.run others).1,
      ((outlet.call first).2.run others).2) :=
  rfl

/-- Holds of every call of a run, at the outlet that the call is made on. -/
def Along (P : Outlet → OutletCall → Prop) (outlet : Outlet) : List OutletCall → Prop
  | [] => True
  | first :: others => P outlet first ∧ Along P (outlet.call first).2 others

/-- The call fails and leaves bytes waiting, although the sink has taken some. -/
def Repeats (outlet : Outlet) (attempt : OutletCall) : Prop :=
  (outlet.call attempt).1 ≠ .ok () ∧ (outlet.call attempt).2.pending ≠ []
    ∧ (outlet.call attempt).2.sink.accepted ≠ outlet.sink.accepted

/-- A call that succeeds puts what it was given behind the stream, and one that fails a front part
of that; so a flush leaves the stream as it is. -/
def Exact (outlet : Outlet) (attempt : OutletCall) : Prop :=
  ∃ front, front <+: attempt.given ∧ (outlet.call attempt).2.stream = outlet.stream ++ front
    ∧ ((outlet.call attempt).1 = .ok () → front = attempt.given)

/-- The operation failed and what waited waits on; the sink may have taken a front part of it all
the same. -/
structure Waits (outlet : Outlet) (came : Except IoError Unit × Outlet) : Prop where
  failed : came.1 ≠ .ok ()
  waiting : outlet.pending ≠ []
  pending : came.2.pending = outlet.pending
  accepted : ∃ taken, taken <+: outlet.pending
    ∧ came.2.sink.accepted = outlet.sink.accepted ++ taken

/-- What an operation that is given bytes can come to. -/
inductive Comes (outlet : Outlet) (given : Bytes) : Except IoError Unit × Outlet → Prop
  | done {next : Outlet} (h : next.stream = outlet.stream ++ given) :
    Comes outlet given (.ok (), next)
  | cut {error : IoError} {next : Outlet} (front : Bytes) (hf : front <+: given)
      (hp : next.pending = []) (h : next.stream = outlet.stream ++ front) :
    Comes outlet given (.error error, next)
  | waits {came : Except IoError Unit × Outlet} (h : outlet.Waits came) : Comes outlet given came

variable {outlet next : Outlet}

theorem flushBuffer_failed {error : IoError} (h : outlet.flushBuffer = (.error error, next)) :
    outlet.Waits (.error error, next) := by
  obtain ⟨taken, htaken, haccepted, -⟩ := outlet.sink.writeAll_accepted outlet.pending
  have hwaiting : outlet.pending ≠ [] := by
    intro hp
    rw [flushBuffer, hp, Sink.writeAll_nil] at h
    cases h
  unfold flushBuffer at h
  generalize outlet.sink.writeAll outlet.pending = written at h haccepted
  obtain ⟨error | u, sink⟩ := written
  · cases h
    exact ⟨nofun, hwaiting, rfl, taken, htaken, haccepted⟩
  · cases h

/-- What is done once nothing waits decides what the operation comes to. -/
theorem afterFlush_comes {given : Bytes} {use : Outlet → Except IoError Unit × Outlet}
    (huse : ∀ middle : Outlet, middle.pending = [] → middle.Comes given (use middle)) :
    outlet.Comes given (outlet.afterFlush use) := by
  unfold afterFlush
  split
  · next error middle hflush => exact .waits (flushBuffer_failed hflush)
  · next middle hflush =>
    obtain ⟨hpending, hstream⟩ := flushBuffer_stream hflush
    have hcomes := huse middle hpending
    generalize use middle = came at hcomes
    rcases hcomes with h | ⟨front, hf, hp, h⟩ | h
    · exact .done (by rw [h, hstream])
    · exact .cut front hf hp (by rw [h, hstream])
    · exact absurd hpending h.waiting

theorem sendDirect_comes (bytes : Bytes) (hp : outlet.pending = []) :
    outlet.Comes bytes (outlet.sendDirect bytes) := by
  obtain ⟨taken, htaken, haccepted, hall⟩ := outlet.sink.writeAll_accepted bytes
  have hstream (sink : Sink) (h : sink.accepted = outlet.sink.accepted ++ taken) :
      ({ outlet with sink } : Outlet).stream = outlet.stream ++ taken := by
    rw [stream, stream, hp, h, List.append_nil, List.append_nil]
  unfold sendDirect
  generalize outlet.sink.writeAll bytes = written at haccepted hall
  obtain ⟨error | u, sink⟩ := written
  · exact .cut taken htaken hp (hstream sink haccepted)
  · exact .done (hall rfl ▸ hstream sink haccepted)

theorem write_comes (outlet : Outlet) (bytes : Bytes) :
    outlet.Comes bytes (outlet.write bytes) := by
  unfold write
  split
  · exact afterFlush_comes fun middle hp => sendDirect_comes bytes hp
  split
  · exact afterFlush_comes fun middle _ => .done (middle.append_stream bytes)
  · exact .done (outlet.append_stream bytes)

theorem write_stream {bytes : Bytes} (h : outlet.write bytes = (.ok (), next)) :
    next.stream = outlet.stream ++ bytes := by
  have hcomes := outlet.write_comes bytes
  rw [h] at hcomes
  cases hcomes with
  | done hstream => exact hstream
  | waits hwaits => exact absurd rfl hwaits.failed

theorem flush_comes (outlet : Outlet) : outlet.Comes [] outlet.flush := by
  refine afterFlush_comes fun middle hp => ?_
  have haccepted := middle.sink.flush_accepted
  have hstream (sink : Sink) (h : sink.accepted = middle.sink.accepted) :
      ({ middle with sink } : Outlet).stream = middle.stream ++ [] := by
    rw [stream, stream, h, List.append_nil]
  generalize middle.sink.flush = flushed at haccepted
  obtain ⟨error | u, sink⟩ := flushed
  · exact .cut [] List.nil_prefix hp (hstream sink haccepted)
  · exact .done (hstream sink haccepted)

theorem flushBuffer_comes (outlet : Outlet) : outlet.Comes [] outlet.flushBuffer := by
  generalize hflush : outlet.flushBuffer = flushed
  obtain ⟨error | u, next⟩ := flushed
  · exact .waits (flushBuffer_failed hflush)
  · exact .done ((flushBuffer_stream hflush).2.trans (List.append_nil _).symm)

theorem call_comes (outlet : Outlet) (attempt : OutletCall) :
    outlet.Comes attempt.given (outlet.call attempt) := by
  cases attempt with
  | write bytes => exact outlet.write_comes bytes
  | flushBuffer => exact outlet.flushBuffer_comes
  | flush => exact outlet.flush_comes

/-- No call loses anything. -/
theorem exact_or_waits (outlet : Outlet) (attempt : OutletCall) :
    outlet.Exact attempt ∨ outlet.Waits (outlet.call attempt) := by
  have hcomes := outlet.call_comes attempt
  unfold Exact
  generalize outlet.call attempt = came at hcomes
  rcases hcomes with hstream | ⟨front, hf, -, hstream⟩ | hwaits
  · exact .inl ⟨attempt.given, List.prefix_refl _, hstream, fun _ => rfl⟩
  · exact .inl ⟨front, hf, hstream, nofun⟩
  · exact .inr hwaits

/-- What waits waits on behind a failure that repeats nothing. -/
theorem Waits.stream_eq {attempt : OutletCall} (h : outlet.Waits (outlet.call attempt))
    (hr : ¬ outlet.Repeats attempt) :
    (outlet.call attempt).2.stream = outlet.stream := by
  have haccepted : (outlet.call attempt).2.sink.accepted = outlet.sink.accepted :=
    Classical.byContradiction fun hne => hr ⟨h.failed, h.pending ▸ h.waiting, hne⟩
  rw [stream, stream, haccepted, h.pending]

/-- A call that does not repeat anything keeps to the stream. -/
theorem exact_of_not_repeats {attempt : OutletCall} (h : ¬ outlet.Repeats attempt) :
    outlet.Exact attempt := by
  rcases outlet.exact_or_waits attempt with hexact | hwaits
  · exact hexact
  · refine ⟨[], List.nil_prefix, ?_, fun hok => absurd hok hwaits.failed⟩
    rw [hwaits.stream_eq h, List.append_nil]

/-- What a call repeats comes on top of the stream. -/
theorem length_of_repeats {attempt : OutletCall} (h : outlet.Repeats attempt) :
    outlet.stream.length < (outlet.call attempt).2.stream.length := by
  have hcomes := outlet.call_comes attempt
  unfold Repeats at h
  obtain ⟨hfailed, hpending, haccepted⟩ := h
  generalize outlet.call attempt = came at hcomes hfailed hpending haccepted
  rcases hcomes with - | ⟨-, -, hp, -⟩ | hwaits
  · exact absurd rfl hfailed
  · exact absurd hp hpending
  · obtain ⟨taken, -, htaken⟩ := hwaits.accepted
    have hne : taken ≠ [] := by
      intro hnil
      rw [hnil, List.append_nil] at htaken
      exact haccepted htaken
    have hlen := List.length_pos_iff.2 hne
    simp only [stream, hwaits.pending, htaken, List.length_append]
    omega

/-- Nothing is sent twice in the whole run. -/
def Faithful (outlet : Outlet) (calls : List OutletCall) : Prop :=
  outlet.Along (fun outlet attempt => ¬ outlet.Repeats attempt) calls

/-- A flush, or a write that succeeds. -/
def Delivering (attempt : OutletCall) (answer : Except IoError Unit) : Prop :=
  attempt.given = [] ∨ answer = .ok ()

theorem Exact.stream_of_delivering {attempt : OutletCall} (h : outlet.Exact attempt)
    (hd : Delivering attempt (outlet.call attempt).1) :
    (outlet.call attempt).2.stream = outlet.stream ++ attempt.given := by
  obtain ⟨front, hprefix, hstream, hall⟩ := h
  rcases hd with hnil | hok
  · rw [hnil] at hprefix
    rw [hstream, hnil, List.prefix_nil.1 hprefix]
  · rw [hstream, hall hok]

/-- Every step of a faithful run keeps to the stream. -/
theorem Faithful.exact {calls : List OutletCall} (h : outlet.Faithful calls) :
    outlet.Along Exact calls := by
  induction calls generalizing outlet with
  | nil => trivial
  | cons first others ih => exact ⟨exact_of_not_repeats h.1, ih h.2⟩

/-- A run either keeps to the stream or ends with more than that. -/
theorem run_stream {calls : List OutletCall}
    (hd : List.Forall₂ Delivering calls (outlet.run calls).1) :
    outlet.Faithful calls
        ∧ (outlet.run calls).2.stream = outlet.stream ++ calls.flatMap OutletCall.given
      ∨ ¬ outlet.Faithful calls
        ∧ outlet.stream.length + (calls.flatMap OutletCall.given).length
          < (outlet.run calls).2.stream.length := by
  induction calls generalizing outlet with
  | nil => exact .inl ⟨trivial, (List.append_nil _).symm⟩
  | cons first others ih =>
    rw [run_cons] at hd ⊢
    dsimp only
    obtain ⟨hfirst, hothers⟩ := List.forall₂_cons.1 hd
    rw [List.flatMap_cons, List.length_append]
    by_cases hr : outlet.Repeats first
    · have hmore := length_of_repeats hr
      have hnil : first.given = [] := hfirst.resolve_right hr.1
      refine .inr ⟨fun h => h.1 hr, ?_⟩
      rw [hnil, List.length_nil, Nat.zero_add]
      rcases ih hothers with ⟨-, hs⟩ | ⟨-, hs⟩
      · rw [hs, List.length_append]
        omega
      · omega
    · have hstream := (exact_of_not_repeats hr).stream_of_delivering hfirst
      rcases ih hothers with ⟨hf, hs⟩ | ⟨hf, hs⟩
      · exact .inl ⟨⟨hr, hf⟩, by rw [hs, hstream, List.append_assoc]⟩
      · refine .inr ⟨fun h => hf h.2, ?_⟩
        rw [hstream, List.length_append] at hs
        omega

/-- A flush that succeeds has sent all that waited. -/
theorem flush_stream (h : outlet.flush = (.ok (), next)) :
    next.pending = [] ∧ next.stream = outlet.stream := by
  unfold flush afterFlush at h
  split at h
  · cases h
  · next middle hflush =>
    obtain ⟨hpending, hstream⟩ := flushBuffer_stream hflush
    have haccepted := middle.sink.flush_accepted
    dsimp only at h
    generalize middle.sink.flush = flushed at h haccepted
    obtain ⟨-, rfl⟩ := Prod.mk.inj h
    exact ⟨hpending, by rw [← hstream, stream, stream, haccepted]⟩

end Outlet

namespace Connection

/-- The bytes that the endpoint has taken, in order. -/
def delivered (connection : Connection) : Bytes := connection.log.toList.flatMap Call.accepted

variable {connection : Connection} {addresses : Addresses} {session : Session}

theorem flush_delivered (h : connection.state = .opened addresses session) :
    ∃ next, connection.flush.2.state = .opened addresses next
      ∧ connection.flush.2.delivered ++ next.outlet.stream
        = connection.delivered ++ session.outlet.flush.2.stream := by
  have hstate : connection.flush.2.state
      = .opened addresses (session.sending Outlet.flush).2 := by
    rw [flush, withSessionIo, withSession, h]
  refine ⟨_, hstate, ?_⟩
  rw [delivered, delivered, log, log, hstate, h]
  simp [Session.sending, Outlet.stream, Sink.accepted]

theorem close_delivered (h : connection.state = .opened addresses session)
    (hok : (connection.close .immediate).1 = .ok ()) :
    (connection.close .immediate).2.delivered = connection.delivered ++ session.outlet.stream := by
  have hclosed : connection.close .immediate = ((session.close true).1,
      { connection with state := .closed addresses (session.close true).2 }) := by
    rw [close, h]
    rfl
  rw [hclosed] at hok ⊢
  generalize hflush : session.outlet.flush = flushed
  obtain ⟨error | u, outlet⟩ := flushed
  · have hfailed : (session.close true).1 = .error error := by
      simp [Session.close, Session.sending, hflush]
    rw [hfailed] at hok
    cases hok
  · obtain ⟨hpending, hstream⟩ := Outlet.flush_stream hflush
    rw [delivered, delivered, log, log, h, ← hstream, Outlet.stream, hpending]
    simp [Session.close, Session.sending, hflush, Sink.accepted, Call.accepted]

end Connection

namespace Outlet

/-- A call keeps to the stream or leaves all that waits where it was, so nothing is lost. A byte
comes twice only where such a call fails behind a front part of what waits: without one every step
keeps to the stream, and with one the sink has more in the end than was given, even when a later
flush or the close of the connection succeeds. -/
theorem run_exact_iff (outlet : Outlet) (calls : List OutletCall) :
    (∀ attempt, outlet.Exact attempt ∨ outlet.Waits (outlet.call attempt))
    ∧ (outlet.Faithful calls → outlet.Along Exact calls)
    ∧ (List.Forall₂ Delivering calls (outlet.run calls).1 →
      ((outlet.run calls).2.stream = outlet.stream ++ calls.flatMap OutletCall.given
        ↔ outlet.Faithful calls))
    ∧ ∀ (connection : Connection) (addresses : Addresses) (session : Session),
      connection.state = .opened addresses session →
      (connection.flush.2.close .immediate).1 = .ok () →
      ((connection.flush.2.close .immediate).2.delivered
          = connection.delivered ++ session.outlet.stream ↔ ¬ session.outlet.Repeats .flush) := by
  refine ⟨outlet.exact_or_waits, Faithful.exact, ?_, ?_⟩
  · intro hd
    rcases run_stream hd with ⟨hf, hs⟩ | ⟨hf, hs⟩
    · exact iff_of_true hs hf
    · refine iff_of_false ?_ hf
      intro h
      rw [h, List.length_append] at hs
      omega
  · intro connection addresses session h hok
    obtain ⟨next, hstate, hflush⟩ := Connection.flush_delivered h
    rw [Connection.close_delivered hstate hok, hflush, List.append_cancel_left_eq]
    constructor
    · intro hs hr
      have hmore := length_of_repeats hr
      rw [call, hs] at hmore
      omega
    · intro hr
      have hs := (exact_of_not_repeats hr).stream_of_delivering (.inl rfl)
      rw [OutletCall.given, List.append_nil] at hs
      exact hs

/-! A sink that takes one byte of two and then fails once. -/

namespace Resent

def endpoint : Endpoint where
  reads := []
  writes := [.accept 1, .fail ⟨.brokenPipe, ""⟩]
  flushes := []
  control := ⟨.disabled, [], [], []⟩
  localAddr := .ok "a"
  peerAddr := .ok "b"

def outlet : Outlet := .start 8 8 endpoint.sink

def connection : Connection :=
  ((((Connection.start .default fun _ => .ok .untilClose).bind endpoint).2.sendContent .untilClose
    fun writer => ((), (writer.write [97, 98]).2.outlet))).2

theorem run_resends :
    (outlet.run [.write [97, 98], .flush, .flush]).1
        = [.ok (), .error ⟨.brokenPipe, ""⟩, .ok ()]
      ∧ (outlet.run [.write [97, 98], .flush]).2.stream = [97, 97, 98]
      ∧ (outlet.run [.write [97, 98], .flush, .flush]).2.sink.accepted = [97, 97, 98]
      ∧ ¬ outlet.Along Exact [.write [97, 98], .flush, .flush]
      ∧ connection.flush.1 = .error (.io ⟨.brokenPipe, ""⟩)
      ∧ (connection.flush.2.close .immediate).1 = .ok ()
      ∧ (connection.flush.2.close .immediate).2.delivered = [97, 97, 98] := by
  refine ⟨by cbv, by cbv, by cbv, ?_, by cbv, by cbv, by cbv⟩
  rintro ⟨-, ⟨front, hfront, hstream, -⟩, -⟩
  rw [List.prefix_nil.1 hfront] at hstream
  have hfalse : ([97, 97, 98] : Bytes) = [97, 98] := hstream
  exact absurd hfalse (by decide)

end Resent
end Outlet
end Http1
