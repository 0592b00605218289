import Http1.Proofs.Lifecycle
import Http1.Proofs.Offers

/-! Closing a connection over an endpoint that fails whenever it likes. An immediate close offers
what waits to the endpoint, flushes it behind that, and releases it in any case (`Releases`); its
answer is the first failure of these calls. A graceful close only releases the endpoint. Either way
nothing is left of the connection that a later operation could use. -/

namespace Http1

/-- The calls of a close that sends first. The endpoint is flushed when it has taken all of what
waits, and it is closed last whatever came before. -/
inductive Releases (pending : Bytes) : List Call → Prop
  | unsent {writes : List Call} {error : IoError} (h : Offers pending writes (.error error))
    (closed : Except IoError Unit) : Releases pending (writes ++ [.close closed])
  | sent {writes : List Call} (h : Offers pending writes (.ok ()))
    (flushed closed : Except IoError Unit) :
    Releases pending (writes ++ [.flush flushed, .close closed])

theorem Offers.isClose {bytes : Bytes} {calls : List Call} {answer : Except IoError Unit}
    (h : Offers bytes calls answer) : calls.countP Call.isClose = 0 := by
  induction h with
  | done => rfl
  | taken hn hle h ih => simpa [Call.isClose] using ih
  | again hb hk h ih => simpa [Call.isClose] using ih
  | failed hb hf => simp [Call.isClose]

namespace Releases

variable {pending : Bytes} {calls : List Call}

theorem closes (h : Releases pending calls) : calls.countP Call.isClose = 1 := by
  cases h with
  | unsent h closed => simp [List.countP_append, h.isClose, Call.isClose]
  | sent h flushed closed => simp [List.countP_append, h.isClose, Call.isClose]

/-- When nothing waits, nothing is offered. -/
theorem idle (h : Releases [] calls) :
    ∃ flushed closed, calls = [.flush flushed, .close closed] := by
  cases h with
  | unsent h closed =>
    have hcalls := h.nil_calls
    subst hcalls
    have hfault := h.firstFault
    cases hfault
  | sent h flushed closed =>
    rw [h.nil_calls]
    exact ⟨flushed, closed, rfl⟩

/-- A front part of what waits has been taken, and all of it when no call has failed. -/
theorem accepted (h : Releases pending calls) :
    calls.flatMap Call.accepted <+: pending
      ∧ (Call.firstFault calls = .ok () → calls.flatMap Call.accepted = pending) := by
  cases h with
  | unsent h closed =>
    rw [List.flatMap_append, Call.firstFault_append, h.firstFault]
    refine ⟨?_, nofun⟩
    simpa [Call.accepted] using h.accepted_prefix
  | sent h flushed closed =>
    rw [List.flatMap_append, h.accepted_ok]
    simp [Call.accepted]

end Releases

/-- A flush offers what waits and then flushes the sink, unless the offers fail. -/
theorem Outlet.flush_releases {outlet : Outlet} (hidle : outlet.sink.calls = #[]) :
    Call.firstFault outlet.flush.2.sink.calls.toList = outlet.flush.1
      ∧ ∀ closed,
        Releases outlet.pending (outlet.flush.2.sink.calls.toList ++ [.close closed]) := by
  obtain ⟨writes, hwrites, hoffers⟩ := outlet.sink.writeAll_offers outlet.pending
  rw [hidle, List.nil_append] at hwrites
  unfold flush afterFlush flushBuffer
  generalize outlet.sink.writeAll outlet.pending = written at hwrites hoffers
  obtain ⟨error | u, sink⟩ := written
  · dsimp only at hwrites hoffers ⊢
    rw [hwrites]
    exact ⟨hoffers.firstFault, fun closed => .unsent hoffers closed⟩
  · dsimp only at hwrites hoffers ⊢
    have hcalls : sink.flush.2.calls.toList = writes ++ [.flush sink.flush.1] := by
      rw [Sink.flush, Array.toList_push, hwrites]
    rw [hcalls]
    constructor
    · rw [Call.firstFault_append, hoffers.firstFault]
      exact Call.firstFault_flush _
    · intro closed
      rw [List.append_assoc]
      exact .sent hoffers _ closed

namespace Session

variable {session : Session}

/-- A close that sends first fails with the first failure of its calls. -/
theorem close_sending (hidle : session.outlet.sink.calls = #[]) :
    ∃ calls, (session.close true).2.toList = session.log.toList ++ calls
      ∧ Releases session.outlet.pending calls
      ∧ (session.close true).1 = Call.firstFault calls := by
  obtain ⟨hanswer, hreleases⟩ := Outlet.flush_releases hidle
  refine ⟨_, ?_, hreleases session.control.close.1, ?_⟩
  · simp [close, sending]
  · rw [Call.firstFault_append, hanswer, Call.firstFault_close, close, sending]
    simp only [if_true]
    rcases session.outlet.flush with ⟨error | u, outlet⟩
    · rfl
    · rfl

end Session

namespace Connection

variable {connection : Connection} {addresses : Addresses} {session : Session}

theorem close_opened (hopen : connection.state = .opened addresses session) (mode : CloseMode) :
    connection.close mode = (match mode with
        | .immediate => (session.close true).1
        | .graceful => .ok (),
      { connection with state := .closed addresses (session.close (mode == .immediate)).2 }) := by
  rw [close, hopen]
  cases mode with
  | immediate => rfl
  | graceful => rfl

/-- Closing an open connection releases its endpoint by the last of its calls. An immediate close
first offers all that waits and flushes behind it, and its answer is the first failure among these
calls: it succeeds when none has failed, and then the endpoint has taken exactly what waited. A
graceful close makes no other call and reports no failure. Whatever the endpoint answered, the
connection is closed and its buffers are empty, and no later operation finds anything to send. -/
theorem close_releases (hopen : connection.state = .opened addresses session)
    (horderly : connection.Orderly) :
    (∃ calls, (connection.close .immediate).2.log.toList = connection.log.toList ++ calls
      ∧ Releases session.outlet.pending calls
      ∧ (session.outlet.pending = [] → ∃ flushed closed, calls = [.flush flushed, .close closed])
      ∧ calls.countP Call.isClose = 1
      ∧ (connection.close .immediate).1 = Call.firstFault calls
      ∧ calls.flatMap Call.accepted <+: session.outlet.pending
      ∧ ((connection.close .immediate).1 = .ok () → (∀ call ∈ calls, call.fault? = none)
        ∧ calls.flatMap Call.accepted = session.outlet.pending))
    ∧ (∃ closed, (connection.close .graceful).2.log.toList
        = connection.log.toList ++ [.close closed]
      ∧ (connection.close .graceful).1 = .ok ())
    ∧ ∀ mode, let last := (connection.close mode).2
      last.stage = .closed addresses ∧ last.bufferedInput = 0 ∧ last.bufferedOutput = 0
        ∧ (∀ operations, (last.run operations).2 = last)
        ∧ ∀ again, last.close again = (.ok (), last) := by
  have hlog : connection.log = session.log := by rw [log, hopen]
  have hsession : session.Orderly := by rwa [Connection.Orderly, hopen] at horderly
  refine ⟨?_, ?_, ?_⟩
  · obtain ⟨calls, hcalls, hreleases, hanswer⟩ := Session.close_sending hsession.sink
    obtain ⟨hfront, hall⟩ := hreleases.accepted
    rw [close_opened hopen, hlog]
    refine ⟨calls, hcalls, hreleases, ?_, hreleases.closes, hanswer, hfront, ?_⟩
    · intro hp
      rw [hp] at hreleases
      exact hreleases.idle
    · intro hok
      rw [hanswer] at hok
      exact ⟨Call.firstFault_ok hok, hall hok⟩
  · rw [close_opened hopen, hlog]
    refine ⟨session.control.close.1, ?_, rfl⟩
    simp [log, Session.close]
  · intro mode last
    have hlast : last.state = .closed addresses (session.close (mode == .immediate)).2 := by
      simp only [last, close_opened hopen]
    have hstage : last.stage = .closed addresses := by rw [stage, hlast]
    refine ⟨hstage, by rw [bufferedInput, hlast], by rw [bufferedOutput, hlast],
      fun operations => run_closed operations hstage, ?_⟩
    intro again
    rw [close, hlast]

end Connection

/-! An endpoint that takes one byte of two, is interrupted, then takes nothing, and cannot be closed
either. -/

namespace Unsendable

def session : Session where
  inlet := ⟨⟨[120], 8, 0⟩, ⟨[], #[]⟩⟩
  outlet := ⟨⟨[97, 98], 8, 8⟩, ⟨[.accept 1, .fail ⟨.interrupted, ""⟩, .accept 0], [], #[]⟩⟩
  control := ⟨.disabled, [], [], [.error ⟨.connectionReset, ""⟩]⟩
  log := #[]

def connection : Connection :=
  ⟨.default, fun _ => .ok .untilClose, .opened ⟨none, none⟩ session⟩

theorem close_unsent :
    (connection.close .immediate).1 = .error .writeZero
      ∧ (connection.close .immediate).2.delivered = [97]
      ∧ ∃ calls, (connection.close .immediate).2.log.toList = connection.log.toList ++ calls
        ∧ Releases [97, 98] calls ∧ calls.countP Call.isClose = 1
        ∧ Call.firstFault calls = .error .writeZero := by
  have horderly : connection.Orderly := ⟨rfl, rfl, LogOf.none _⟩
  have hanswer : (connection.close .immediate).1 = .error .writeZero := by cbv
  obtain ⟨⟨calls, hcalls, hreleases, -, honce, hfirst, -, -⟩, -, -⟩ :=
    Connection.close_releases (rfl : connection.state = .opened ⟨none, none⟩ session) horderly
  exact ⟨hanswer, by cbv, calls, hcalls, hreleases, honce, hfirst.symm.trans hanswer⟩

end Unsendable
end Http1
