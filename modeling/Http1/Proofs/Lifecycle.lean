import Http1.Proofs.Steps

/-! How operations in any order take a connection from stage to stage. The source sees reads and
nothing else, and the sink writes and flushes. Hence only `close` ends an endpoint, and one
operation takes the connection to the next stage with its log in order (`perform_leads`); a whole
run follows by induction (`run_leads`). -/

namespace Http1

namespace Call

/-- Reads are all that a source sees. -/
def IsRead : Call → Prop
  | .read _ _ => True
  | _ => False

/-- Writes and flushes are all that a sink sees. -/
def IsWrite : Call → Prop
  | .write _ _ | .flush _ => True
  | _ => False

def isClose : Call → Bool
  | .close _ => true
  | _ => false

def isShutdown : Call → Bool
  | .shutdownInput | .shutdownOutput => true
  | _ => false

/-- The endpoint stays open behind it, in both directions. -/
def Lasts (call : Call) : Prop := call.isClose = false ∧ call.isShutdown = false

theorem IsRead.lasts {call : Call} (h : call.IsRead) : call.Lasts := by
  cases call with
  | read => exact ⟨rfl, rfl⟩
  | _ => exact h.elim

theorem IsWrite.lasts {call : Call} (h : call.IsWrite) : call.Lasts := by
  cases call with
  | write => exact ⟨rfl, rfl⟩
  | flush => exact ⟨rfl, rfl⟩
  | _ => exact h.elim

end Call

/-- Every call of a log is of this kind. -/
def LogOf (kind : Call → Prop) (log : Array Call) : Prop := ∀ call ∈ log, kind call

namespace LogOf

variable {kind weaker : Call → Prop} {log more : Array Call}

theorem none (kind : Call → Prop) : LogOf kind #[] := fun _ h => absurd h (Array.not_mem_empty _)

theorem push (h : LogOf kind log) {call : Call} (hc : kind call) : LogOf kind (log.push call) := by
  intro other ho
  rcases Array.mem_push.1 ho with ho | rfl
  · exact h other ho
  · exact hc

theorem append (h : LogOf kind log) (hm : LogOf kind more) : LogOf kind (log ++ more) := by
  intro call hc
  rcases Array.mem_append.1 hc with hc | hc
  · exact h call hc
  · exact hm call hc

theorem of_push {call : Call} (h : LogOf kind (log.push call)) : LogOf kind log :=
  fun _ hc => h _ (Array.mem_push_of_mem _ hc)

theorem left (h : LogOf kind (log ++ more)) : LogOf kind log :=
  fun _ hc => h _ (Array.mem_append_left _ hc)

theorem right (h : LogOf kind (log ++ more)) : LogOf kind more :=
  fun _ hc => h _ (Array.mem_append_right _ hc)

theorem mono (h : LogOf kind log) (hw : ∀ call, kind call → weaker call) : LogOf weaker log :=
  fun call hc => hw call (h call hc)

end LogOf

theorem Source.readFrom_isRead (offered : Nat) (calls : Array Call) (script : List ReadEvent)
    (h : LogOf Call.IsRead calls) : LogOf Call.IsRead (readFrom offered calls script).2.calls := by
  fun_induction readFrom offered calls script with
  | case1 calls => exact h.push trivial
  | case2 calls bytes rest taken left => exact h.push trivial
  | case3 calls error rest calls' hk ih => exact ih (h.push trivial)
  | case4 calls error rest calls' hk => exact h.push trivial

theorem Source.read_isRead (source : Source) (offered : Nat) (h : LogOf Call.IsRead source.calls) :
    LogOf Call.IsRead (source.read offered).2.calls :=
  readFrom_isRead offered source.calls source.script h

theorem Inlet.reads_kept (most : Nat) :
    Inlet.Kept most fun inlet => LogOf Call.IsRead inlet.source.calls :=
  .ofSource Source.read_isRead most

theorem Sink.pushTo_isWrite (bytes : Bytes) (calls : Array Call) (events : List WriteEvent)
    (h : LogOf Call.IsWrite calls) :
    LogOf Call.IsWrite (pushTo bytes calls events).2.2 := by
  fun_induction pushTo bytes calls events with
  | case1 => exact h
  | case2 => exact h.push trivial
  | case3 => exact h
  | case4 => exact h.push trivial
  | case5 => rename_i ih; exact ih (h.push trivial)
  | case6 => rename_i ih; exact ih (h.push trivial)
  | case7 => exact h.push trivial

theorem Sink.writeAll_isWrite (sink : Sink) (bytes : Bytes) (h : LogOf Call.IsWrite sink.calls) :
    LogOf Call.IsWrite (sink.writeAll bytes).2.calls :=
  pushTo_isWrite bytes sink.calls sink.writes h

theorem Sink.flush_isWrite (sink : Sink) (h : LogOf Call.IsWrite sink.calls) :
    LogOf Call.IsWrite sink.flush.2.calls :=
  h.push trivial

/-- Between two operations the halves have handed all their calls to the log, and the endpoint has
not been ended. -/
structure Session.Orderly (session : Session) : Prop where
  source : session.inlet.source.calls = #[]
  sink : session.outlet.sink.calls = #[]
  lasts : LogOf Call.Lasts session.log

namespace Session

variable {session : Session}

theorem start_orderly (config : Config) (endpoint : Endpoint) :
    (Session.start config endpoint #[.localAddr, .peerAddr]).Orderly := by
  refine ⟨rfl, rfl, ?_⟩
  have hlocal : LogOf Call.Lasts #[.localAddr] := (LogOf.none _).push ⟨rfl, rfl⟩
  exact hlocal.push ⟨rfl, rfl⟩

theorem receiving_orderly {α : Type} {use : Inlet → α × Inlet} (h : session.Orderly)
    (hu : LogOf Call.IsRead session.inlet.source.calls →
      LogOf Call.IsRead (use session.inlet).2.source.calls) :
    (session.receiving use).2.Orderly := by
  have hreads := hu (by rw [h.source]; exact LogOf.none _)
  exact ⟨rfl, h.sink, h.lasts.append (hreads.mono fun _ => Call.IsRead.lasts)⟩

theorem sending_orderly {α : Type} {use : Outlet → α × Outlet} (h : session.Orderly)
    (hu : LogOf Call.IsWrite session.outlet.sink.calls →
      LogOf Call.IsWrite (use session.outlet).2.sink.calls) :
    (session.sending use).2.Orderly := by
  have hwrites := hu (by rw [h.sink]; exact LogOf.none _)
  exact ⟨h.source, rfl, h.lasts.append (hwrites.mono fun _ => Call.IsWrite.lasts)⟩

theorem queryTimeout_orderly (h : session.Orderly) : session.queryTimeout.2.Orderly :=
  ⟨h.source, h.sink, h.lasts.push ⟨rfl, rfl⟩⟩

theorem changeTimeout_orderly (h : session.Orderly) (timeout : Timeout) :
    (session.changeTimeout timeout).2.Orderly :=
  ⟨h.source, h.sink, h.lasts.push ⟨rfl, rfl⟩⟩

theorem flush_orderly (h : session.Orderly) : (session.sending Outlet.flush).2.Orderly :=
  sending_orderly h (Outlet.flush_keeps Sink.writeAll_isWrite Sink.flush_isWrite _)

/-- No step ends the endpoint. -/
theorem Steps.orderly {config : Config} {last : Session} (hs : Steps config session last)
    (h : session.Orderly) : last.Orderly := by
  induction hs with
  | refl => exact h
  | query _ ih => exact queryTimeout_orderly ih
  | change _ timeout ih => exact changeTimeout_orderly ih timeout
  | peek _ ih => exact receiving_orderly ih (Inlet.peek_keeps (Inlet.reads_kept 0) _)
  | head _ ih =>
    exact receiving_orderly ih
      (Inlet.readHead_keeps (Inlet.reads_kept config.bufferSize) le_rfl _)
  | body _ framing calls ih =>
    exact receiving_orderly ih fun hi =>
      BodyReader.run_keeps (Inlet.reads_kept 0) (.start (.ofConfig config framing) _) calls hi
  | flush _ ih => exact flush_orderly ih
  | send _ framing calls finish ih =>
    exact sending_orderly ih fun ho =>
      BodyWriter.use_keeps Sink.writeAll_isWrite Sink.flush_isWrite
        (.start framing config.chunkSizeHint _) calls finish ho

/-- The endpoint is released last. -/
theorem close_log (h : session.Orderly) (flushFirst : Bool) :
    ∃ front answer, (session.close flushFirst).2 = front.push (.close answer)
      ∧ LogOf Call.Lasts front := by
  cases flushFirst with
  | true => exact ⟨_, _, rfl, (flush_orderly h).lasts⟩
  | false => exact ⟨_, _, rfl, h.lasts⟩

end Session

namespace Connection

/-- The endpoint is ended by the last call in the log of a closed connection and by no other. -/
def Orderly (connection : Connection) : Prop :=
  match connection.state with
  | .unbound => True
  | .opened _ session => session.Orderly
  | .closed _ log => ∃ front answer, log = front.push (.close answer) ∧ LogOf Call.Lasts front

/-- An operation has led to this stage and left the rest in order. -/
structure Leads (before : Connection) (stage : Stage) (after : Connection) : Prop where
  stage : after.stage = stage
  orderly : before.Orderly → after.Orderly
  strategy : after.strategy = before.strategy

variable {connection : Connection}

theorem opened_of_accepted {operation : Operation} (ho : operation.isTurn = false)
    (h : connection.stage.refusal? connection.strategy operation = none) :
    ∃ addresses session, connection.state = .opened addresses session := by
  obtain ⟨config, strategy, state⟩ := connection
  cases state with
  | opened addresses session => exact ⟨addresses, session, rfl⟩
  | unbound =>
    cases operation with
    | bind endpoint => cases ho
    | _ => cases h
  | closed addresses log => cases h

theorem Leads.refl (connection : Connection) : Leads connection connection.stage connection :=
  ⟨rfl, id, rfl⟩

theorem bind_leads (endpoint : Endpoint) :
    Leads connection (connection.stage.next (.bind endpoint)) (connection.bind endpoint).2 := by
  obtain ⟨config, strategy, state⟩ := connection
  cases state with
  | unbound => exact ⟨rfl, fun _ => Session.start_orderly config endpoint, rfl⟩
  | opened addresses session => exact .refl _
  | closed addresses log => exact .refl _

theorem close_leads (mode : CloseMode) :
    Leads connection (connection.stage.next (.close mode)) (connection.close mode).2 := by
  obtain ⟨config, strategy, state⟩ := connection
  cases state with
  | unbound => exact .refl _
  | opened addresses session => exact ⟨rfl, fun h => Session.close_log h _, rfl⟩
  | closed addresses log => exact .refl _

/-- All operations but two leave a connection where it is: they are refused or make steps. -/
theorem other_leads {operation : Operation} (ho : operation.isTurn = false) :
    Leads connection (connection.stage.next operation) (connection.perform operation).2 := by
  rw [Stage.next_other ho]
  rcases hrefusal : connection.stage.refusal? connection.strategy operation with _ | answer
  · obtain ⟨addresses, session, hopen⟩ := opened_of_accepted ho hrefusal
    have hconnection := eq_withOpen hopen
    obtain ⟨next, hnext, hsteps⟩ := perform_steps ho connection addresses session
    rw [hconnection, hnext]
    exact ⟨rfl, hsteps.orderly, rfl⟩
  · rw [perform_refused hrefusal]
    exact .refl _

/-- What one operation does to the stage, and that it keeps the connection in order. -/
theorem perform_leads (connection : Connection) (operation : Operation) :
    Leads connection (connection.stage.next operation) (connection.perform operation).2 := by
  cases operation with
  | bind endpoint => exact bind_leads endpoint
  | close mode => exact close_leads mode
  | _ => exact other_leads rfl

theorem run_leads (connection : Connection) (operations : List Operation) :
    Leads connection (operations.foldl Stage.next connection.stage)
      (connection.run operations).2 := by
  induction operations generalizing connection with
  | nil => exact .refl _
  | cons first others ih =>
    have hfirst := connection.perform_leads first
    have hothers := ih (connection.perform first).2
    rw [hfirst.stage] at hothers
    exact ⟨hothers.stage, fun h => hothers.orderly (hfirst.orderly h),
      hothers.strategy.trans hfirst.strategy⟩

/-- How the endpoint has been ended, by the log. -/
theorem Orderly.log (h : connection.Orderly) :
    connection.log.countP Call.isClose = connection.stage.closes
      ∧ (∀ addresses, connection.stage = .closed addresses →
        ∃ answer, connection.log.back? = some (.close answer))
      ∧ ∀ call ∈ connection.log, call.isShutdown = false := by
  have hnone {log : Array Call} (hl : LogOf Call.Lasts log) : log.countP Call.isClose = 0 :=
    Array.countP_eq_zero.2 fun call hc => by rw [(hl call hc).1]; exact Bool.false_ne_true
  obtain ⟨config, strategy, state⟩ := connection
  cases state with
  | unbound => exact ⟨rfl, by rintro _ ⟨⟩, fun _ hc => absurd hc (Array.not_mem_empty _)⟩
  | opened addresses session =>
    exact ⟨hnone h.lasts, by rintro _ ⟨⟩, fun call hc => (h.lasts call hc).2⟩
  | closed addresses log =>
    obtain ⟨front, answer, rfl, hfront⟩ := h
    refine ⟨?_, fun _ _ => ⟨answer, Array.back?_push⟩, ?_⟩
    · rw [Connection.log, Array.countP_push, hnone hfront]
      rfl
    · intro call hc
      rcases Array.mem_push.1 hc with hc | rfl
      · exact (hfront call hc).2
      · rfl

end Connection
end Http1
