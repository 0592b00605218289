import Http1.Proofs.Operations

/-! What can happen to the session of an open connection. There are few kinds of step, and every
operation is made of them (`perform_steps`), so what each step keeps of a session holds in every
state that a run reaches (`run_steps`). -/

namespace Http1

/-- The inlet goes back to the connection, wherever the reader has stopped. -/
def BodyReader.use (calls : List BodyCall) (reader : BodyReader) : List Reply × Inlet :=
  let (replies, reader) := reader.run calls
  (replies, reader.inlet)

namespace Session

variable {session : Session}

/-- Without knowing the timeout in force, nothing is changed and nothing is read. -/
theorem peekWithin_unknown {error : IoError} (hq : session.control.query.1 = .error error)
    (timeout : Timeout) :
    session.peekWithin timeout = (.error error, session.queryTimeout.2) := by
  simp only [peekWithin, queryTimeout, hq]

/-- When the timeout is refused, nothing is read either. -/
theorem peekWithin_refused {inForce timeout : Timeout} {error : IoError}
    (hq : session.control.query.1 = .ok inForce)
    (hc : (session.control.query.2.change timeout).1 = .error error) :
    session.peekWithin timeout
      = (.error error, (session.queryTimeout.2.changeTimeout timeout).2) := by
  simp only [peekWithin, queryTimeout, changeTimeout, hq, hc]

/-- Otherwise there is one look, and the timeout that was in force is put back behind it. -/
theorem peekWithin_looks {inForce timeout : Timeout} (hq : session.control.query.1 = .ok inForce)
    (hc : (session.control.query.2.change timeout).1 = .ok ()) :
    session.peekWithin timeout
      = (((session.queryTimeout.2.changeTimeout timeout).2.receiving Inlet.peek).1,
        (((session.queryTimeout.2.changeTimeout timeout).2.receiving Inlet.peek).2.changeTimeout
          inForce).2) := by
  simp only [peekWithin, queryTimeout, changeTimeout, hq, hc]

/-- A session as the operations of a connection with this configuration can leave it. -/
inductive Steps (config : Config) (first : Session) : Session → Prop
  | refl : Steps config first first
  | query {session : Session} (h : Steps config first session) :
    Steps config first session.queryTimeout.2
  | change {session : Session} (h : Steps config first session) (timeout : Timeout) :
    Steps config first (session.changeTimeout timeout).2
  | peek {session : Session} (h : Steps config first session) :
    Steps config first (session.receiving Inlet.peek).2
  | head {session : Session} (h : Steps config first session) :
    Steps config first (session.receiving (Inlet.readHead config.bufferSize)).2
  | body {session : Session} (h : Steps config first session) (framing : Framing)
    (calls : List BodyCall) :
    Steps config first (session.receiving fun inlet =>
      BodyReader.use calls (.start (.ofConfig config framing) inlet)).2
  | flush {session : Session} (h : Steps config first session) :
    Steps config first (session.sending Outlet.flush).2
  | send {session : Session} (h : Steps config first session) (framing : Framing)
    (calls : List WriterCall) (finish : Bool) :
    Steps config first (session.sending fun outlet =>
      BodyWriter.use calls finish (.start framing config.chunkSizeHint outlet)).2

variable {config : Config} {first : Session}

theorem Steps.trans {last : Session} (h : Steps config first session)
    (h' : Steps config session last) : Steps config first last := by
  induction h' with
  | refl => exact h
  | query _ ih => exact ih.query
  | change _ timeout ih => exact ih.change timeout
  | peek _ ih => exact ih.peek
  | head _ ih => exact ih.head
  | body _ framing calls ih => exact ih.body framing calls
  | flush _ ih => exact ih.flush
  | send _ framing calls finish ih => exact ih.send framing calls finish

theorem Steps.peekWithin (h : Steps config first session) (timeout : Timeout) :
    Steps config first (session.peekWithin timeout).2 := by
  have hinstall := h.query.change timeout
  rcases hq : session.control.query.1 with error | former
  · rw [peekWithin_unknown hq]
    exact h.query
  · rcases hc : (session.control.query.2.change timeout).1 with error | u
    · rw [peekWithin_refused hq hc]
      exact hinstall
    · rw [peekWithin_looks hq hc]
      exact hinstall.peek.change former

/-- What an inlet keeps, and keeps too when its calls go to the log, every step keeps. -/
theorem Steps.keeps {P : Inlet → Prop} {last : Session} (hP : Inlet.Kept config.bufferSize P)
    (hlog : ∀ inlet, P inlet → P { inlet with source := { inlet.source with calls := #[] } })
    (hs : Steps config session last) (h : P session.inlet) : P last.inlet := by
  induction hs with
  | refl => exact h
  | query _ ih => exact ih
  | change _ timeout ih => exact ih
  | peek _ ih => exact hlog _ (Inlet.peek_keeps hP _ ih)
  | head _ ih => exact hlog _ (Inlet.readHead_keeps hP le_rfl _ ih)
  | body _ framing calls ih =>
    exact hlog _ (BodyReader.run_keeps hP (.start (.ofConfig config framing) _) calls ih)
  | flush _ ih => exact ih
  | send _ framing calls finish ih => exact ih

end Session

namespace Connection

/-- The connection that is open with a session. -/
def withOpen (connection : Connection) (addresses : Addresses) (session : Session) : Connection :=
  { connection with state := .opened addresses session }

variable {connection : Connection} {addresses : Addresses} {session : Session}

theorem eq_withOpen (hopen : connection.state = .opened addresses session) :
    connection = withOpen connection addresses session := by
  rw [withOpen, ← hopen]

/-- The session has been led on by these steps. -/
def StepsTo (connection : Connection) (addresses : Addresses) (session : Session)
    (after : Connection) : Prop :=
  ∃ next, after = withOpen connection addresses next
    ∧ Session.Steps connection.config session next

theorem StepsTo.refl :
    StepsTo connection addresses session (withOpen connection addresses session) :=
  ⟨session, rfl, .refl⟩

theorem socketTimeout_steps :
    StepsTo connection addresses session
      (withOpen connection addresses session).socketTimeout.2 := by
  have hquery : StepsTo connection addresses session
      ((withOpen connection addresses session).withSessionIo Session.queryTimeout).2 :=
    ⟨_, rfl, Session.Steps.refl.query⟩
  unfold socketTimeout
  split
  · next hr => rwa [hr] at hquery
  · next hr => rwa [hr] at hquery

theorem awaitInput_steps (timeout : Timeout) :
    StepsTo connection addresses session
      ((withOpen connection addresses session).awaitInput timeout).2 := by
  by_cases hb : session.inlet.buffered.isEmpty
  · refine ⟨_, ?_, Session.Steps.refl.peekWithin timeout⟩
    simp [awaitInput, withSessionIo, withSession, withOpen, hb]
  · refine ⟨session, ?_, .refl⟩
    simp [awaitInput, withSessionIo, withSession, withOpen, hb]

theorem isStale_steps :
    StepsTo connection addresses session (withOpen connection addresses session).isStale.2 := by
  by_cases hb : session.inlet.buffered.isEmpty
  · refine ⟨_, ?_, Session.Steps.refl.peekWithin staleTimeout⟩
    simp [isStale, withSession, withOpen, hb]
  · refine ⟨session, ?_, .refl⟩
    simp [isStale, withSession, withOpen, hb]

theorem incomingEntity_steps (message : Headers) (framing : Framing) (calls : List BodyCall) :
    StepsTo connection addresses session ((withOpen connection addresses session).incomingEntity
      message framing (IncomingEntity.use calls)).2 :=
  ⟨_, rfl, Session.Steps.refl.body framing calls⟩

theorem sendContent_steps (framing : Framing) (calls : List WriterCall) (finish : Bool) :
    StepsTo connection addresses session ((withOpen connection addresses session).sendContent
      framing (BodyWriter.use calls finish)).2 :=
  ⟨_, rfl, Session.Steps.refl.send framing calls finish⟩

theorem receiveEntity_steps (message : Headers) (calls : List BodyCall) :
    StepsTo connection addresses session ((withOpen connection addresses session).receiveEntity
      message (IncomingEntity.use calls)).2 := by
  unfold receiveEntity
  split
  · exact .refl
  · next framing _ => exact incomingEntity_steps message framing calls

theorem sendEntity_steps (message : Headers) (calls : List WriterCall) (finish : Bool) :
    StepsTo connection addresses session ((withOpen connection addresses session).sendEntity
      message (BodyWriter.use calls finish)).2 := by
  unfold sendEntity
  split
  · exact .refl
  · next framing _ => exact sendContent_steps framing calls finish

/-- An operation on an open session is made of steps, unless it takes the connection further. -/
theorem perform_steps {operation : Operation} (h : operation.isTurn = false)
    (connection : Connection) (addresses : Addresses) (session : Session) :
    StepsTo connection addresses session
      ((withOpen connection addresses session).perform operation).2 := by
  cases operation with
  | bind endpoint => cases h
  | close mode => cases h
  | ensureOpen => exact .refl
  | socketTimeout => exact socketTimeout_steps
  | setSocketTimeout timeout => exact ⟨_, rfl, Session.Steps.refl.change timeout⟩
  | awaitInput timeout => exact awaitInput_steps timeout
  | isStale => exact isStale_steps
  | flush => exact ⟨_, rfl, Session.Steps.refl.flush⟩
  | receiveHead => exact ⟨_, rfl, Session.Steps.refl.head⟩
  | incomingEntity message framing calls => exact incomingEntity_steps message framing calls
  | receiveEntity message calls => exact receiveEntity_steps message calls
  | sendContent framing calls finish => exact sendContent_steps framing calls finish
  | sendEntity message calls finish => exact sendEntity_steps message calls finish

/-- While a run leaves the connection open, it leads its session on by steps. -/
theorem run_steps {operations : List Operation} {last : Session}
    (hlast : ((withOpen connection addresses session).run operations).2.session? = some last) :
    Session.Steps connection.config session last := by
  induction operations generalizing session with
  | nil =>
    obtain rfl : session = last := Option.some.inj hlast
    exact .refl
  | cons first others ih =>
    rw [run_cons] at hlast
    cases hturn : first.isTurn with
    | false =>
      obtain ⟨next, hnext, hsteps⟩ := perform_steps hturn connection addresses session
      rw [hnext] at hlast
      exact hsteps.trans (ih hlast)
    | true =>
      cases first with
      | bind endpoint => exact ih hlast
      | close mode =>
        rw [run_closed others rfl] at hlast
        cases hlast
      | _ => cases hturn

/-- A run that leaves a new connection open has bound it to an endpoint, and whatever else has been
done since is made of steps. -/
theorem start_steps {config : Config} {strategy : Headers → Except ParseError Framing}
    {operations : List Operation} {last : Session}
    (hlast : ((start config strategy).run operations).2.session? = some last) :
    ∃ endpoint, .bind endpoint ∈ operations
      ∧ Session.Steps config (.start config endpoint #[.localAddr, .peerAddr]) last := by
  induction operations with
  | nil => cases hlast
  | cons first others ih =>
    rw [run_cons] at hlast
    cases first with
    | bind endpoint => exact ⟨endpoint, List.mem_cons_self, run_steps hlast⟩
    | _ =>
      rw [perform_refused rfl] at hlast
      obtain ⟨endpoint, hbind, hsteps⟩ := ih hlast
      exact ⟨endpoint, List.mem_cons_of_mem _ hbind, hsteps⟩

end Connection
end Http1
