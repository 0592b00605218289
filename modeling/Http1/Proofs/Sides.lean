import Http1.Proofs.Lifecycle

/-! The two sides of an open connection. Receiving works on the inlet and the controls of the
session, sending on its outlet, and the endpoint sees reads and timeouts from the one and writes and
flushes from the other. So an operation answers by its own side alone and leaves the other one as it
is (`perform_acts`), and in a run of both kinds each side goes on as if the other were not there
(`run_interleaved`). -/

namespace Http1

inductive Side
  | receiving
  | sending
  deriving DecidableEq

/-- What a session holds for a side. -/
abbrev Side.State : Side → Type
  | .receiving => Inlet × Control
  | .sending => Outlet

/-- The half has handed all its calls to the log. -/
def Side.Idle : (side : Side) → side.State → Prop
  | .receiving, (inlet, _) => inlet.source.calls = #[]
  | .sending, outlet => outlet.sink.calls = #[]

/-- The side that an operation works on. Only bind and close work on the whole connection. -/
def Operation.side? : Operation → Option Side
  | .bind _ | .close _ => none
  | .flush | .sendContent _ _ _ | .sendEntity _ _ _ => some .sending
  | .ensureOpen | .socketTimeout | .setSocketTimeout _ | .awaitInput _ | .isStale | .receiveHead
  | .incomingEntity _ _ _ | .receiveEntity _ _ => some .receiving

/-- The side that a call belongs to. -/
def Call.side? : Call → Option Side
  | .read _ _ | .soTimeout _ | .setSoTimeout _ _ => some .receiving
  | .write _ _ | .flush _ => some .sending
  | .close _ | .localAddr | .peerAddr | .shutdownInput | .shutdownOutput => none

theorem Call.IsRead.side {call : Call} (h : call.IsRead) : call.side? = some .receiving := by
  cases call with
  | read => rfl
  | _ => exact h.elim

theorem Call.IsWrite.side {call : Call} (h : call.IsWrite) : call.side? = some .sending := by
  cases call with
  | write => rfl
  | flush => rfl
  | _ => exact h.elim

/-- All calls of a log belong to one side. -/
def OfSide (side : Side) (calls : Array Call) : Prop := LogOf (·.side? = some side) calls

/-- The calls of a side in a log, in their order. -/
def Side.calls (side : Side) (log : Array Call) : List Call :=
  log.toList.filter (·.side? = some side)

namespace OfSide

variable {side other : Side} {calls : Array Call}

theorem calls_other (h : OfSide side calls) (hne : other ≠ side) : other.calls calls = [] := by
  refine List.filter_eq_nil_iff.2 ?_
  intro call hc
  rw [h call (Array.mem_toList_iff.1 hc)]
  simpa using hne.symm

end OfSide

theorem Side.calls_append (side : Side) (log more : Array Call) :
    side.calls (log ++ more) = side.calls log ++ side.calls more := by
  rw [calls, Array.toList_append, List.filter_append]
  rfl

namespace Session

def part (session : Session) : (side : Side) → side.State
  | .receiving => (session.inlet, session.control)
  | .sending => session.outlet

/-- The session with another state of a side, behind these calls. -/
def withPart (session : Session) (calls : Array Call) : (side : Side) → side.State → Session
  | .receiving, (inlet, control) =>
    { session with inlet, control, log := session.log ++ calls }
  | .sending, outlet => { session with outlet, log := session.log ++ calls }

variable {session : Session} {calls : Array Call}

@[simp] theorem log_withPart (side : Side) (state : side.State) :
    (session.withPart calls side state).log = session.log ++ calls := by
  cases side with
  | receiving => rfl
  | sending => rfl

@[simp] theorem part_withPart (side : Side) (state : side.State) :
    (session.withPart calls side state).part side = state := by
  cases side with
  | receiving => rfl
  | sending => rfl

theorem part_withPart_other {side other : Side} (h : other ≠ side) (state : side.State) :
    (session.withPart calls side state).part other = session.part other := by
  cases side with
  | receiving =>
    cases other with
    | receiving => exact absurd rfl h
    | sending => rfl
  | sending =>
    cases other with
    | receiving => rfl
    | sending => exact absurd rfl h

/-- What is done to a session depends on one side of it and changes nothing else, and its calls
belong to that side. -/
def ActsOn {α : Type} (side : Side) (use : Session → α × Session) : Prop :=
  ∀ state : side.State, side.Idle state → ∃ answer next calls, side.Idle next ∧ OfSide side calls
    ∧ ∀ session : Session, session.part side = state →
      use session = (answer, session.withPart calls side next)

theorem actsOn_pure {α : Type} (side : Side) (answer : α) :
    ActsOn side fun session => (answer, session) := by
  intro state hidle
  refine ⟨answer, state, #[], hidle, LogOf.none _, ?_⟩
  rintro session rfl
  cases side with
  | receiving => simp [withPart, part]
  | sending => simp [withPart, part]

/-- The state of the side may decide what is done. -/
theorem ActsOn.ofState {α : Type} {side : Side} {use : Session → α × Session}
    (h : ∀ state : side.State, ∃ act, ActsOn side act
      ∧ ∀ session : Session, session.part side = state → use session = act session) :
    ActsOn side use := by
  intro state hidle
  obtain ⟨act, hact, huse⟩ := h state
  obtain ⟨answer, next, calls, hnext, hcalls, heq⟩ := hact state hidle
  refine ⟨answer, next, calls, hnext, hcalls, ?_⟩
  intro session hpart
  rw [huse session hpart, heq session hpart]

theorem receiving_acts {α : Type} {use : Inlet → α × Inlet}
    (hu : ∀ inlet : Inlet, LogOf Call.IsRead inlet.source.calls →
      LogOf Call.IsRead (use inlet).2.source.calls) :
    ActsOn .receiving fun session => session.receiving use := by
  rintro ⟨inlet, control⟩ hidle
  have hreads := hu inlet (by rw [hidle]; exact LogOf.none _)
  refine ⟨(use inlet).1,
    ({ (use inlet).2 with source := { (use inlet).2.source with calls := #[] } }, control),
    (use inlet).2.source.calls, rfl, hreads.mono fun _ => Call.IsRead.side, ?_⟩
  intro session hpart
  obtain ⟨rfl, rfl⟩ := Prod.mk.inj hpart
  rfl

theorem sending_acts {α : Type} {use : Outlet → α × Outlet}
    (hu : ∀ outlet : Outlet, LogOf Call.IsWrite outlet.sink.calls →
      LogOf Call.IsWrite (use outlet).2.sink.calls) :
    ActsOn .sending fun session => session.sending use := by
  intro outlet hidle
  have hwrites := hu outlet (by rw [hidle]; exact LogOf.none _)
  refine ⟨(use outlet).1,
    { (use outlet).2 with sink := { (use outlet).2.sink with calls := #[] } },
    (use outlet).2.sink.calls, rfl, hwrites.mono fun _ => Call.IsWrite.side, ?_⟩
  rintro session rfl
  rfl

theorem queryTimeout_acts : ActsOn .receiving queryTimeout := by
  rintro ⟨inlet, control⟩ hidle
  refine ⟨control.query.1, (inlet, control.query.2), #[.soTimeout control.query.1], hidle,
    (LogOf.none _).push rfl, ?_⟩
  intro session hpart
  obtain ⟨rfl, rfl⟩ := Prod.mk.inj hpart
  rfl

theorem changeTimeout_acts (timeout : Timeout) : ActsOn .receiving (changeTimeout · timeout) := by
  rintro ⟨inlet, control⟩ hidle
  refine ⟨(control.change timeout).1, (inlet, (control.change timeout).2),
    #[.setSoTimeout timeout (control.change timeout).1], hidle, (LogOf.none _).push rfl, ?_⟩
  intro session hpart
  obtain ⟨rfl, rfl⟩ := Prod.mk.inj hpart
  rfl

/-- What is done next may depend on the answer of what was done first. -/
theorem ActsOn.bind {α β : Type} {side : Side} {first : Session → α × Session}
    {next : α → Session → β × Session} (hf : ActsOn side first)
    (hn : ∀ answer, ActsOn side (next answer)) :
    ActsOn side fun session => next (first session).1 (first session).2 := by
  intro state hidle
  obtain ⟨answer, middle, calls, hmiddle, hcalls, hfirst⟩ := hf state hidle
  obtain ⟨answer', last, calls', hlast, hcalls', hnext⟩ := hn answer middle hmiddle
  refine ⟨answer', last, calls ++ calls', hlast, hcalls.append hcalls', ?_⟩
  intro session hpart
  dsimp only
  rw [hfirst session hpart, hnext _ (part_withPart side middle)]
  cases side with
  | receiving => simp [withPart]
  | sending => simp [withPart]

theorem ActsOn.map {α β : Type} {side : Side} {use : Session → α × Session} (h : ActsOn side use)
    (f : α → β) : ActsOn side fun session => (f (use session).1, (use session).2) :=
  h.bind fun answer => actsOn_pure side (f answer)

theorem peekWithin_acts (timeout : Timeout) : ActsOn .receiving (peekWithin · timeout) := by
  have hinstall : ActsOn .receiving fun session =>
      ((session.queryTimeout.2.changeTimeout timeout).1,
        (session.queryTimeout.2.changeTimeout timeout).2) :=
    queryTimeout_acts.bind fun _ => changeTimeout_acts timeout
  have hlook (inForce : Timeout) : ActsOn .receiving fun session =>
      (((session.queryTimeout.2.changeTimeout timeout).2.receiving Inlet.peek).1,
        (((session.queryTimeout.2.changeTimeout timeout).2.receiving Inlet.peek).2.changeTimeout
          inForce).2) :=
    (hinstall.bind fun _ => receiving_acts (Inlet.peek_keeps (Inlet.reads_kept 0))).bind
      fun answer => (changeTimeout_acts inForce).map fun _ => answer
  -- the controls of the side decide which of the three it is
  refine .ofState ?_
  rintro ⟨inlet, control⟩
  rcases hq : control.query.1 with error | inForce
  · refine ⟨_, queryTimeout_acts.map fun _ => .error error, ?_⟩
    intro session hpart
    obtain ⟨rfl, rfl⟩ := Prod.mk.inj hpart
    exact peekWithin_unknown hq timeout
  · rcases hc : (control.query.2.change timeout).1 with error | u
    · refine ⟨_, hinstall.map fun _ => .error error, ?_⟩
      intro session hpart
      obtain ⟨rfl, rfl⟩ := Prod.mk.inj hpart
      exact peekWithin_refused hq hc
    · refine ⟨_, hlook inForce, ?_⟩
      intro session hpart
      obtain ⟨rfl, rfl⟩ := Prod.mk.inj hpart
      exact peekWithin_looks hq hc

/-- A look is taken only when nothing is buffered. -/
theorem ActsOn.unlessBuffered {α : Type} (answer : α) {use : Session → α × Session}
    (h : ActsOn .receiving use) :
    ActsOn .receiving fun session =>
      if ¬ session.inlet.buffered.isEmpty then (answer, session) else use session := by
  refine .ofState ?_
  rintro ⟨inlet, control⟩
  by_cases hb : inlet.buffered.isEmpty
  · refine ⟨use, h, ?_⟩
    intro session hpart
    obtain ⟨rfl, rfl⟩ := Prod.mk.inj hpart
    exact if_neg (not_not.2 hb)
  · refine ⟨_, actsOn_pure .receiving answer, ?_⟩
    intro session hpart
    obtain ⟨rfl, rfl⟩ := Prod.mk.inj hpart
    exact if_pos hb

end Session

namespace Connection

/-- What is done to an open connection acts on one side of its session. -/
def ActsOn {α : Type} (side : Side) (use : Connection → α × Connection) : Prop :=
  ∀ connection addresses, ∃ act, Session.ActsOn side act
    ∧ ∀ session, use (withOpen connection addresses session)
      = ((act session).1, withOpen connection addresses (act session).2)

theorem withSession_acts {α : Type} {side : Side} {use : Session → α × Session}
    (h : Session.ActsOn side use) : ActsOn side fun connection => connection.withSession use :=
  fun _ _ => ⟨_, h.map Except.ok, fun _ => rfl⟩

theorem ActsOn.map {α β : Type} {side : Side} {use : Connection → α × Connection}
    (h : ActsOn side use) (f : α → β) :
    ActsOn side fun connection => (f (use connection).1, (use connection).2) := by
  intro connection addresses
  obtain ⟨act, hact, huse⟩ := h connection addresses
  refine ⟨_, hact.map f, ?_⟩
  intro session
  dsimp only
  rw [huse session]

theorem ActsOn.answering {α : Type} {side : Side} {use : Connection → α × Connection}
    {answer : α → Answer} (h : ActsOn side use) :
    ActsOn side fun connection => Connection.answering answer (use connection) :=
  h.map answer

theorem withSessionIo_acts {α : Type} {side : Side} {use : Session → Except IoError α × Session}
    (h : Session.ActsOn side use) : ActsOn side fun connection => connection.withSessionIo use :=
  (withSession_acts h).map fun answer => answer.bind fun answer => answer.mapError .io

/-- The framing that is decided on is the same for every session. -/
theorem ActsOn.byStrategy {α : Type} {side : Side} (message : Headers) (refused : ParseError → α)
    {use : Framing → Connection → α × Connection} (h : ∀ framing, ActsOn side (use framing)) :
    ActsOn side fun connection =>
      match connection.strategy message with
      | .error error => (refused error, connection)
      | .ok framing => use framing connection := by
  intro connection addresses
  cases hs : connection.strategy message with
  | error error =>
    refine ⟨_, Session.actsOn_pure side (refused error), ?_⟩
    intro session
    simp only [withOpen, hs]
  | ok framing =>
    obtain ⟨act, hact, huse⟩ := h framing connection addresses
    refine ⟨act, hact, ?_⟩
    intro session
    rw [← huse session]
    simp only [withOpen, hs]

theorem ActsOn.congr {α : Type} {side : Side} {use use' : Connection → α × Connection}
    (h : ActsOn side use) (hu : ∀ connection addresses session,
      use' (withOpen connection addresses session) = use (withOpen connection addresses session)) :
    ActsOn side use' := by
  intro connection addresses
  obtain ⟨act, hact, huse⟩ := h connection addresses
  refine ⟨act, hact, ?_⟩
  intro session
  rw [hu, huse session]

theorem socketTimeout_acts : ActsOn .receiving socketTimeout := by
  have hquery := (withSessionIo_acts Session.queryTimeout_acts).map fun
    | .ok timeout => timeout
    | .error _ => Timeout.disabled
  refine hquery.congr ?_
  intro connection addresses session
  rw [socketTimeout]
  rcases (withOpen connection addresses session).withSessionIo Session.queryTimeout
    with ⟨error | timeout, next⟩
  · rfl
  · rfl

theorem awaitInput_acts (timeout : Timeout) :
    ActsOn .receiving fun connection => connection.awaitInput timeout := by
  have hlook := (Session.peekWithin_acts timeout).map fun answer =>
    answer.map fun found => decide (found ≠ .endOfStream ∧ found ≠ .wouldBlock)
  refine (withSessionIo_acts (hlook.unlessBuffered (.ok true))).congr ?_
  intro connection addresses session
  simp only [awaitInput, withSessionIo, withSession, withOpen]
  rcases session.peekWithin timeout with ⟨error | ⟨size⟩ | _ | _, next⟩
  all_goals rfl

theorem isStale_acts : ActsOn .receiving isStale := by
  have hlook := (Session.peekWithin_acts staleTimeout).map fun answer =>
    answer.toOption.all (· = .endOfStream)
  refine ((withSession_acts (hlook.unlessBuffered false)).map fun answer =>
    answer.toOption.getD true).congr ?_
  intro connection addresses session
  simp only [isStale, withSession, withOpen]
  rcases session.peekWithin staleTimeout with ⟨error | ⟨size⟩ | _ | _, next⟩
  all_goals rfl

theorem receiveHead_acts : ActsOn .receiving receiveHead := by
  intro connection addresses
  have hread := (Session.receiving_acts
    (Inlet.readHead_keeps (Inlet.reads_kept connection.config.bufferSize) le_rfl)).map
      fun answer => answer.mapError HttpError.parse
  exact ⟨_, hread, fun _ => rfl⟩

theorem incomingEntity_acts (message : Headers) (framing : Framing) (calls : List BodyCall) :
    ActsOn .receiving fun connection =>
      connection.incomingEntity message framing (IncomingEntity.use calls) := by
  intro connection addresses
  have huse : Session.ActsOn .receiving (Session.receiving · fun inlet =>
      let (answer, entity) := IncomingEntity.use calls
        (.start connection.config message framing inlet)
      (answer, entity.reader.inlet)) :=
    Session.receiving_acts fun inlet => BodyReader.run_keeps (Inlet.reads_kept 0)
      (.start (.ofConfig connection.config framing) inlet) calls
  exact ⟨_, huse.map Except.ok, fun _ => rfl⟩

theorem flush_acts : ActsOn .sending flush :=
  withSessionIo_acts
    (Session.sending_acts (Outlet.flush_keeps Sink.writeAll_isWrite Sink.flush_isWrite))

theorem sendContent_acts (framing : Framing) (calls : List WriterCall) (finish : Bool) :
    ActsOn .sending fun connection =>
      connection.sendContent framing (BodyWriter.use calls finish) := by
  intro connection addresses
  have huse : Session.ActsOn .sending (Session.sending · fun outlet =>
      BodyWriter.use calls finish (.start framing connection.config.chunkSizeHint outlet)) :=
    Session.sending_acts fun outlet =>
      BodyWriter.use_keeps Sink.writeAll_isWrite Sink.flush_isWrite
        (.start framing connection.config.chunkSizeHint outlet) calls finish
  exact ⟨_, huse.map Except.ok, fun _ => rfl⟩

/-- What an operation comes to is settled by its side, and it changes nothing else. -/
theorem perform_acts {operation : Operation} {side : Side} (h : operation.side? = some side) :
    ActsOn side (perform · operation) := by
  cases operation with
  | bind endpoint => cases h
  | close mode => cases h
  | ensureOpen =>
    cases h
    exact (withSession_acts (Session.actsOn_pure .receiving ())).answering
  | socketTimeout => cases h; exact socketTimeout_acts.answering
  | setSocketTimeout timeout =>
    cases h
    exact (withSession_acts (Session.changeTimeout_acts timeout)).map fun _ => Answer.done
  | awaitInput timeout => cases h; exact (awaitInput_acts timeout).answering
  | isStale => cases h; exact isStale_acts.answering
  | receiveHead => cases h; exact receiveHead_acts.answering
  | incomingEntity message framing calls =>
    cases h
    exact (incomingEntity_acts message framing calls).answering
  | receiveEntity message calls =>
    cases h
    have huse := ActsOn.byStrategy message (fun error => .error (.parse error)) fun framing =>
      (incomingEntity_acts message framing calls).map fun answer =>
        answer.mapError HttpError.connection
    exact huse.answering
  | flush => cases h; exact flush_acts.answering
  | sendContent framing calls finish =>
    cases h
    exact (sendContent_acts framing calls finish).answering
  | sendEntity message calls finish =>
    cases h
    have huse := ActsOn.byStrategy message (fun error => .error (.parse error)) fun framing =>
      (sendContent_acts framing calls finish).map fun answer =>
        answer.mapError HttpError.connection
    exact huse.answering

/-- The operations of a run with their answers. -/
def transcript (connection : Connection) (operations : List Operation) :
    List (Operation × Answer) :=
  operations.zip (connection.run operations).1

theorem transcript_cons (connection : Connection) (first : Operation) (others : List Operation) :
    connection.transcript (first :: others)
      = (first, (connection.perform first).1) :: (connection.perform first).2.transcript others :=
  rfl

end Connection

/-- Both halves have handed their calls to the log. -/
def Session.Quiet (session : Session) : Prop := ∀ side : Side, side.Idle (session.part side)

theorem Session.Orderly.quiet {session : Session} (h : session.Orderly) : session.Quiet := by
  intro side
  cases side with
  | receiving => exact h.source
  | sending => exact h.sink

theorem Session.Quiet.withPart {session : Session} (h : session.Quiet) {side : Side}
    {next : side.State} (hn : side.Idle next) (calls : Array Call) :
    (session.withPart calls side next).Quiet := by
  intro other
  by_cases hne : other = side
  · subst hne
    rwa [part_withPart]
  · rw [part_withPart_other hne]
    exact h other

/-- What a session and one that has been used by one side alone have in common. -/
structure Session.Beside (side : Side) (session alone : Session) : Prop where
  part : session.part side = alone.part side
  calls : side.calls session.log = side.calls alone.log

namespace Connection

theorem perform_withOpen {operation : Operation} {side : Side} (h : operation.side? = some side)
    (connection : Connection) (addresses : Addresses) {state : side.State}
    (hidle : side.Idle state) :
    ∃ answer next calls, side.Idle next ∧ OfSide side calls
      ∧ ∀ session : Session, session.part side = state →
        (withOpen connection addresses session).perform operation
          = (answer, withOpen connection addresses (session.withPart calls side next)) := by
  obtain ⟨act, hact, huse⟩ := perform_acts h connection addresses
  obtain ⟨answer, next, calls, hnext, hcalls, heq⟩ := hact state hidle
  refine ⟨answer, next, calls, hnext, hcalls, ?_⟩
  intro session hpart
  have hperform := huse session
  rw [heq session hpart] at hperform
  exact hperform

/-- A run of operations of both sides, seen from one of them: it is the run of that side's
operations alone, and such a run leaves the other side as it is. -/
theorem run_beside (connection : Connection) (addresses : Addresses) (side : Side)
    {operations : List Operation}
    (hsided : ∀ operation ∈ operations, ∃ side, operation.side? = some side)
    {session alone : Session} (hquiet : session.Quiet) (hb : session.Beside side alone) :
    ∃ last last', ((withOpen connection addresses session).run operations).2
        = withOpen connection addresses last
      ∧ ((withOpen connection addresses alone).run
          (operations.filter (·.side? = some side))).2 = withOpen connection addresses last'
      ∧ last.Beside side last'
      ∧ ((withOpen connection addresses session).transcript operations).filter
          (·.1.side? = some side)
        = (withOpen connection addresses alone).transcript
          (operations.filter (·.side? = some side))
      ∧ ∀ other, other ≠ side → alone.Beside other last' := by
  induction operations generalizing session alone with
  | nil => exact ⟨session, alone, rfl, rfl, hb, rfl, fun other hne => ⟨rfl, rfl⟩⟩
  | cons first others ih =>
    have hothers : ∀ operation ∈ others, ∃ side, operation.side? = some side :=
      fun operation ho => hsided operation (List.mem_cons_of_mem _ ho)
    obtain ⟨own, hown⟩ := hsided first List.mem_cons_self
    obtain ⟨answer, next, calls, hnext, hcalls, hperform⟩ :=
      perform_withOpen hown connection addresses (hquiet own)
    have hfirst := hperform session rfl
    have hquiet' := hquiet.withPart hnext calls
    rw [run_cons, transcript_cons, hfirst]
    by_cases hne : own = side
    · subst hne
      have hfirst' := hperform alone hb.part.symm
      have hb' : (session.withPart calls own next).Beside own (alone.withPart calls own next) := by
        refine ⟨by simp, ?_⟩
        rw [Session.log_withPart, Session.log_withPart, Side.calls_append, Side.calls_append,
          hb.calls]
      obtain ⟨last, last', hrun, hrun', hlast, htranscript, hother⟩ := ih hothers hquiet' hb'
      refine ⟨last, last', hrun, ?_, hlast, ?_, ?_⟩
      · rw [List.filter_cons_of_pos (by simpa using hown), run_cons, hfirst']
        exact hrun'
      · rw [List.filter_cons_of_pos (by simpa using hown),
          List.filter_cons_of_pos (by simpa using hown), transcript_cons, hfirst', htranscript]
      · intro other hne
        refine ⟨?_, ?_⟩
        · rw [← (hother other hne).part, Session.part_withPart_other hne]
        · rw [← (hother other hne).calls, Session.log_withPart, Side.calls_append,
            hcalls.calls_other hne, List.append_nil]
    · have hskip : ¬ first.side? = some side := by
        rw [hown]
        simpa using hne
      have hb' : (session.withPart calls own next).Beside side alone := by
        refine ⟨?_, ?_⟩
        · rw [Session.part_withPart_other (Ne.symm hne), hb.part]
        · rw [Session.log_withPart, Side.calls_append, hcalls.calls_other (Ne.symm hne),
            List.append_nil, hb.calls]
      obtain ⟨last, last', hrun, hrun', hlast, htranscript, hother⟩ := ih hothers hquiet' hb'
      refine ⟨last, last', hrun, ?_, hlast, ?_, hother⟩
      · rw [List.filter_cons_of_neg (by simpa using hskip)]
        exact hrun'
      · rw [List.filter_cons_of_neg (by simpa using hskip),
          List.filter_cons_of_neg (by simpa using hskip), htranscript]

end Connection

/-- The operations of both sides in one sequence, those of each side in their own order. -/
structure Interleaves (parts : Side → List Operation) (mixed : List Operation) : Prop where
  sided : ∀ operation ∈ mixed, ∃ side, operation.side? = some side
  parts : ∀ side, mixed.filter (·.side? = some side) = parts side

namespace Connection

variable {connection : Connection} {addresses : Addresses} {session : Session}

theorem withOpen_session? (connection : Connection) (addresses : Addresses) (session : Session) :
    (withOpen connection addresses session).session? = some session :=
  rfl

/-- Each side of a run ends as it ends alone. -/
theorem run_sides (connection : Connection) (addresses : Addresses) {parts : Side → List Operation}
    {mixed : List Operation} (hquiet : session.Quiet) (hm : Interleaves parts mixed) :
    ∃ last, ((withOpen connection addresses session).run mixed).2
        = withOpen connection addresses last
      ∧ ∀ side, ∃ alone, ((withOpen connection addresses session).run (parts side)).2
          = withOpen connection addresses alone
        ∧ last.Beside side alone
        ∧ ((withOpen connection addresses session).transcript mixed).filter
            (·.1.side? = some side)
          = (withOpen connection addresses session).transcript (parts side)
        ∧ ∀ other, other ≠ side → session.Beside other alone := by
  have hside (side : Side) := run_beside connection addresses side hm.sided hquiet
    (⟨rfl, rfl⟩ : session.Beside side session)
  simp only [hm.parts] at hside
  obtain ⟨last, _, hlast, -⟩ := hside .receiving
  refine ⟨last, hlast, ?_⟩
  intro side
  obtain ⟨last', alone, hlast', halone, hbeside, htranscript, hother⟩ := hside side
  have hsame : last = last' := by
    have h := congrArg session? (hlast.symm.trans hlast')
    simpa [withOpen_session?] using h
  subst hsame
  exact ⟨alone, halone, hbeside, htranscript, hother⟩

/-- The sides of an open connection do not disturb one another. However the operations of the two
are interleaved, each of them gets the same answer, the endpoint sees the same reads and timeouts
and the same writes and flushes in their order, and the same bytes are buffered in the end: all as
it is when a side goes alone, and then no call of the other side is made. -/
theorem run_interleaved (hopen : connection.state = .opened addresses session)
    (horderly : connection.Orderly) {parts : Side → List Operation} {one other : List Operation}
    (hone : Interleaves parts one) (hother : Interleaves parts other) :
    ∃ last last', (connection.run one).2.state = .opened addresses last
      ∧ (connection.run other).2.state = .opened addresses last'
      ∧ last.inlet = last'.inlet ∧ last.outlet = last'.outlet ∧ last.control = last'.control
      ∧ ∀ side : Side,
        (connection.transcript one).filter (·.1.side? = some side)
            = (connection.transcript other).filter (·.1.side? = some side)
        ∧ side.calls last.log = side.calls last'.log
        ∧ ∃ alone, (connection.run (parts side)).2.state = .opened addresses alone
          ∧ (connection.transcript one).filter (·.1.side? = some side)
            = connection.transcript (parts side)
          ∧ side.calls last.log = side.calls alone.log
          ∧ last.part side = alone.part side
          ∧ ∀ opposite, opposite ≠ side → opposite.calls alone.log = opposite.calls session.log
            ∧ alone.part opposite = session.part opposite := by
  have hconnection := eq_withOpen hopen
  have hsession : session.Orderly := by rwa [Connection.Orderly, hopen] at horderly
  rw [hconnection]
  obtain ⟨last, hlast, hsides⟩ := run_sides connection addresses hsession.quiet hone
  obtain ⟨last', hlast', hsides'⟩ := run_sides connection addresses hsession.quiet hother
  have hsame (side : Side) : last.Beside side last' := by
    obtain ⟨alone, halone, hbeside, -⟩ := hsides side
    obtain ⟨alone', halone', hbeside', -⟩ := hsides' side
    have h : alone = alone' := by
      have h := congrArg session? (halone.symm.trans halone')
      simpa [withOpen_session?] using h
    subst h
    exact ⟨hbeside.part.trans hbeside'.part.symm, hbeside.calls.trans hbeside'.calls.symm⟩
  obtain ⟨hinlet, hcontrol⟩ := Prod.mk.inj (hsame .receiving).part
  refine ⟨last, last', by rw [hlast]; rfl, by rw [hlast']; rfl, hinlet, (hsame .sending).part,
    hcontrol, ?_⟩
  intro side
  obtain ⟨alone, halone, hbeside, htranscript, hquiet⟩ := hsides side
  obtain ⟨-, -, -, htranscript', -⟩ := hsides' side
  refine ⟨htranscript.trans htranscript'.symm, (hsame side).calls, alone, by rw [halone]; rfl,
    htranscript, hbeside.calls, hbeside.part, ?_⟩
  intro opposite hne
  exact ⟨(hquiet opposite hne).calls.symm, (hquiet opposite hne).part.symm⟩

end Connection

/-! An endpoint that gives a head in two pieces and fails a write. -/

namespace TwoSides

def session : Session where
  inlet := .start 8 ⟨[.data [97, 13, 10], .fail ⟨.interrupted, ""⟩, .data [13, 10]], #[]⟩
  outlet := .start 8 8 ⟨[.accept 1, .fail ⟨.brokenPipe, ""⟩], [], #[]⟩
  control := ⟨⟨7⟩, [], [], []⟩
  log := #[.localAddr, .peerAddr]

def connection : Connection :=
  ⟨.default, fun _ => .ok .untilClose, .opened ⟨none, none⟩ session⟩

def send : Operation := .sendContent .chunked [.write [98, 99]] true

def parts : Side → List Operation
  | .receiving => [.isStale, .receiveHead]
  | .sending => [send, .flush]

theorem run_interleaved_twoSides :
    ∃ last last', (connection.run [.isStale, send, .receiveHead, .flush]).2.state
        = .opened ⟨none, none⟩ last
      ∧ (connection.run [send, .flush, .isStale, .receiveHead]).2.state
        = .opened ⟨none, none⟩ last'
      ∧ last.inlet = last'.inlet ∧ last.outlet = last'.outlet
      ∧ ∀ side : Side, side.calls last.log = side.calls last'.log := by
  have hone : Interleaves parts [.isStale, send, .receiveHead, .flush] := by
    refine ⟨?_, ?_⟩
    · intro operation ho
      simp only [List.mem_cons, List.not_mem_nil, or_false] at ho
      rcases ho with rfl | rfl | rfl | rfl
      · exact ⟨.receiving, rfl⟩
      · exact ⟨.sending, rfl⟩
      · exact ⟨.receiving, rfl⟩
      · exact ⟨.sending, rfl⟩
    · intro side
      cases side with
      | receiving => rfl
      | sending => rfl
  have hother : Interleaves parts [send, .flush, .isStale, .receiveHead] := by
    refine ⟨?_, ?_⟩
    · intro operation ho
      simp only [List.mem_cons, List.not_mem_nil, or_false] at ho
      rcases ho with rfl | rfl | rfl | rfl
      · exact ⟨.sending, rfl⟩
      · exact ⟨.sending, rfl⟩
      · exact ⟨.receiving, rfl⟩
      · exact ⟨.receiving, rfl⟩
    · intro side
      cases side with
      | receiving => rfl
      | sending => rfl
  have horderly : connection.Orderly :=
    (⟨rfl, rfl, ((LogOf.none _).push ⟨rfl, rfl⟩).push ⟨rfl, rfl⟩⟩ : session.Orderly)
  obtain ⟨last, last', hlast, hlast', hinlet, houtlet, -, hsides⟩ :=
    Connection.run_interleaved (rfl : connection.state = .opened ⟨none, none⟩ session) horderly
      hone hother
  exact ⟨last, last', hlast, hlast', hinlet, houtlet, fun side => (hsides side).2.1⟩

end TwoSides
end Http1
