import Http1.Connection.Record
import Http1.Proofs.Lifecycle

/-! The fields of a connection fit together whatever is done (`ConnectionRecord.Sound`): there is an
endpoint exactly while the flag says open, and nothing is buffered otherwise. Every operation keeps
that and comes to what it comes to on the connection that the fields make up (`perform_agrees`), and
so does a run (`run_agrees`). The life of a connection is then that of its stages
(`run_lifecycle`). -/

namespace Http1

namespace ConnectionRecord

/-- Runs an operation that answers, and names its answer. -/
def answering {α : Type} (answer : α → Answer) (found : α × ConnectionRecord) :
    Answer × ConnectionRecord :=
  (answer found.1, found.2)

def perform (record : ConnectionRecord) : Operation → Answer × ConnectionRecord
  | .bind endpoint => answering .bound (record.bind endpoint)
  | .ensureOpen => (.checked record.ensureOpen, record)
  | .socketTimeout => answering .timeout record.socketTimeout
  | .setSocketTimeout timeout => (.done, record.setSocketTimeout timeout)
  | .awaitInput timeout => answering .awaited (record.awaitInput timeout)
  | .isStale => answering .stale record.isStale
  | .flush => answering .flushed record.flush
  | .close mode => answering .closed (record.close mode)
  | .receiveHead => answering .head record.receiveHead
  | .incomingEntity message framing calls =>
    answering .incoming (record.incomingEntity message framing (IncomingEntity.use calls))
  | .receiveEntity message calls =>
    answering .received (record.receiveEntity message (IncomingEntity.use calls))
  | .sendContent framing calls finish =>
    answering .content (record.sendContent framing (BodyWriter.use calls finish))
  | .sendEntity message calls finish =>
    answering .sent (record.sendEntity message (BodyWriter.use calls finish))

def run (record : ConnectionRecord) : List Operation → List Answer × ConnectionRecord
  | [] => ([], record)
  | first :: others =>
    let (answer, record) := record.perform first
    let (answers, record) := record.run others
    (answer :: answers, record)

/-- The connection that the fields make up. An open one without an endpoint is as good as closed. -/
def connection (record : ConnectionRecord) : Connection where
  config := record.config
  strategy := record.strategy
  state := match record.flag, record.endpoint with
    | .unbound, _ => .unbound
    | .opened, some endpoint =>
      .opened ⟨record.localAddr, record.remoteAddr⟩ (record.session endpoint)
    | .opened, none | .closed, _ => .closed ⟨record.localAddr, record.remoteAddr⟩ record.log

/-- The fields fit together. -/
structure Sound (record : ConnectionRecord) : Prop where
  endpoint : record.endpoint.isSome ↔ record.flag = .opened
  input : record.flag ≠ .opened → record.input.buffered = []
  output : record.flag ≠ .opened → record.output.pending = []
  fresh : record.flag = .unbound → record = start record.config record.strategy

variable {record : ConnectionRecord} {endpoint : BoundEndpoint}

theorem start_sound (config : Config) (strategy : Headers → Except ParseError Framing) :
    (start config strategy).Sound :=
  ⟨⟨nofun, nofun⟩, fun _ => rfl, fun _ => rfl, fun _ => rfl⟩

theorem Sound.opened (h : record.Sound) (hf : record.flag = .opened) :
    ∃ endpoint, record.endpoint = some endpoint :=
  Option.isSome_iff_exists.1 (h.endpoint.2 hf)

theorem Sound.endpoint_none (h : record.Sound) (hf : record.flag ≠ .opened) :
    record.endpoint = none := by
  rw [← Option.not_isSome_iff_eq_none, h.endpoint]
  exact hf

/-- Fields with an open flag and an endpoint fit together, whatever is buffered. -/
theorem sound_of_opened (hf : record.flag = .opened) (he : record.endpoint = some endpoint) :
    record.Sound := by
  refine ⟨by simp [he, hf], fun hne => absurd hf hne, fun hne => absurd hf hne, fun hu => ?_⟩
  rw [hf] at hu
  cases hu

theorem connection_opened (hf : record.flag = .opened) (he : record.endpoint = some endpoint) :
    record.connection = ⟨record.config, record.strategy,
      .opened ⟨record.localAddr, record.remoteAddr⟩ (record.session endpoint)⟩ := by
  rw [connection, hf, he]

theorem connection_unbound (hf : record.flag = .unbound) :
    record.connection = ⟨record.config, record.strategy, .unbound⟩ := by
  rw [connection, hf]

theorem connection_closed (hf : record.flag = .closed) :
    record.connection = ⟨record.config, record.strategy,
      .closed ⟨record.localAddr, record.remoteAddr⟩ record.log⟩ := by
  rw [connection, hf]

/-- What was found on a record is what is seen of its connection, and the fields still fit. -/
structure Agrees {α : Type} (found : α × ConnectionRecord) (seen : α × Connection) : Prop where
  seen_eq : seen = (found.1, found.2.connection)
  sound : found.2.Sound

namespace Agrees

variable {α β : Type} {found : α × ConnectionRecord} {seen : α × Connection}

/-- Nothing has changed. -/
theorem same (h : record.Sound) (answer : α) :
    Agrees (answer, record) (answer, record.connection) := ⟨rfl, h⟩

theorem map (h : Agrees found seen) (f : α → β) : Agrees (f found.1, found.2) (f seen.1, seen.2) :=
  ⟨by rw [h.seen_eq], h.sound⟩

theorem answering (h : Agrees found seen) (answer : α → Answer) :
    Agrees (answering answer found) (Connection.answering answer seen) := h.map answer

end Agrees

/-- A session that comes back is the one of the open connection. -/
theorem restore_agrees {α : Type} (hf : record.flag = .opened) (answer : α) (session : Session) :
    Agrees (answer, record.restore session) (answer, (⟨record.config, record.strategy,
      .opened ⟨record.localAddr, record.remoteAddr⟩ session⟩ : Connection)) := by
  have hflag : (record.restore session).flag = .opened := hf
  exact ⟨by rw [connection_opened hflag rfl]; rfl, sound_of_opened hflag rfl⟩

/-- What is lent while the flag says open is the session of the connection. -/
theorem lendOpen_agrees {α : Type} (h : record.Sound) (use : Session → α × Session) :
    Agrees (record.lendOpen use) (record.connection.withSession use) := by
  cases hf : record.flag with
  | unbound =>
    rw [lendOpen, ensureOpen, hf]
    exact ⟨by rw [connection_unbound hf]; rfl, h⟩
  | closed =>
    rw [lendOpen, ensureOpen, hf]
    exact ⟨by rw [connection_closed hf]; rfl, h⟩
  | opened =>
    obtain ⟨endpoint, he⟩ := h.opened hf
    rw [lendOpen, ensureOpen, hf, connection_opened hf he]
    simp only [lend, he]
    exact restore_agrees hf _ _

/-- A loan without a look at the flag is refused with another error, and else it is the same. -/
theorem lend_eq {α : Type} (h : record.Sound) (use : Session → α × Session) :
    record.lend use = record.lendOpen use
      ∨ ∃ error, record.lend use = (.error .closed, record)
        ∧ record.lendOpen use = (.error error, record) := by
  cases hf : record.flag with
  | opened =>
    left
    rw [lendOpen, ensureOpen, hf]
  | unbound =>
    right
    have he := h.endpoint_none (by rw [hf]; nofun)
    exact ⟨.notBound, by rw [lend, he], by rw [lendOpen, ensureOpen, hf]⟩
  | closed =>
    right
    have he := h.endpoint_none (by rw [hf]; nofun)
    exact ⟨.closed, by rw [lend, he], by rw [lendOpen, ensureOpen, hf]⟩

theorem ensureOpen_agrees (h : record.Sound) :
    record.connection.ensureOpen = record.ensureOpen := by
  rw [Connection.ensureOpen, (lendOpen_agrees h fun session => ((), session)).seen_eq, lendOpen]
  cases hf : record.flag with
  | unbound => rw [ensureOpen, hf]
  | closed => rw [ensureOpen, hf]
  | opened =>
    obtain ⟨endpoint, he⟩ := h.opened hf
    rw [ensureOpen, hf]
    simp only [lend, he]

theorem bind_agrees (h : record.Sound) (endpoint : Endpoint) :
    Agrees (record.bind endpoint) (record.connection.bind endpoint) := by
  cases hf : record.flag with
  | opened =>
    obtain ⟨former, he⟩ := h.opened hf
    rw [bind, hf]
    exact ⟨by rw [connection_opened hf he]; rfl, h⟩
  | closed =>
    rw [bind, hf]
    exact ⟨by rw [connection_closed hf]; rfl, h⟩
  | unbound =>
    -- the endpoint comes to empty buffers, as they were made
    rw [h.fresh hf]
    exact ⟨rfl, sound_of_opened rfl rfl⟩

theorem socketTimeout_agrees (h : record.Sound) :
    Agrees record.socketTimeout record.connection.socketTimeout := by
  have hlent := lendOpen_agrees h Session.queryTimeout
  rw [Connection.socketTimeout, Connection.withSessionIo, hlent.seen_eq, socketTimeout]
  rcases lend_eq h Session.queryTimeout with heq | ⟨error, heq, hrefused⟩
  · rw [heq]
    generalize record.lendOpen Session.queryTimeout = found at hlent ⊢
    rcases found with ⟨error | error | timeout, next⟩
    · exact .same hlent.sound _
    · exact .same hlent.sound _
    · exact .same hlent.sound _
  · rw [heq, hrefused]
    exact .same h _

theorem setSocketTimeout_agrees (h : record.Sound) (timeout : Timeout) :
    Agrees ((), record.setSocketTimeout timeout)
      ((), record.connection.setSocketTimeout timeout) := by
  have hlent := lendOpen_agrees h (Session.changeTimeout · timeout)
  rw [Connection.setSocketTimeout, hlent.seen_eq, setSocketTimeout]
  rcases lend_eq h (Session.changeTimeout · timeout) with heq | ⟨error, heq, hrefused⟩
  · rw [heq]
    exact .same hlent.sound _
  · rw [heq, hrefused]
    exact .same h _

theorem awaitInput_agrees (h : record.Sound) (timeout : Timeout) :
    Agrees (record.awaitInput timeout) (record.connection.awaitInput timeout) := by
  cases hf : record.flag with
  | unbound =>
    rw [awaitInput, ensureOpen, hf]
    exact ⟨by rw [connection_unbound hf]; rfl, h⟩
  | closed =>
    rw [awaitInput, ensureOpen, hf]
    exact ⟨by rw [connection_closed hf]; rfl, h⟩
  | opened =>
    obtain ⟨endpoint, he⟩ := h.opened hf
    rw [awaitInput, ensureOpen, hf, connection_opened hf he]
    simp only [Connection.awaitInput, Connection.withSessionIo, Connection.withSession]
    by_cases hb : record.input.buffered.isEmpty
    · have hb' : (record.session endpoint).inlet.buffered.isEmpty = true := hb
      simp only [InputBuffer.hasBuffered, hb, hb', lend, he, not_true_eq_false, if_false,
        Bool.not_true, Bool.false_eq_true]
      rcases (record.session endpoint).peekWithin timeout with ⟨error | ⟨size⟩ | _ | _, session⟩
      · exact restore_agrees hf _ _
      · exact restore_agrees hf _ _
      · exact restore_agrees hf _ _
      · exact restore_agrees hf _ _
    · have hb' : ¬ (record.session endpoint).inlet.buffered.isEmpty = true := hb
      simp only [InputBuffer.hasBuffered, hb, hb', if_true, Bool.not_false]
      exact ⟨by rw [connection_opened hf he]; rfl, h⟩

theorem isStale_of_not_open (hf : record.flag ≠ .opened) : record.isStale = (true, record) := by
  have hopen : ¬ record.isOpen = true := fun ho => hf (eq_of_beq ho)
  rw [isStale, if_pos hopen]

theorem isStale_agrees (h : record.Sound) :
    Agrees record.isStale record.connection.isStale := by
  cases hf : record.flag with
  | unbound =>
    rw [isStale_of_not_open (by rw [hf]; nofun)]
    exact ⟨by rw [connection_unbound hf]; rfl, h⟩
  | closed =>
    rw [isStale_of_not_open (by rw [hf]; nofun)]
    exact ⟨by rw [connection_closed hf]; rfl, h⟩
  | opened =>
    obtain ⟨endpoint, he⟩ := h.opened hf
    rw [isStale, isOpen, hf, connection_opened hf he]
    simp only [Connection.isStale, Connection.withSession, beq_self_eq_true, not_true_eq_false,
      if_false]
    by_cases hb : record.input.buffered.isEmpty
    · have hb' : (record.session endpoint).inlet.buffered.isEmpty = true := hb
      simp only [InputBuffer.hasBuffered, hb, hb', lend, he, not_true_eq_false, if_false,
        Bool.not_true, Bool.false_eq_true]
      rcases (record.session endpoint).peekWithin Connection.staleTimeout with
        ⟨error | ⟨size⟩ | _ | _, session⟩
      · exact restore_agrees hf _ _
      · exact restore_agrees hf _ _
      · exact restore_agrees hf _ _
      · exact restore_agrees hf _ _
    · have hb' : ¬ (record.session endpoint).inlet.buffered.isEmpty = true := hb
      simp only [InputBuffer.hasBuffered, hb, hb', if_true, Bool.not_false]
      exact ⟨by rw [connection_opened hf he]; rfl, h⟩

theorem flush_agrees (h : record.Sound) : Agrees record.flush record.connection.flush :=
  (lendOpen_agrees h (Session.sending · Outlet.flush)).map fun answer =>
    answer.bind fun answer => answer.mapError .io

/-- Whatever comes of it, there is no endpoint behind a release and nothing in the buffers. -/
theorem release_sound (hf : record.flag = .closed) (he : record.endpoint = none)
    (endpoint : BoundEndpoint) (mode : CloseMode) : (record.release endpoint mode).2.Sound := by
  have hflag : (record.release endpoint mode).2.flag = .closed := by cases mode <;> exact hf
  have hendpoint : (record.release endpoint mode).2.endpoint = none := by cases mode <;> exact he
  refine ⟨by simp [hflag, hendpoint], fun _ => ?_, fun _ => ?_, fun hu => ?_⟩
  · cases mode <;> rfl
  · cases mode <;> rfl
  · rw [hflag] at hu
    cases hu

theorem close_agrees (h : record.Sound) (mode : CloseMode) :
    Agrees (record.close mode) (record.connection.close mode) := by
  cases hf : record.flag with
  | unbound =>
    simp only [close, hf]
    exact ⟨by rw [connection_unbound hf]; rfl, h⟩
  | closed =>
    simp only [close, hf]
    exact ⟨by rw [connection_closed hf]; rfl, h⟩
  | opened =>
    obtain ⟨endpoint, he⟩ := h.opened hf
    simp only [close, hf, he]
    rw [connection_opened hf he]
    refine ⟨?_, release_sound rfl rfl endpoint mode⟩
    cases mode with
    | immediate =>
      -- the calls of a flush do not depend on the input that was dropped before
      simp only [Connection.close, Session.close, release, session, Session.sending,
        beq_self_eq_true, if_true]
      rcases Outlet.flush ⟨record.output, endpoint.sink⟩ with ⟨error | _, outlet⟩
      · rfl
      · rfl
    | graceful => rfl

theorem receiveHead_agrees (h : record.Sound) :
    Agrees record.receiveHead record.connection.receiveHead := by
  have hlent := lendOpen_agrees h (Session.receiving · (Inlet.readHead record.config.bufferSize))
  refine ⟨?_, hlent.sound⟩
  have hconfig : record.connection.config = record.config := rfl
  rw [Connection.receiveHead, hconfig, hlent.seen_eq]
  rfl

theorem incomingEntity_agrees {α : Type} (h : record.Sound) (message : Headers) (framing : Framing)
    (use : IncomingEntity → α × IncomingEntity) :
    Agrees (record.incomingEntity message framing use)
      (record.connection.incomingEntity message framing use) :=
  lendOpen_agrees h _

theorem receiveEntity_agrees {α : Type} (h : record.Sound) (message : Headers)
    (use : IncomingEntity → α × IncomingEntity) :
    Agrees (record.receiveEntity message use) (record.connection.receiveEntity message use) := by
  have hstrategy : record.connection.strategy message = record.strategy message := rfl
  rw [receiveEntity, Connection.receiveEntity, hstrategy]
  cases record.strategy message with
  | error error => exact .same h _
  | ok framing => exact (incomingEntity_agrees h message framing use).map _

theorem sendContent_agrees {α : Type} (h : record.Sound) (framing : Framing)
    (use : BodyWriter → α × Outlet) :
    Agrees (record.sendContent framing use) (record.connection.sendContent framing use) :=
  lendOpen_agrees h _

theorem sendEntity_agrees {α : Type} (h : record.Sound) (message : Headers)
    (use : BodyWriter → α × Outlet) :
    Agrees (record.sendEntity message use) (record.connection.sendEntity message use) := by
  have hstrategy : record.connection.strategy message = record.strategy message := rfl
  rw [sendEntity, Connection.sendEntity, hstrategy]
  cases record.strategy message with
  | error error => exact .same h _
  | ok framing => exact (sendContent_agrees h framing use).map _

/-- Every operation keeps the fields together and does what it does to the connection they make
up. -/
theorem perform_agrees (h : record.Sound) (operation : Operation) :
    Agrees (record.perform operation) (record.connection.perform operation) := by
  cases operation with
  | bind endpoint => exact (bind_agrees h endpoint).answering .bound
  | ensureOpen =>
    rw [Connection.perform, ensureOpen_agrees h]
    exact .same h _
  | socketTimeout => exact (socketTimeout_agrees h).answering .timeout
  | setSocketTimeout timeout => exact (setSocketTimeout_agrees h timeout).map fun _ => Answer.done
  | awaitInput timeout => exact (awaitInput_agrees h timeout).answering .awaited
  | isStale => exact (isStale_agrees h).answering .stale
  | flush => exact (flush_agrees h).answering .flushed
  | close mode => exact (close_agrees h mode).answering .closed
  | receiveHead => exact (receiveHead_agrees h).answering .head
  | incomingEntity message framing calls =>
    exact (incomingEntity_agrees h message framing _).answering .incoming
  | receiveEntity message calls => exact (receiveEntity_agrees h message _).answering .received
  | sendContent framing calls finish =>
    exact (sendContent_agrees h framing _).answering .content
  | sendEntity message calls finish => exact (sendEntity_agrees h message _).answering .sent

theorem run_agrees (h : record.Sound) (operations : List Operation) :
    Agrees (record.run operations) (record.connection.run operations) := by
  induction operations generalizing record with
  | nil => exact .same h []
  | cons first others ih =>
    have hfirst := perform_agrees h first
    have hothers := ih hfirst.sound
    rw [Connection.run, hfirst.seen_eq]
    exact hothers.map (List.cons (record.perform first).1)

/-- The stage by the flag, whatever the rest of the fields hold. -/
def stage (record : ConnectionRecord) : Stage :=
  match record.flag with
  | .unbound => .unbound
  | .opened => .opened ⟨record.localAddr, record.remoteAddr⟩
  | .closed => .closed ⟨record.localAddr, record.remoteAddr⟩

theorem Sound.stage (h : record.Sound) : record.connection.stage = record.stage := by
  cases hf : record.flag with
  | unbound => rw [connection_unbound hf, ConnectionRecord.stage, hf]; rfl
  | closed => rw [connection_closed hf, ConnectionRecord.stage, hf]; rfl
  | opened =>
    obtain ⟨endpoint, he⟩ := h.opened hf
    rw [connection_opened hf he, ConnectionRecord.stage, hf]
    rfl

/-- The log is the one of the connection, before the first bind too. -/
theorem Sound.log (h : record.Sound) : record.connection.log = record.log := by
  cases hf : record.flag with
  | unbound => rw [connection_unbound hf, h.fresh hf]; rfl
  | closed => rw [connection_closed hf]; rfl
  | opened =>
    obtain ⟨endpoint, he⟩ := h.opened hf
    rw [connection_opened hf he]
    rfl

/-- A record that is not open and has no endpoint to lend refuses every operation. -/
theorem perform_refusal {error : ConnectionError} (hopen : record.ensureOpen = .error error)
    (he : record.endpoint = none) {operation : Operation}
    (hbind : ∀ endpoint, operation = .bind endpoint →
      record.bind endpoint = (.error error, record)) :
    record.perform operation = (operation.refusal record.strategy error, record) := by
  have hlend {α : Type} (use : Session → α × Session) :
      record.lend use = (.error .closed, record) := by rw [lend, he]
  have hlendOpen {α : Type} (use : Session → α × Session) :
      record.lendOpen use = (.error error, record) := by rw [lendOpen, hopen]
  have hflag : record.flag ≠ .opened := by
    intro hf
    rw [ensureOpen, hf] at hopen
    cases hopen
  cases operation with
  | bind endpoint => rw [perform, hbind endpoint rfl]; rfl
  | ensureOpen => rw [perform, hopen]; rfl
  | socketTimeout => rw [perform, socketTimeout, hlend]; rfl
  | setSocketTimeout timeout => rw [perform, setSocketTimeout, hlend]; rfl
  | awaitInput timeout => rw [perform, awaitInput, hopen]; rfl
  | isStale => rw [perform, isStale_of_not_open hflag]; rfl
  | flush => rw [perform, flush, hlendOpen]; rfl
  | close mode =>
    rw [perform, close]
    split
    · rfl
    · rfl
    · exact absurd ‹_› hflag
    · exact absurd ‹_› hflag
  | receiveHead => rw [perform, receiveHead, hlendOpen]; rfl
  | incomingEntity message framing calls => rw [perform, incomingEntity, hlendOpen]; rfl
  | receiveEntity message calls =>
    rw [perform, receiveEntity, Operation.refusal]
    cases record.strategy message with
    | error fault => rfl
    | ok framing => simp only [incomingEntity, hlendOpen]; rfl
  | sendContent framing calls finish => rw [perform, sendContent, hlendOpen]; rfl
  | sendEntity message calls finish =>
    rw [perform, sendEntity, Operation.refusal]
    cases record.strategy message with
    | error fault => rfl
    | ok framing => simp only [sendContent, hlendOpen]; rfl

/-- What is refused changes no field. -/
theorem perform_refused (h : record.Sound) {operation : Operation} {answer : Answer}
    (hr : record.stage.refusal? record.strategy operation = some answer) :
    record.perform operation = (answer, record) := by
  rw [stage] at hr
  cases hf : record.flag with
  | unbound =>
    have he := h.endpoint_none (by rw [hf]; nofun)
    rw [hf] at hr
    cases operation with
    | bind endpoint => cases hr
    | _ =>
      cases hr
      exact perform_refusal (by rw [ensureOpen, hf]) he fun endpoint hb => by cases hb
  | opened =>
    rw [hf] at hr
    cases operation with
    | bind endpoint =>
      cases hr
      rw [perform, bind, hf]
      rfl
    | _ => cases hr
  | closed =>
    have he := h.endpoint_none (by rw [hf]; nofun)
    rw [hf] at hr
    cases hr
    exact perform_refusal (by rw [ensureOpen, hf]) he fun endpoint _ => by rw [bind, hf]

theorem run_closed (h : record.Sound) (hf : record.flag = .closed) (operations : List Operation) :
    (record.run operations).2 = record := by
  induction operations with
  | nil => rfl
  | cons first others ih =>
    have hfirst : record.stage.refusal? record.strategy first
        = some (first.refusal record.strategy .closed) := by
      rw [stage, hf]
      rfl
    rw [run, perform_refused h hfirst]
    exact ih

theorem start_run_agrees (config : Config) (strategy : Headers → Except ParseError Framing)
    (operations : List Operation) :
    Agrees ((start config strategy).run operations)
      ((Connection.start config strategy).run operations) :=
  run_agrees (start_sound config strategy) operations

/-- The stage after a run is that of the operations alone. -/
theorem run_stage (h : record.Sound) (operations : List Operation) :
    (record.run operations).2.stage = operations.foldl Stage.next record.stage := by
  have hran := run_agrees h operations
  have hleads := record.connection.run_leads operations
  rw [hran.seen_eq, h.stage] at hleads
  rw [← hran.sound.stage]
  exact hleads.stage

/-- Both addresses are those of the stage. -/
theorem Sound.addresses (h : record.Sound) :
    record.localAddr = record.stage.addresses.localAddr
      ∧ record.remoteAddr = record.stage.addresses.remoteAddr := by
  cases hf : record.flag with
  | unbound =>
    rw [h.fresh hf]
    exact ⟨rfl, rfl⟩
  | opened => simp [ConnectionRecord.stage, hf, Stage.addresses]
  | closed => simp [ConnectionRecord.stage, hf, Stage.addresses]

theorem stage_eq_unbound : record.stage = .unbound ↔ record.flag = .unbound := by
  rw [stage]
  cases record.flag with
  | unbound => exact iff_of_true rfl rfl
  | opened => exact iff_of_false nofun nofun
  | closed => exact iff_of_false nofun nofun

/-- Nothing that is done behind the bind changes the addresses. -/
theorem run_addresses (h : record.Sound) (hf : record.flag ≠ .unbound)
    (operations : List Operation) :
    (record.run operations).2.localAddr = record.localAddr
      ∧ (record.run operations).2.remoteAddr = record.remoteAddr := by
  have hran := (run_agrees h operations).sound
  have hkept := Stage.foldl_next_addresses (mt stage_eq_unbound.1 hf) operations
  rw [← run_stage h] at hkept
  rw [hran.addresses.1, hran.addresses.2, hkept]
  exact ⟨h.addresses.1.symm, h.addresses.2.symm⟩

theorem stage_closes (record : ConnectionRecord) :
    record.stage.closes = if record.flag = .closed then 1 else 0 := by
  rw [stage]
  cases record.flag with
  | unbound => rfl
  | opened => rfl
  | closed => rfl

/-- The life of a connection under any operations. Its stage depends on them alone: the first bind
opens it and the first close behind that closes it for good. It holds an endpoint exactly while its
flag says open, and no bytes in its buffers otherwise; the addresses that the bind has found stay.
The endpoint is closed once, by its last call, when the connection is closed, and never half-closed.
A bind on a connection that was bound before and every operation on one that is not open are refused
and change nothing. -/
theorem run_lifecycle (config : Config) (strategy : Headers → Except ParseError Framing)
    (operations : List Operation) :
    let last := ((start config strategy).run operations).2
    last.stage = operations.foldl Stage.next .unbound
      ∧ (last.endpoint.isSome ↔ last.flag = .opened)
      ∧ (last.flag = .unbound → last.localAddr = none ∧ last.remoteAddr = none)
      ∧ (last.flag ≠ .unbound → ∀ more, let later := (last.run more).2
        later.localAddr = last.localAddr ∧ later.remoteAddr = last.remoteAddr)
      ∧ (last.flag ≠ .opened → last.input.buffered = [] ∧ last.output.pending = [])
      ∧ last.log.countP Call.isClose = (if last.flag = .closed then 1 else 0)
      ∧ (last.flag = .closed →
        (∃ answer, last.log.back? = some (.close answer)) ∧ ∀ more, (last.run more).2 = last)
      ∧ (∀ call ∈ last.log, call.isShutdown = false)
      ∧ ∀ operation answer, last.stage.refusal? strategy operation = some answer →
        last.perform operation = (answer, last) := by
  intro last
  have hran := start_run_agrees config strategy operations
  have hsound : last.Sound := hran.sound
  have hleads : (Connection.start config strategy).Leads
      (operations.foldl Stage.next .unbound) last.connection := by
    have hled := (Connection.start config strategy).run_leads operations
    rwa [hran.seen_eq] at hled
  obtain ⟨hcloses, hback, hshutdown⟩ := Connection.Orderly.log (hleads.orderly trivial)
  rw [hsound.log] at hcloses hback hshutdown
  rw [hsound.stage] at hcloses hback
  have hstrategy : last.strategy = strategy := hleads.strategy
  refine ⟨hsound.stage.symm.trans hleads.stage, hsound.endpoint, fun hf => ?_,
    fun hf => run_addresses hsound hf, fun hf => ⟨hsound.input hf, hsound.output hf⟩,
    hcloses.trans last.stage_closes, fun hf => ⟨?_, run_closed hsound hf⟩, hshutdown,
    fun operation answer hr => perform_refused hsound (by rwa [hstrategy])⟩
  · rw [hsound.fresh hf]
    exact ⟨rfl, rfl⟩
  · exact hback ⟨last.localAddr, last.remoteAddr⟩ (by rw [stage, hf])

end ConnectionRecord
end Http1
