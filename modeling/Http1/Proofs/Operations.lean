import Http1.Proofs.Halves

/-! The operations of a connection in any order. An operation is refused on a connection that is in
no stage for it, and then it changes nothing (`perform_refused`). -/

namespace Http1

/-- An operation of a caller; a body is used by calls one after the other. -/
inductive Operation
  | bind (endpoint : Endpoint)
  | ensureOpen
  | socketTimeout
  | setSocketTimeout (timeout : Timeout)
  | awaitInput (timeout : Timeout)
  | isStale
  | flush
  | close (mode : CloseMode)
  | receiveHead
  | incomingEntity (message : Headers) (framing : Framing) (calls : List BodyCall)
  | receiveEntity (message : Headers) (calls : List BodyCall)
  | sendContent (framing : Framing) (calls : List WriterCall) (finish : Bool)
  | sendEntity (message : Headers) (calls : List WriterCall) (finish : Bool)

/-- The operations that may take a connection further. -/
def Operation.isTurn : Operation → Bool
  | .bind _ | .close _ => true
  | _ => false

/-- What the calls on a writer came to, and its end if it was finished. -/
abbrev SendReport := List WriterReply × Option (Except SendError Unit)

/-- What an operation came to. -/
inductive Answer
  | bound (answer : Except ConnectionError Unit)
  | checked (answer : Except ConnectionError Unit)
  | timeout (timeout : Timeout)
  | done
  | awaited (answer : Except ConnectionError Bool)
  | stale (answer : Bool)
  | flushed (answer : Except ConnectionError Unit)
  | closed (answer : Except IoError Unit)
  | head (answer : Except HttpError (Option Bytes))
  | incoming (answer : Except ConnectionError (List Reply))
  | received (answer : Except HttpError (List Reply))
  | content (answer : Except ConnectionError SendReport)
  | sent (answer : Except HttpError SendReport)

def IncomingEntity.use (calls : List BodyCall) (entity : IncomingEntity) :
    List Reply × IncomingEntity :=
  let (replies, reader) := entity.reader.run calls
  (replies, { entity with reader })

/-- A writer that is not finished leaves its outlet as it is. -/
def BodyWriter.use (calls : List WriterCall) (finish : Bool) (writer : BodyWriter) :
    SendReport × Outlet :=
  let (replies, writer) := writer.send calls
  if finish then
    let (answer, outlet) := writer.finish
    ((replies, some answer), outlet)
  else ((replies, none), writer.outlet)

theorem BodyWriter.use_keeps {P : Sink → Prop}
    (hwrite : ∀ sink bytes, P sink → P (Sink.writeAll sink bytes).2)
    (hflush : ∀ sink, P sink → P (Sink.flush sink).2) (writer : BodyWriter)
    (calls : List WriterCall) (finish : Bool) (h : P writer.outlet.sink) :
    P (use calls finish writer).2.sink := by
  have hsent := send_keeps hwrite hflush writer calls h
  cases finish with
  | true => exact finish_keeps hwrite hflush _ hsent
  | false => exact hsent

namespace Connection

/-- Runs an operation that answers, and names its answer. -/
def answering {α : Type} (answer : α → Answer) (found : α × Connection) : Answer × Connection :=
  (answer found.1, found.2)

def perform (connection : Connection) : Operation → Answer × Connection
  | .bind endpoint => answering .bound (connection.bind endpoint)
  | .ensureOpen => (.checked connection.ensureOpen, connection)
  | .socketTimeout => answering .timeout connection.socketTimeout
  | .setSocketTimeout timeout => (.done, connection.setSocketTimeout timeout)
  | .awaitInput timeout => answering .awaited (connection.awaitInput timeout)
  | .isStale => answering .stale connection.isStale
  | .flush => answering .flushed connection.flush
  | .close mode => answering .closed (connection.close mode)
  | .receiveHead => answering .head connection.receiveHead
  | .incomingEntity message framing calls =>
    answering .incoming (connection.incomingEntity message framing (IncomingEntity.use calls))
  | .receiveEntity message calls =>
    answering .received (connection.receiveEntity message (IncomingEntity.use calls))
  | .sendContent framing calls finish =>
    answering .content (connection.sendContent framing (BodyWriter.use calls finish))
  | .sendEntity message calls finish =>
    answering .sent (connection.sendEntity message (BodyWriter.use calls finish))

def run (connection : Connection) : List Operation → List Answer × Connection
  | [] => ([], connection)
  | first :: others =>
    let (answer, connection) := connection.perform first
    let (answers, connection) := connection.run others
    (answer :: answers, connection)

end Connection

/-- The answer to an operation on a connection that is not open. A body is refused only when it has
a framing. -/
def Operation.refusal (strategy : Headers → Except ParseError Framing) (error : ConnectionError) :
    Operation → Answer
  | .bind _ => .bound (.error error)
  | .ensureOpen => .checked (.error error)
  | .socketTimeout => .timeout .disabled
  | .setSocketTimeout _ => .done
  | .awaitInput _ => .awaited (.error error)
  | .isStale => .stale true
  | .flush => .flushed (.error error)
  | .close _ => .closed (.ok ())
  | .receiveHead => .head (.error (.connection error))
  | .incomingEntity _ _ _ => .incoming (.error error)
  | .receiveEntity message _ => .received (refusedBody (strategy message))
  | .sendContent _ _ _ => .content (.error error)
  | .sendEntity message _ _ => .sent (refusedBody (strategy message))
where
  refusedBody {α : Type} : Except ParseError Framing → Except HttpError α
    | .error fault => .error (.parse fault)
    | .ok _ => .error (.connection error)

/-- The life of a connection, with the addresses of its endpoint. -/
inductive Stage
  | unbound
  | opened (addresses : Addresses)
  | closed (addresses : Addresses)
  deriving DecidableEq

namespace Stage

/-- Only the first bind and the first close behind it lead on. -/
def next : Stage → Operation → Stage
  | .unbound, .bind endpoint => .opened ⟨endpoint.localAddr.toOption, endpoint.peerAddr.toOption⟩
  | .opened addresses, .close _ => .closed addresses
  | stage, _ => stage

theorem next_other {operation : Operation} (h : operation.isTurn = false) (stage : Stage) :
    stage.next operation = stage := by
  unfold next
  split
  · cases h
  · cases h
  · rfl

def addresses : Stage → Addresses
  | .unbound => ⟨none, none⟩
  | .opened addresses | .closed addresses => addresses

/-- The addresses are set by the bind that opens a connection and stay. -/
theorem foldl_next_addresses {stage : Stage} (h : stage ≠ .unbound) (operations : List Operation) :
    (operations.foldl next stage).addresses = stage.addresses := by
  induction operations generalizing stage with
  | nil => rfl
  | cons first others ih =>
    have hfirst : stage.next first ≠ .unbound ∧ (stage.next first).addresses = stage.addresses := by
      cases stage with
      | unbound => exact absurd rfl h
      | opened addresses => cases first <;> exact ⟨nofun, rfl⟩
      | closed addresses => exact ⟨nofun, rfl⟩
    exact (ih hfirst.1).trans hfirst.2

/-- How often the endpoint has been closed. -/
def closes : Stage → Nat
  | .closed _ => 1
  | .unbound | .opened _ => 0

/-- The answer to an operation that is refused. -/
def refusal? (strategy : Headers → Except ParseError Framing) : Stage → Operation → Option Answer
  | .unbound, .bind _ => none
  | .unbound, operation => some (operation.refusal strategy .notBound)
  | .opened _, .bind _ => some (.bound (.error .alreadyBound))
  | .opened _, _ => none
  | .closed _, operation => some (operation.refusal strategy .closed)

end Stage

namespace Connection

def stage (connection : Connection) : Stage :=
  match connection.state with
  | .unbound => .unbound
  | .opened addresses _ => .opened addresses
  | .closed addresses _ => .closed addresses

/-- The endpoint in use, with its buffers. -/
def session? (connection : Connection) : Option Session :=
  match connection.state with
  | .opened _ session => some session
  | .unbound | .closed _ _ => none

variable {connection : Connection}

theorem session?_eq_some {session : Session} : connection.session? = some session ↔
    ∃ addresses, connection.state = .opened addresses session := by
  obtain ⟨config, strategy, state⟩ := connection
  cases state with
  | unbound => simp [session?]
  | opened addresses session => simp [session?]
  | closed addresses log => simp [session?]

theorem run_cons (connection : Connection) (first : Operation) (others : List Operation) :
    (connection.run (first :: others)).2 = ((connection.perform first).2.run others).2 :=
  rfl

theorem run_append (connection : Connection) (front back : List Operation) :
    (connection.run (front ++ back)).2 = ((connection.run front).2.run back).2 := by
  induction front generalizing connection with
  | nil => rfl
  | cons first others ih => exact ih _

/-- A connection that is not open refuses to give its session to any operation. -/
theorem perform_refusal {error : ConnectionError}
    (hw : ∀ {α : Type} (use : Session → α × Session),
      connection.withSession use = (.error error, connection))
    (hclose : ∀ mode, connection.close mode = (.ok (), connection)) {operation : Operation}
    (hbind : ∀ endpoint, operation = .bind endpoint →
      connection.bind endpoint = (.error error, connection)) :
    connection.perform operation = (operation.refusal connection.strategy error, connection) := by
  cases operation with
  | bind endpoint => rw [perform, hbind endpoint rfl]; rfl
  | ensureOpen => rw [perform, ensureOpen, hw]; rfl
  | socketTimeout => rw [perform, socketTimeout, withSessionIo, hw]; rfl
  | setSocketTimeout timeout => rw [perform, setSocketTimeout, hw]; rfl
  | awaitInput timeout => rw [perform, awaitInput, withSessionIo, hw]; rfl
  | isStale => rw [perform, isStale, hw]; rfl
  | flush => rw [perform, flush, withSessionIo, hw]; rfl
  | close mode => rw [perform, hclose]; rfl
  | receiveHead => rw [perform, receiveHead, hw]; rfl
  | incomingEntity message framing calls => rw [perform, incomingEntity, hw]; rfl
  | receiveEntity message calls =>
    rw [perform, receiveEntity, Operation.refusal]
    cases connection.strategy message with
    | error fault => rfl
    | ok framing => simp only [incomingEntity, hw]; rfl
  | sendContent framing calls finish => rw [perform, sendContent, hw]; rfl
  | sendEntity message calls finish =>
    rw [perform, sendEntity, Operation.refusal]
    cases connection.strategy message with
    | error fault => rfl
    | ok framing => simp only [sendContent, hw]; rfl

/-- What is refused changes nothing at all. -/
theorem perform_refused {operation : Operation} {answer : Answer}
    (h : connection.stage.refusal? connection.strategy operation = some answer) :
    connection.perform operation = (answer, connection) := by
  obtain ⟨config, strategy, state⟩ := connection
  cases state with
  | unbound =>
    cases operation with
    | bind endpoint => cases h
    | _ =>
      cases h
      exact perform_refusal (fun _ => rfl) (fun _ => rfl) fun endpoint he => by cases he
  | opened addresses session =>
    cases operation with
    | bind endpoint => cases h; rfl
    | _ => cases h
  | closed addresses log =>
    have hrefusal : perform ⟨config, strategy, .closed addresses log⟩ operation = _ :=
      perform_refusal (fun _ => rfl) (fun _ => rfl) fun endpoint _ => rfl
    cases h
    exact hrefusal

theorem run_closed (operations : List Operation) {addresses : Addresses}
    (h : connection.stage = .closed addresses) : (connection.run operations).2 = connection := by
  induction operations with
  | nil => rfl
  | cons first others ih =>
    have hfirst : connection.stage.refusal? connection.strategy first
        = some (first.refusal connection.strategy .closed) := by
      rw [h]
      rfl
    rw [run, perform_refused hfirst]
    exact ih

end Connection
end Http1
