import Http1.Connection

/-!
A connection as it is kept: a flag for its state, the endpoint if it has one, the addresses, and the
buffers of both directions, each a field of its own. The buffers live as long as the connection. The
operations look at the fields they need, in their order, so a flag without an endpoint is an answer
of its own; that no run ever comes to it, and that the fields make up a `Connection` at any time, is
shown in `Http1.Proofs.Record`.
-/

namespace Http1

inductive ConnectionFlag
  | unbound
  | opened
  | closed
  deriving DecidableEq, Repr

/-- What is left of an endpoint that a connection is bound to. -/
structure BoundEndpoint where
  source : Source
  sink : Sink
  control : Control

def Endpoint.bound (endpoint : Endpoint) : BoundEndpoint :=
  ⟨endpoint.source, endpoint.sink, endpoint.control⟩

/-- The log has the calls on every endpoint that was ever given to the connection. -/
structure ConnectionRecord where
  config : Config
  strategy : Headers → Except ParseError Framing
  flag : ConnectionFlag
  endpoint : Option BoundEndpoint
  localAddr : Option String
  remoteAddr : Option String
  input : InputBuffer
  output : OutputBuffer
  log : Array Call

namespace ConnectionRecord

def start (config : Config) (strategy : Headers → Except ParseError Framing) :
    ConnectionRecord where
  config := config
  strategy := strategy
  flag := .unbound
  endpoint := none
  localAddr := none
  remoteAddr := none
  input := .start config.bufferSize
  output := .start config.bufferSize config.chunkSizeHint
  log := #[]

/-- An endpoint with the buffers in front of it. -/
def session (record : ConnectionRecord) (endpoint : BoundEndpoint) : Session where
  inlet := ⟨record.input, endpoint.source⟩
  outlet := ⟨record.output, endpoint.sink⟩
  control := endpoint.control
  log := record.log

/-- Takes the buffers and the log back. -/
def keep (record : ConnectionRecord) (session : Session) : ConnectionRecord :=
  { record with
    input := session.inlet.toInputBuffer
    output := session.outlet.toOutputBuffer
    log := session.log }

/-- Takes the endpoint back too. -/
def restore (record : ConnectionRecord) (session : Session) : ConnectionRecord :=
  { record.keep session with
    endpoint := some ⟨session.inlet.source, session.outlet.sink, session.control⟩ }

/-- Only a bind that is not refused looks at the new endpoint. -/
def bind (record : ConnectionRecord) (endpoint : Endpoint) :
    Except ConnectionError Unit × ConnectionRecord :=
  match record.flag with
  | .opened => (.error .alreadyBound, record)
  | .closed => (.error .closed, record)
  | .unbound =>
    (.ok (), { record with
      flag := .opened
      endpoint := some endpoint.bound
      localAddr := endpoint.localAddr.toOption
      remoteAddr := endpoint.peerAddr.toOption
      log := (record.log.push .localAddr).push .peerAddr })

def isOpen (record : ConnectionRecord) : Bool := record.flag == .opened

def ensureOpen (record : ConnectionRecord) : Except ConnectionError Unit :=
  match record.flag with
  | .opened => .ok ()
  | .unbound => .error .notBound
  | .closed => .error .closed

/-- Lends the endpoint and the buffers to `use`. -/
def lend {α : Type} (record : ConnectionRecord) (use : Session → α × Session) :
    Except ConnectionError α × ConnectionRecord :=
  match record.endpoint with
  | none => (.error .closed, record)
  | some endpoint =>
    let (answer, session) := use (record.session endpoint)
    (.ok answer, record.restore session)

/-- Lends them only while the connection is open. -/
def lendOpen {α : Type} (record : ConnectionRecord) (use : Session → α × Session) :
    Except ConnectionError α × ConnectionRecord :=
  match record.ensureOpen with
  | .error error => (.error error, record)
  | .ok () => record.lend use

/-- The timeout in force; none when there is no endpoint or it cannot tell. -/
def socketTimeout (record : ConnectionRecord) : Timeout × ConnectionRecord :=
  match record.lend Session.queryTimeout with
  | (.ok (.ok timeout), record) => (timeout, record)
  | (_, record) => (.disabled, record)

/-- Failures are not reported, nor that there is no endpoint. -/
def setSocketTimeout (record : ConnectionRecord) (timeout : Timeout) : ConnectionRecord :=
  (record.lend (Session.changeTimeout · timeout)).2

/-- Waits up to `timeout` for input, without a look at the endpoint when there is some already. -/
def awaitInput (record : ConnectionRecord) (timeout : Timeout) :
    Except ConnectionError Bool × ConnectionRecord :=
  match record.ensureOpen with
  | .error error => (.error error, record)
  | .ok () =>
    if record.input.hasBuffered then (.ok true, record)
    else match record.lend (Session.peekWithin · timeout) with
      | (.error error, record) => (.error error, record)
      | (.ok (.error error), record) => (.error (.io error), record)
      | (.ok (.ok (.data _)), record) => (.ok true, record)
      | (.ok (.ok .endOfStream), record) | (.ok (.ok .wouldBlock), record) => (.ok false, record)

/-- Only input and an expired timeout mean that the peer is there. -/
def isStale (record : ConnectionRecord) : Bool × ConnectionRecord :=
  if ¬ record.isOpen then (true, record)
  else if record.input.hasBuffered then (false, record)
  else match record.lend (Session.peekWithin · Connection.staleTimeout) with
    | (.ok (.ok (.data _)), record) | (.ok (.ok .wouldBlock), record) => (false, record)
    | (_, record) => (true, record)

/-- Sends what waits and flushes the endpoint. -/
def flush (record : ConnectionRecord) : Except ConnectionError Unit × ConnectionRecord :=
  let (answer, record) := record.lendOpen (Session.sending · Outlet.flush)
  (answer.bind fun answer => answer.mapError .io, record)

/-- Lets go of the endpoint, which the record does not have any more, and of everything buffered. -/
def release (record : ConnectionRecord) (endpoint : BoundEndpoint) (mode : CloseMode) :
    Except IoError Unit × ConnectionRecord :=
  let record := { record with input := record.input.clear }
  let (flushed, session) := match mode with
    | .immediate => (record.session endpoint).sending Outlet.flush
    | .graceful => (.ok (), record.session endpoint)
  let (closed, _) := session.control.close
  let record := record.keep { session with log := session.log.push (.close closed) }
  (match mode with
    | .immediate => flushed.bind fun _ => closed
    | .graceful => .ok (), { record with output := record.output.clear })

/-- Only the first close of an open connection gets to the endpoint, and takes it. -/
def close (record : ConnectionRecord) (mode : CloseMode) : Except IoError Unit × ConnectionRecord :=
  match record.flag, record.endpoint with
  | .unbound, _ | .closed, _ => (.ok (), record)
  | .opened, none => (.ok (), { record with flag := .closed })
  | .opened, some endpoint =>
    release { record with flag := .closed, endpoint := none } endpoint mode

/-- The next message head, at most a buffer long. -/
def receiveHead (record : ConnectionRecord) : Except HttpError (Option Bytes) × ConnectionRecord :=
  let (answer, record) := record.lendOpen
    (Session.receiving · (Inlet.readHead record.config.bufferSize))
  (match answer with
    | .error error => .error (.connection error)
    | .ok answer => answer.mapError .parse, record)

/-- Lets `use` read the body of a message whose framing is known. -/
def incomingEntity {α : Type} (record : ConnectionRecord) (message : Headers) (framing : Framing)
    (use : IncomingEntity → α × IncomingEntity) : Except ConnectionError α × ConnectionRecord :=
  record.lendOpen fun session =>
    session.receiving fun inlet =>
      let (answer, entity) := use (.start record.config message framing inlet)
      (answer, entity.reader.inlet)

/-- Lets `use` read the body of a message with the framing that the strategy decides on. -/
def receiveEntity {α : Type} (record : ConnectionRecord) (message : Headers)
    (use : IncomingEntity → α × IncomingEntity) : Except HttpError α × ConnectionRecord :=
  match record.strategy message with
  | .error error => (.error (.parse error), record)
  | .ok framing =>
    let (answer, record) := record.incomingEntity message framing use
    (answer.mapError .connection, record)

/-- Lets `use` write a body; it gives back the outlet of the writer. -/
def sendContent {α : Type} (record : ConnectionRecord) (framing : Framing)
    (use : BodyWriter → α × Outlet) : Except ConnectionError α × ConnectionRecord :=
  record.lendOpen fun session =>
    session.sending fun outlet => use (.start framing record.config.chunkSizeHint outlet)

/-- Lets `use` write a body with the framing that the strategy decides on. -/
def sendEntity {α : Type} (record : ConnectionRecord) (message : Headers)
    (use : BodyWriter → α × Outlet) : Except HttpError α × ConnectionRecord :=
  match record.strategy message with
  | .error error => (.error (.parse error), record)
  | .ok framing =>
    let (answer, record) := record.sendContent framing use
    (answer.mapError .connection, record)

/-- The two ends of the connection. -/
def text (record : ConnectionRecord) : String :=
  if record.flag = .unbound then "[Not bound]"
  else record.localAddr.getD "unknown" ++ "<->" ++ record.remoteAddr.getD "unknown"

def flagNumber (record : ConnectionRecord) : Nat :=
  match record.flag with
  | .unbound => 0
  | .opened => 1
  | .closed => 2

def addressDetail : Option String → String
  | none => "None"
  | some address => "Some(" ++ address ++ ")"

/-- The connection for a developer. -/
def detail (record : ConnectionRecord) : String :=
  "HttpConnection \x7b state: " ++ toString record.flagNumber
    ++ ", local_addr: " ++ addressDetail record.localAddr
    ++ ", remote_addr: " ++ addressDetail record.remoteAddr
    ++ ", buffered_input: " ++ toString record.input.buffered.length
    ++ ", buffered_output: " ++ toString record.output.pending.length ++ ", .. \x7d"

end ConnectionRecord
end Http1
