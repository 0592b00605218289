import Http1.Body.Entity
import Http1.Body.Writer
import Http1.Connection.Session
import Http1.Framing.Decision

/-!
A connection over one endpoint, seen from outside. It goes from unbound to open by the first `bind`
and from open to closed by the first `close`; closed is final. An endpoint and its buffers belong to
an open connection and to no other; that the fields of a `ConnectionRecord` always fit together to
such a state is a theorem about them.
-/

namespace Http1

/-- Addresses are looked up once, when an endpoint is bound. -/
structure Addresses where
  localAddr : Option String
  remoteAddr : Option String
  deriving DecidableEq

/-- A closed connection keeps its addresses and the log of its calls. -/
inductive ConnectionState
  | unbound
  | opened (addresses : Addresses) (session : Session)
  | closed (addresses : Addresses) (log : Array Call)

inductive CloseMode
  /-- what waits to be sent is sent first, and failures are reported -/
  | immediate
  /-- what waits to be sent is dropped, and no failure is reported -/
  | graceful
  deriving DecidableEq, Repr

structure Connection where
  config : Config
  strategy : Headers → Except ParseError Framing
  state : ConnectionState

namespace Connection

def start (config : Config) (strategy : Headers → Except ParseError Framing) : Connection :=
  ⟨config, strategy, .unbound⟩

def log (connection : Connection) : Array Call :=
  match connection.state with
  | .unbound => #[]
  | .opened _ session => session.log
  | .closed _ log => log

def isOpen (connection : Connection) : Bool :=
  match connection.state with
  | .opened _ _ => true
  | _ => false

def bufferedInput (connection : Connection) : Nat :=
  match connection.state with
  | .opened _ session => session.inlet.buffered.length
  | _ => 0

def bufferedOutput (connection : Connection) : Nat :=
  match connection.state with
  | .opened _ session => session.outlet.pending.length
  | _ => 0

/-- A connection serves one endpoint over its lifetime. -/
def bind (connection : Connection) (endpoint : Endpoint) :
    Except ConnectionError Unit × Connection :=
  match connection.state with
  | .opened _ _ => (.error .alreadyBound, connection)
  | .closed _ _ => (.error .closed, connection)
  | .unbound =>
    let addresses := ⟨endpoint.localAddr.toOption, endpoint.peerAddr.toOption⟩
    let session := .start connection.config endpoint #[.localAddr, .peerAddr]
    (.ok (), { connection with state := .opened addresses session })

/-- Runs an operation on the session of an open connection. -/
def withSession {α : Type} (connection : Connection) (use : Session → α × Session) :
    Except ConnectionError α × Connection :=
  match connection.state with
  | .unbound => (.error .notBound, connection)
  | .closed _ _ => (.error .closed, connection)
  | .opened addresses session =>
    let (answer, session) := use session
    (.ok answer, { connection with state := .opened addresses session })

/-- Runs an operation that may fail by the endpoint. -/
def withSessionIo {α : Type} (connection : Connection)
    (use : Session → Except IoError α × Session) : Except ConnectionError α × Connection :=
  let (answer, connection) := connection.withSession use
  (answer.bind fun answer => answer.mapError .io, connection)

def ensureOpen (connection : Connection) : Except ConnectionError Unit :=
  (connection.withSession fun session => ((), session)).1

/-- The timeout in force; none when there is no endpoint or it cannot tell. -/
def socketTimeout (connection : Connection) : Timeout × Connection :=
  match connection.withSessionIo Session.queryTimeout with
  | (.ok timeout, connection) => (timeout, connection)
  | (.error _, connection) => (.disabled, connection)

/-- Failures are not reported. -/
def setSocketTimeout (connection : Connection) (timeout : Timeout) : Connection :=
  (connection.withSession (Session.changeTimeout · timeout)).2

/-- Waits up to `timeout` for input, without a call when there is some already. Neither the end of
the stream nor an expired timeout is input. -/
def awaitInput (connection : Connection) (timeout : Timeout) :
    Except ConnectionError Bool × Connection :=
  connection.withSessionIo fun session =>
    if ¬ session.inlet.buffered.isEmpty then (.ok true, session)
    else
      let (answer, session) := session.peekWithin timeout
      (answer.map fun
        | .data _ => true
        | .endOfStream | .wouldBlock => false, session)

/-- How long a check for staleness waits for the peer. -/
def staleTimeout : Timeout := ⟨1⟩

/-- Input and an expired timeout mean that the peer is there. The end of the stream and every other
failure mean that it is gone, and a connection that is not open is stale. -/
def isStale (connection : Connection) : Bool × Connection :=
  let (answer, connection) := connection.withSession fun session =>
    if ¬ session.inlet.buffered.isEmpty then (false, session)
    else
      let (answer, session) := session.peekWithin staleTimeout
      (match answer with
        | .ok (.data _) | .ok .wouldBlock => false
        | .ok .endOfStream | .error _ => true, session)
  (answer.toOption.getD true, connection)

/-- Sends what waits and flushes the endpoint. -/
def flush (connection : Connection) : Except ConnectionError Unit × Connection :=
  connection.withSessionIo (Session.sending · Outlet.flush)

/-- Only the first close of an open connection does anything, and the connection is closed after it
whatever comes of it. -/
def close (connection : Connection) (mode : CloseMode) : Except IoError Unit × Connection :=
  match connection.state with
  | .unbound | .closed _ _ => (.ok (), connection)
  | .opened addresses session =>
    let (answer, log) := session.close (mode == .immediate)
    (match mode with
      | .immediate => answer
      | .graceful => .ok (), { connection with state := .closed addresses log })

/-- The next message head, at most a buffer long; none when the peer closed before sending
anything. -/
def receiveHead (connection : Connection) : Except HttpError (Option Bytes) × Connection :=
  let (answer, connection) := connection.withSession
    (Session.receiving · (Inlet.readHead connection.config.bufferSize))
  (match answer with
    | .error error => .error (.connection error)
    | .ok answer => answer.mapError .parse, connection)

/-- Lets `use` read the body of a message whose framing is known. -/
def incomingEntity {α : Type} (connection : Connection) (message : Headers) (framing : Framing)
    (use : IncomingEntity → α × IncomingEntity) : Except ConnectionError α × Connection :=
  connection.withSession fun session =>
    session.receiving fun inlet =>
      let (answer, entity) := use (.start connection.config message framing inlet)
      (answer, entity.reader.inlet)

/-- Lets `use` read the body of a message with the framing that the strategy decides on. -/
def receiveEntity {α : Type} (connection : Connection) (message : Headers)
    (use : IncomingEntity → α × IncomingEntity) : Except HttpError α × Connection :=
  match connection.strategy message with
  | .error error => (.error (.parse error), connection)
  | .ok framing =>
    let (answer, connection) := connection.incomingEntity message framing use
    (answer.mapError .connection, connection)

/-- Lets `use` write a body; it gives back the outlet of the writer. -/
def sendContent {α : Type} (connection : Connection) (framing : Framing)
    (use : BodyWriter → α × Outlet) : Except ConnectionError α × Connection :=
  connection.withSession fun session =>
    session.sending fun outlet => use (.start framing connection.config.chunkSizeHint outlet)

/-- Lets `use` write a body with the framing that the strategy decides on. -/
def sendEntity {α : Type} (connection : Connection) (message : Headers)
    (use : BodyWriter → α × Outlet) : Except HttpError α × Connection :=
  match connection.strategy message with
  | .error error => (.error (.parse error), connection)
  | .ok framing =>
    let (answer, connection) := connection.sendContent framing use
    (answer.mapError .connection, connection)

end Connection
end Http1
