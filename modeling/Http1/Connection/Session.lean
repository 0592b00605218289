import Http1.Config
import Http1.Endpoint
import Http1.Inlet
import Http1.Outlet

/-!
An endpoint in use: the buffers on both of its halves, its controls, and the log of every call made
on it. The halves collect the calls of one operation; `receiving` and `sending` run an operation on
one half and move its calls to the log, so that the log holds the calls of both in their order.
-/

namespace Http1

structure Session where
  inlet : Inlet
  outlet : Outlet
  control : Control
  log : Array Call

namespace Session

def start (config : Config) (endpoint : Endpoint) (log : Array Call) : Session where
  inlet := .start config.bufferSize endpoint.source
  outlet := .start config.bufferSize config.chunkSizeHint endpoint.sink
  control := endpoint.control
  log := log

def receiving {α : Type} (session : Session) (use : Inlet → α × Inlet) : α × Session :=
  let (answer, inlet) := use session.inlet
  (answer, { session with
    inlet := { inlet with source := { inlet.source with calls := #[] } }
    log := session.log ++ inlet.source.calls })

def sending {α : Type} (session : Session) (use : Outlet → α × Outlet) : α × Session :=
  let (answer, outlet) := use session.outlet
  (answer, { session with
    outlet := { outlet with sink := { outlet.sink with calls := #[] } }
    log := session.log ++ outlet.sink.calls })

def queryTimeout (session : Session) : Except IoError Timeout × Session :=
  let (answer, control) := session.control.query
  (answer, { session with control, log := session.log.push (.soTimeout answer) })

def changeTimeout (session : Session) (timeout : Timeout) : Except IoError Unit × Session :=
  let (answer, control) := session.control.change timeout
  (answer, { session with control, log := session.log.push (.setSoTimeout timeout answer) })

/-- One look at the source that waits at most `timeout`. The timeout that was in force is put back
whatever the look comes to; without knowing it, or when the new one is refused, nothing is read. -/
def peekWithin (session : Session) (timeout : Timeout) : Except IoError Peek × Session :=
  match session.queryTimeout with
  | (.error error, session) => (.error error, session)
  | (.ok inForce, session) =>
    match session.changeTimeout timeout with
    | (.error error, session) => (.error error, session)
    | (.ok (), session) =>
      let (answer, session) := session.receiving Inlet.peek
      (answer, (session.changeTimeout inForce).2)

/-- Drops what is buffered and releases the endpoint. What waits to be sent is either sent first or
dropped too. The first failure counts, but the endpoint is released in any case. -/
def close (session : Session) (flushFirst : Bool) : Except IoError Unit × Array Call :=
  let (flushed, session) :=
    if flushFirst then session.sending Outlet.flush else (.ok (), session)
  let (closed, _) := session.control.close
  (match flushed with
    | .error error => .error error
    | .ok () => closed, session.log.push (.close closed))

end Session
end Http1
