import Http1.Endpoint.Sink
import Http1.Endpoint.Source

/-!
What a connection is bound to: the two halves of a byte channel, its read timeout, and its
addresses. How it answers is fixed beforehand by scripts, one answer for each call.
-/

namespace Http1

/-- The controls of an endpoint. Queries past the end of their script give the timeout in force, and
other calls past the end of theirs succeed. -/
structure Control where
  timeout : Timeout
  queries : List (Except IoError Timeout)
  changes : List (Except IoError Unit)
  closes : List (Except IoError Unit)

namespace Control

def query (control : Control) : Except IoError Timeout × Control :=
  (control.queries.head?.getD (.ok control.timeout),
    { control with queries := control.queries.tail })

/-- A change that fails leaves the timeout in force. -/
def change (control : Control) (timeout : Timeout) : Except IoError Unit × Control :=
  let control' := { control with changes := control.changes.tail }
  match control.changes.head?.getD (.ok ()) with
  | .error error => (.error error, control')
  | .ok () => (.ok (), { control' with timeout := timeout })

def close (control : Control) : Except IoError Unit × Control :=
  (control.closes.head?.getD (.ok ()), { control with closes := control.closes.tail })

end Control

structure Endpoint where
  reads : List ReadEvent
  writes : List WriteEvent
  flushes : List (Except IoError Unit)
  control : Control
  localAddr : Except IoError String
  peerAddr : Except IoError String

namespace Endpoint

def source (endpoint : Endpoint) : Source := ⟨endpoint.reads, #[]⟩

def sink (endpoint : Endpoint) : Sink := ⟨endpoint.writes, endpoint.flushes, #[]⟩

end Endpoint
end Http1
