import Http1.Endpoint.Sink

/-!
The writing side of a connection: bytes that wait to be sent, and the sink that takes them. Small
writes are collected; one above the threshold goes to the sink at once, after what waits.
-/

namespace Http1

structure OutputBuffer where
  pending : Bytes
  capacity : Nat
  threshold : Nat

namespace OutputBuffer

/-- No fragment larger than the capacity is collected. -/
def start (capacity hint : Nat) : OutputBuffer := ⟨[], capacity, min hint capacity⟩

/-- Drops what waits. -/
def clear (buffer : OutputBuffer) : OutputBuffer := { buffer with pending := [] }

end OutputBuffer

/-- A buffer with the sink that takes what waits in it. -/
structure Outlet extends OutputBuffer where
  sink : Sink

namespace Outlet

def start (capacity hint : Nat) (sink : Sink) : Outlet := ⟨.start capacity hint, sink⟩

/-- Puts bytes behind what waits, whatever the capacity. -/
def append (outlet : Outlet) (bytes : Bytes) : Outlet :=
  { outlet with pending := outlet.pending ++ bytes }

/-- Sends what waits, with no call when nothing does. It waits on when that fails. -/
def flushBuffer (outlet : Outlet) : Except IoError Unit × Outlet :=
  let (answer, sink) := outlet.sink.writeAll outlet.pending
  match answer with
  | .error error => (.error error, { outlet with sink })
  | .ok () => (.ok (), { outlet with pending := [], sink })

/-- Runs `next` after sending what waits, unless that fails. -/
def afterFlush (outlet : Outlet) (next : Outlet → Except IoError Unit × Outlet) :
    Except IoError Unit × Outlet :=
  match outlet.flushBuffer with
  | (.error error, outlet) => (.error error, outlet)
  | (.ok (), outlet) => next outlet

def sendDirect (bytes : Bytes) (outlet : Outlet) : Except IoError Unit × Outlet :=
  let (answer, sink) := outlet.sink.writeAll bytes
  (answer, { outlet with sink })

def write (outlet : Outlet) (bytes : Bytes) : Except IoError Unit × Outlet :=
  if outlet.threshold < bytes.length then outlet.afterFlush (sendDirect bytes)
  else if outlet.capacity - outlet.pending.length < bytes.length then
    outlet.afterFlush fun outlet => (.ok (), outlet.append bytes)
  else (.ok (), outlet.append bytes)

/-- Sends what waits, then flushes the sink. -/
def flush (outlet : Outlet) : Except IoError Unit × Outlet :=
  outlet.afterFlush fun outlet =>
    let (answer, sink) := outlet.sink.flush
    (answer, { outlet with sink })

/-- The bytes that were taken and those that wait, in order. -/
def stream (outlet : Outlet) : Bytes := outlet.sink.accepted ++ outlet.pending

theorem append_stream (outlet : Outlet) (bytes : Bytes) :
    (outlet.append bytes).stream = outlet.stream ++ bytes :=
  (List.append_assoc _ _ _).symm

/-- What was sent has left the buffer; only a failure can leave bytes in both places. -/
theorem flushBuffer_stream {outlet next : Outlet} (h : outlet.flushBuffer = (.ok (), next)) :
    next.pending = [] ∧ next.stream = outlet.stream := by
  obtain ⟨taken, -, ha, hk⟩ := outlet.sink.writeAll_accepted outlet.pending
  unfold flushBuffer at h
  cases hr : outlet.sink.writeAll outlet.pending with
  | mk answer sink =>
    rw [hr] at h ha hk
    cases answer with
    | error error => cases h
    | ok u =>
      cases h
      exact ⟨rfl, by rw [stream, stream, ha, hk rfl, List.append_nil]⟩

end Outlet
end Http1
