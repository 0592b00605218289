/-!
Socket timeouts in whole milliseconds, zero meaning that there is none. A duration is rounded up, so
a tiny one never turns into no timeout at all, and what does not fit 64 bits becomes the largest
timeout.
-/

namespace Http1

/-- A span of time below 2 ^ 64 seconds, to the nanosecond. -/
structure Duration where
  seconds : UInt64
  nanos : Nat
  nanos_lt : nanos < 1000000000
  deriving DecidableEq

namespace Duration

def totalNanos (span : Duration) : Nat := span.seconds.toNat * 1000000000 + span.nanos

/-- The milliseconds that are over. They need not fit 64 bits. -/
def wholeMillis (span : Duration) : Nat := span.seconds.toNat * 1000 + span.nanos / 1000000

def ofMillis (millis : UInt64) : Duration where
  seconds := millis / 1000
  nanos := millis.toNat % 1000 * 1000000
  nanos_lt := by omega

/-- Whole seconds are carried over. -/
def ofParts (seconds : UInt64) (nanos : Nat) : Duration where
  seconds := seconds + UInt64.ofNat (nanos / 1000000000)
  nanos := nanos % 1000000000
  nanos_lt := Nat.mod_lt _ (by decide)

end Duration

structure Timeout where
  millis : UInt64
  deriving DecidableEq, Repr, Inhabited

namespace Timeout

def disabled : Timeout := ⟨0⟩

def isDisabled (timeout : Timeout) : Bool := timeout.millis == 0

def largest : UInt64 := UInt64.ofNat (UInt64.size - 1)

/-- A number in 64 bits, the largest when it does not fit. -/
def narrowed (count : Nat) : UInt64 :=
  if count < UInt64.size then UInt64.ofNat count else largest

/-- One more, if there is any. -/
def raised (millis : UInt64) : UInt64 := if millis = largest then largest else millis + 1

/-- Whole milliseconds, and one more for a part of one. -/
def ofDuration (span : Duration) : Timeout :=
  let whole := narrowed span.wholeMillis
  ⟨if span.nanos % 1000000 = 0 then whole else raised whole⟩

def ofDuration? : Option Duration → Timeout
  | none => disabled
  | some span => ofDuration span

/-- No duration stands for no timeout. -/
def toDuration? (timeout : Timeout) : Option Duration :=
  if timeout.isDisabled then none else some (.ofMillis timeout.millis)

def text (timeout : Timeout) : String :=
  if timeout.isDisabled then "DISABLED" else toString timeout.millis ++ " MILLISECONDS"

end Timeout
end Http1
