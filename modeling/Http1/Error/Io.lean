/-!
Failures of the endpoint: a kind, which decides how the failure is treated, and a message.
-/

namespace Http1

inductive IoErrorKind
  | notFound
  | permissionDenied
  | connectionRefused
  | connectionReset
  | hostUnreachable
  | networkUnreachable
  | connectionAborted
  | notConnected
  | addrInUse
  | addrNotAvailable
  | networkDown
  | brokenPipe
  | alreadyExists
  | wouldBlock
  | invalidInput
  | invalidData
  | timedOut
  | writeZero
  | storageFull
  | quotaExceeded
  | resourceBusy
  | deadlock
  | interrupted
  | unsupported
  | unexpectedEof
  | outOfMemory
  | other
  deriving DecidableEq, Repr, Inhabited

namespace IoErrorKind

def name : IoErrorKind → String
  | notFound => "NotFound"
  | permissionDenied => "PermissionDenied"
  | connectionRefused => "ConnectionRefused"
  | connectionReset => "ConnectionReset"
  | hostUnreachable => "HostUnreachable"
  | networkUnreachable => "NetworkUnreachable"
  | connectionAborted => "ConnectionAborted"
  | notConnected => "NotConnected"
  | addrInUse => "AddrInUse"
  | addrNotAvailable => "AddrNotAvailable"
  | networkDown => "NetworkDown"
  | brokenPipe => "BrokenPipe"
  | alreadyExists => "AlreadyExists"
  | wouldBlock => "WouldBlock"
  | invalidInput => "InvalidInput"
  | invalidData => "InvalidData"
  | timedOut => "TimedOut"
  | writeZero => "WriteZero"
  | storageFull => "StorageFull"
  | quotaExceeded => "QuotaExceeded"
  | resourceBusy => "ResourceBusy"
  | deadlock => "Deadlock"
  | interrupted => "Interrupted"
  | unsupported => "Unsupported"
  | unexpectedEof => "UnexpectedEof"
  | outOfMemory => "OutOfMemory"
  | other => "Other"

def all : List IoErrorKind :=
  [notFound, permissionDenied, connectionRefused, connectionReset, hostUnreachable,
    networkUnreachable, connectionAborted, notConnected, addrInUse, addrNotAvailable, networkDown,
    brokenPipe, alreadyExists, wouldBlock, invalidInput, invalidData, timedOut, writeZero,
    storageFull, quotaExceeded, resourceBusy, deadlock, interrupted, unsupported, unexpectedEof,
    outOfMemory, other]

def ofName? (text : String) : Option IoErrorKind := all.find? fun kind => kind.name == text

/-- A read that ran into its timeout: platforms report it as either of two kinds. -/
def isTimeout (kind : IoErrorKind) : Bool := kind == wouldBlock || kind == timedOut

end IoErrorKind

structure IoError where
  kind : IoErrorKind
  message : String
  deriving DecidableEq, Repr, Inhabited

namespace IoError

/-- The sink took no byte of a write that has bytes left. -/
def writeZero : IoError := ⟨.writeZero, "failed to write whole buffer"⟩

end IoError
end Http1
