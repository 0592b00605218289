import Http1.Bytes
import Http1.Error.Io
import Http1.Timeout

/-!
The calls that reach an endpoint, each with the endpoint's answer.
-/

namespace Http1

inductive Call
  | read (offered : Nat) (answer : Except IoError Nat)
  | write (offered : Bytes) (answer : Except IoError Nat)
  | flush (answer : Except IoError Unit)
  | soTimeout (answer : Except IoError Timeout)
  | setSoTimeout (timeout : Timeout) (answer : Except IoError Unit)
  | close (answer : Except IoError Unit)
  | localAddr
  | peerAddr
  | shutdownInput
  | shutdownOutput

namespace Call

/-- The bytes that the endpoint took from a write. -/
def accepted : Call → Bytes
  | write offered (.ok n) => offered.take n
  | _ => []

end Call
end Http1
