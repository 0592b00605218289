import Http1.Inlet

/-!
Searching for the end of a message head while it comes in. An empty line that was not there before
a read begins at most three bytes in front of the bytes of that read, so the search goes on from
there and looks at no other byte again.
-/

namespace Http1.Inlet

/-- The end of the first empty line that begins behind the first `searched` bytes. -/
def headEndSince? (searched : Nat) (text : Bytes) : Option Nat :=
  headEndFrom searched (text.drop searched)

/-- Takes a message head like `readHead`, when no empty line begins in the first `searched` bytes of
what is buffered. -/
def searchHead (searched max : Nat) (inlet : Inlet) : Except ParseError (Option Bytes) × Inlet :=
  match headEndSince? searched inlet.buffered with
  | some size =>
    if size ≤ max then (.ok (some (inlet.take size).1), (inlet.take size).2)
    else (.error (.tooLargeHeader size max), inlet)
  | none =>
    if inlet.buffered.length ≤ max then
      match _h : inlet.fill with
      | (.error error, next) => (.error (.io error), next)
      | (.ok 0, next) =>
        (if next.buffered.isEmpty then .ok none
          else .error (.truncatedHead next.buffered.length), next)
      | (.ok (_ + 1), next) => searchHead (inlet.buffered.length - 3) max next
    else (.error (.tooLargeHeader inlet.buffered.length max), inlet)
termination_by max + 1 - inlet.buffered.length
decreasing_by
  have := fill_length _h
  omega

end Http1.Inlet
