/-!
How the end of a message body is known.
-/

namespace Http1

inductive Framing
  | length (size : Nat)
  | chunked
  | untilClose
  deriving DecidableEq, Repr

namespace Framing

def isChunked (framing : Framing) : Bool := framing == chunked

def isUntilClose (framing : Framing) : Bool := framing == untilClose

/-- The declared length as a signed 64-bit number, -1 when none was declared. -/
def contentLength : Framing → Int
  | length size => min size Int64.maxValue.toInt
  | chunked | untilClose => -1

def name : Framing → String
  | length _ => "LengthDelimited"
  | chunked => "Chunked"
  | untilClose => "Identity"

end Framing
end Http1
