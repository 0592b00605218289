import Http1.Error.Io

/-!
The failures of a connection, each named for its cause. Wording is in `message`; `toIo` says what
a failure looks like to a caller that reads or writes plain bytes.

Reading a body can come to more than an error: the fields of a trailer section go into a map made
for all of them at once, and where no map is large enough the program ends. `Failure` has both.
-/

namespace Http1

/-- Why a call on a body gives nothing. After an `overrun` there is no program left that could make
another call. -/
inductive Failure (ε : Type)
  | error (cause : ε)
  | overrun
  deriving DecidableEq, Repr

def Failure.map {ε ε' : Type} (f : ε → ε') : Failure ε → Failure ε'
  | error cause => .error (f cause)
  | overrun => .overrun

/-- A received message that breaks the rules, or a source that failed. -/
inductive ParseError
  | invalidChunk (reason : String)
  | tooLongLine (max : Nat)
  | tooManyTrailers (max : Nat)
  | invalidTrailer (reason : String)
  | truncatedChunk (reason : String)
  | prematureEof (expected received : Nat)
  | tooLargeHeader (current max : Nat)
  | truncatedHead (received : Nat)
  | invalidContentLength (reason : String)
  | unsupportedTransferEncoding (encoding : String)
  | io (error : IoError)
  deriving DecidableEq, Repr

inductive SendError
  | invalidBody (reason : String)
  | io (error : IoError)
  deriving DecidableEq, Repr

inductive ConnectionError
  | notBound
  | closed
  | alreadyBound
  | io (error : IoError)
  deriving DecidableEq, Repr

inductive HttpError
  | connection (error : ConnectionError)
  | parse (error : ParseError)
  | send (error : SendError)
  deriving DecidableEq, Repr

def IoError.describe (error : IoError) : String := "io error: " ++ error.message

namespace ParseError

def message : ParseError → String
  | invalidChunk reason => "invalid chunk: " ++ reason
  | tooLongLine max => "line length exceeds the limit " ++ toString max
  | tooManyTrailers max => "trailer number exceed the limit " ++ toString max
  | invalidTrailer reason => "invalid trailer: " ++ reason
  | truncatedChunk reason => "truncated chunk: " ++ reason
  | prematureEof expected received =>
    "premature end of Content-Length delimited message body (expected: " ++ toString expected
      ++ "; received: " ++ toString received ++ ")"
  | tooLargeHeader current max =>
    "header size too large, current: " ++ toString current ++ " exceed the limit " ++ toString max
  | truncatedHead received => "message head ended after " ++ toString received ++ " bytes"
  | invalidContentLength reason => "invalid content-length header: " ++ reason
  | unsupportedTransferEncoding encoding => "unsupported transfer encoding: " ++ encoding
  | io error => error.describe

/-- The input ended before its framing said it would. -/
def isTruncated : ParseError → Bool
  | truncatedChunk _ | prematureEof _ _ | truncatedHead _ => true
  | _ => false

/-- A failure of the source is passed on as it is. -/
def toIo : ParseError → IoError
  | io error => error
  | error => ⟨if error.isTruncated then .unexpectedEof else .invalidData, error.message⟩

end ParseError

namespace SendError

def message : SendError → String
  | invalidBody reason => "invalid body: " ++ reason
  | io error => error.describe

/-- A failure of the sink is passed on as it is. -/
def toIo : SendError → IoError
  | io error => error
  | error => ⟨.invalidInput, error.message⟩

end SendError

namespace ConnectionError

def message : ConnectionError → String
  | notBound => "connection is not bound"
  | closed => "connection is closed"
  | alreadyBound => "connection is already bound"
  | io error => error.describe

end ConnectionError

namespace HttpError

def message : HttpError → String
  | connection error => "connection error: " ++ error.message
  | parse error => "parse error: " ++ error.message
  | send error => "send error: " ++ error.message

end HttpError
end Http1
