import Http1.Error
import Http1.Framing
import Http1.Headers
import Http1.Text.Utf8

/-!
The framing that the header fields of a message ask for. Transfer-Encoding goes before
Content-Length, and only its last coding counts; Content-Length values must all be the same number.
-/

namespace Http1.Framing

/-- The last of the codings in a comma-separated list. -/
def lastCoding (value : Bytes) : Bytes :=
  Bytes.trim (value.reverse.takeWhile (· ≠ Byte.comma)).reverse

def endsChunked (value : FieldValue) : Bool :=
  (lastCoding value.bytes).toLower == Bytes.ofAscii "chunked"

/-- A number of decimal digits that fits 64 bits. -/
def parseLength (value : FieldValue) : Except ParseError Nat :=
  let digits := Bytes.trim value.bytes
  if !value.bytes.all Byte.isText then .error (.invalidContentLength "value can't to_str")
  else if digits.isEmpty || !digits.all Byte.isDigit then
    .error (.invalidContentLength
      ("value " ++ Bytes.toLatin1 digits ++ " is not a non-negative integer"))
  else if Bytes.decimal digits < UInt64.size then .ok (Bytes.decimal digits)
  else .error (.invalidContentLength ("value " ++ Bytes.toLatin1 digits ++ " is not u64"))

/-- The number that all values agree on, each checked against the one before it. -/
def agreedLength (known : Option Nat) : List FieldValue → Except ParseError (Option Nat)
  | [] => .ok known
  | value :: rest =>
    match parseLength value, known with
    | .error error, _ => .error error
    | .ok size, none => agreedLength (some size) rest
    | .ok size, some before =>
      if before = size then agreedLength (some size) rest
      else .error (.invalidContentLength
        ("multiple content-length values " ++ toString before ++ " and " ++ toString size))

def ofHeaders (headers : Headers) : Except ParseError Framing :=
  match (headers.getAll .transferEncoding).getLast? with
  | some coding =>
    if endsChunked coding then .ok .chunked
    else .error (.unsupportedTransferEncoding (Utf8.lossy coding.bytes))
  | none =>
    match agreedLength none (headers.getAll .contentLength) with
    | .error error => .error error
    | .ok none => .ok .untilClose
    | .ok (some size) => .ok (.length size)

end Http1.Framing
