import Http1.Error
import Http1.Headers

/-!
The fields of a trailer section. A section is text in which every line has its CR LF; it ends at an
empty line or at the end of the text. A lone LF ends a line too, so one CR LF line may
hold several fields: `parse` therefore has a bound on their number.

The fields go into a map that is made with room for all of them before the first one is checked.
There is no failing on that way: more fields than any map has room for end the program.
-/

namespace Http1.Trailers

inductive Fault
  | lineEnd
  | name
  | value
  | tooMany
  | field (error : FieldError)
  deriving DecidableEq, Repr

def Fault.text : Fault → String
  | lineEnd => "invalid trailer end LF"
  | name => "invalid header name"
  | value => "invalid header value"
  | tooMany => "too many headers"
  | field error => error.message

def Fault.error (fault : Fault) : ParseError := .invalidTrailer fault.text

/-- What follows a line end at the start of the text, if there is one. -/
def afterLineEnd? : Bytes → Option Bytes
  | [] => none
  | b :: rest =>
    if b = Byte.lf then some rest
    else match rest with
      | [] => none
      | c :: rest => if b = Byte.cr ∧ c = Byte.lf then some rest else none

/-- One line `name ":" blanks value blanks` and what follows it. -/
def parseLine (text : Bytes) : Except Fault ((Bytes × Bytes) × Bytes) :=
  match text.takeWhile Byte.isToken, text.dropWhile Byte.isToken with
  | [], _ => .error .name
  | _, [] => .error .name
  | name, mark :: rest =>
    if mark ≠ Byte.colon then .error .name
    else
      let rest := rest.dropWhile Byte.isBlank
      match afterLineEnd? (rest.dropWhile Byte.isFieldContent) with
      | none => .error .value
      | some after => .ok ((name, Bytes.trimEnd (rest.takeWhile Byte.isFieldContent)), after)

/-- The lines up to the end of the section, at most `room` of them; `done` holds those already read,
the last one first. -/
def parseLines (done : List (Bytes × Bytes)) (room : Nat) (text : Bytes) :
    Except Fault (List (Bytes × Bytes)) :=
  if text.isEmpty ∨ (afterLineEnd? text).isSome then .ok done.reverse
  else match parseLine text with
    | .error fault => .error fault
    | .ok (line, rest) =>
      match room with
      | 0 => .error .tooMany
      | room + 1 => parseLines (line :: done) room rest

/-- The fields of a section, with room for as many as it has CR LF lines. -/
def parse (lines : Nat) (text : Bytes) : Except (Failure Fault) Headers :=
  match parseLines [] lines text with
  | .error fault => .error (.error fault)
  | .ok pairs =>
    if Headers.hasRoom pairs.length then
      (Headers.ofPairs pairs).mapError fun error => .error (.field error)
    else .error .overrun

end Http1.Trailers
