import Http1.Bytes

/-!
Header fields. A name is a lower-case token and a value holds no control byte but tab; both are
checked when they are made. `Headers` keeps every field in the order of its append, and `grouped`
is the order in which they are listed: names by first appearance, the values of one name together.
-/

namespace Http1

inductive FieldError
  | name
  | value
  deriving DecidableEq, Repr

def FieldError.message : FieldError → String
  | name => "invalid HTTP header name"
  | value => "failed to parse header value"

/-- A token of at most 65535 bytes, in lower case. -/
structure FieldName where
  bytes : Bytes
  valid : bytes ≠ [] ∧ bytes.length ≤ 65535
    ∧ bytes.all (fun b => Byte.isToken b && !Byte.isUpper b) = true
  deriving DecidableEq

structure FieldValue where
  bytes : Bytes
  valid : bytes.all Byte.isFieldContent = true
  deriving DecidableEq

namespace FieldName

/-- Names differ from other names regardless of case, so they are kept in lower case. -/
def ofBytes? (bs : Bytes) : Option FieldName :=
  if h : _ then some ⟨bs.toLower, h⟩ else none

def transferEncoding : FieldName := ⟨Bytes.ofAscii "transfer-encoding", by decide +kernel⟩
def contentLength : FieldName := ⟨Bytes.ofAscii "content-length", by decide +kernel⟩
def contentType : FieldName := ⟨Bytes.ofAscii "content-type", by decide +kernel⟩
def contentEncoding : FieldName := ⟨Bytes.ofAscii "content-encoding", by decide +kernel⟩

end FieldName

namespace FieldValue

def ofBytes? (bs : Bytes) : Option FieldValue :=
  if h : _ then some ⟨bs, h⟩ else none

/-- The value as text, if it is ASCII. -/
def text? (value : FieldValue) : Option String :=
  if value.bytes.all Byte.isText then some value.bytes.toLatin1 else none

end FieldValue

structure Field where
  name : FieldName
  value : FieldValue
  deriving DecidableEq

/-- The name is checked before the value. -/
def Field.ofBytes (name value : Bytes) : Except FieldError Field :=
  match FieldName.ofBytes? name with
  | none => .error .name
  | some name =>
    match FieldValue.ofBytes? value with
    | none => .error .value
    | some value => .ok ⟨name, value⟩

structure Headers where
  fields : List Field
  deriving DecidableEq

namespace Headers

def empty : Headers := ⟨[]⟩

def append (headers : Headers) (field : Field) : Headers := ⟨headers.fields ++ [field]⟩

/-- All fields in order, or the error of the first that is no field. -/
def ofPairs (pairs : List (Bytes × Bytes)) : Except FieldError Headers :=
  (pairs.mapM fun (name, value) => Field.ofBytes name value).map Headers.mk

/-- Whether there is a map with room for `n` names. A map keeps a quarter of its slots free, and
their number is a power of two, 32768 at most. -/
def hasRoom (n : Nat) : Bool := n + n / 3 ≤ 32768

theorem hasRoom_iff (n : Nat) : hasRoom n ↔ n ≤ 24576 := by
  simp only [hasRoom, decide_eq_true_eq]
  omega

/-- The number of values. -/
def size (headers : Headers) : Nat := headers.fields.length

def getAll (headers : Headers) (name : FieldName) : List FieldValue :=
  (headers.fields.filter (·.name = name)).map (·.value)

def get? (headers : Headers) (name : FieldName) : Option FieldValue := (headers.getAll name).head?

/-- The first value under a name, if it is ASCII. -/
def text? (headers : Headers) (name : FieldName) : Option String :=
  (headers.get? name).bind FieldValue.text?

/-- The names in order of first appearance. -/
def names (headers : Headers) : List FieldName := (headers.fields.map (·.name)).eraseDups

def grouped (headers : Headers) : List Field :=
  headers.names.flatMap fun name => (headers.getAll name).map (Field.mk name)

end Headers
end Http1
