import Http1.Endpoint.Call

/-!
The reading half of an endpoint. What the peer sends is a script of pieces and failures; a piece
that is larger than a read stays at the front of the script for the next one, and past the end of
the script the stream has ended.
-/

namespace Http1

inductive ReadEvent
  | data (bytes : Bytes)
  | fail (error : IoError)

def ReadEvent.bytes : ReadEvent → Bytes
  | .data bytes => bytes
  | .fail _ => []

structure Source where
  script : List ReadEvent
  calls : Array Call

namespace Source

/-- A read of at most `offered` bytes, none of them at the end of the stream. It is made again when
it was interrupted. -/
def readFrom (offered : Nat) (calls : Array Call) : List ReadEvent → Except IoError Bytes × Source
  | [] => (.ok [], ⟨[], calls.push (.read offered (.ok 0))⟩)
  | .data bytes :: rest =>
    let taken := bytes.take offered
    let left := bytes.drop offered
    (.ok taken, ⟨if left.isEmpty then rest else .data left :: rest,
      calls.push (.read offered (.ok taken.length))⟩)
  | .fail error :: rest =>
    let calls := calls.push (.read offered (.error error))
    if error.kind = .interrupted then readFrom offered calls rest
    else (.error error, ⟨rest, calls⟩)

def read (source : Source) (offered : Nat) : Except IoError Bytes × Source :=
  readFrom offered source.calls source.script

/-- The bytes that a read has given. -/
def given : Except IoError Bytes → Bytes
  | .ok bytes => bytes
  | .error _ => []

/-- The bytes that no read has given yet, in order. -/
def undelivered (source : Source) : Bytes := source.script.flatMap ReadEvent.bytes

/-- No byte is lost and none is made up, whatever the read comes to. -/
theorem given_readFrom (offered : Nat) (calls : Array Call) (script : List ReadEvent) :
    given (readFrom offered calls script).1 ++ (readFrom offered calls script).2.undelivered
      = script.flatMap ReadEvent.bytes := by
  fun_induction readFrom offered calls script with
  | case1 calls => rfl
  | case2 calls bytes rest taken left =>
    have h : taken ++ left = bytes := List.take_append_drop offered bytes
    by_cases hl : left = [] <;>
      simp_all [given, undelivered, ReadEvent.bytes, ← List.append_assoc]
  | case3 calls error rest calls' hk ih => simpa [ReadEvent.bytes] using ih
  | case4 calls error rest calls' hk => simp [given, undelivered, ReadEvent.bytes]

theorem given_read (source : Source) (offered : Nat) :
    given (source.read offered).1 ++ (source.read offered).2.undelivered = source.undelivered :=
  given_readFrom offered source.calls source.script

end Source
end Http1
