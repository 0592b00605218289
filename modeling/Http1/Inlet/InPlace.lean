import Http1.Inlet

/-!
Filling an inlet in place. Zeros behind the buffered bytes make room for a read, the source writes
over the front of them, and what it has not written over is cut off again, however the read ends.
-/

namespace Http1

namespace Source

/-- One read into a room, with what stands in the room afterwards. An interruption is passed on. -/
def readInto (source : Source) (room : Bytes) : Except IoError Nat × Bytes × Source :=
  match source.script with
  | [] => (.ok 0, room, ⟨[], source.calls.push (.read room.length (.ok 0))⟩)
  | .data bytes :: rest =>
    let taken := bytes.take room.length
    let left := bytes.drop room.length
    (.ok taken.length, taken ++ room.drop taken.length,
      ⟨if left.isEmpty then rest else .data left :: rest,
        source.calls.push (.read room.length (.ok taken.length))⟩)
  | .fail error :: rest =>
    (.error error, room, ⟨rest, source.calls.push (.read room.length (.error error))⟩)

theorem readInto_script {source next : Source} {room left : Bytes} {error : IoError}
    (h : source.readInto room = (.error error, left, next)) :
    next.script.length < source.script.length := by
  unfold readInto at h
  split at h
  · cases h
  · cases h
  · next hs =>
    cases h
    rw [hs]
    exact Nat.lt_succ_self _

end Source

namespace Inlet

/-- Reads into what stands behind the first `start` bytes of `text`, again after an interruption,
and keeps nothing behind what was read. -/
def fillBehind (start : Nat) (text : Bytes) (source : Source) :
    Except IoError Nat × Bytes × Source :=
  match _h : source.readInto (text.drop start) with
  | (.ok n, room, next) => (.ok n, (text.take start ++ room).take (start + n), next)
  | (.error error, room, next) =>
    if error.kind = .interrupted then fillBehind start (text.take start ++ room) next
    else (.error error, (text.take start ++ room).take start, next)
termination_by source.script.length
decreasing_by exact Source.readInto_script _h

def fillInPlace (inlet : Inlet) : Except IoError Nat × Inlet :=
  let text := inlet.buffered ++ List.replicate inlet.readSize 0
  let (answer, buffered, source) := fillBehind inlet.buffered.length text inlet.source
  (answer, { inlet with buffered, longest := max inlet.longest text.length, source })

end Inlet
end Http1
