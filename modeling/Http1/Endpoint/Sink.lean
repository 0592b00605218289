import Http1.Endpoint.Call

/-!
The writing half of an endpoint. The script says how many bytes each write takes, or how it fails;
past the end of the script everything is taken.
-/

namespace Http1

inductive WriteEvent
  | accept (n : Nat)
  | fail (error : IoError)

structure Sink where
  writes : List WriteEvent
  flushes : List (Except IoError Unit)
  calls : Array Call

namespace Sink

/-- What is left of the script after a write of all of `bytes`, and the calls made. An interrupted
write is made again; one that takes nothing fails. -/
def pushTo (bytes : Bytes) (calls : Array Call) :
    List WriteEvent → Except IoError Unit × List WriteEvent × Array Call
  | [] => if bytes.isEmpty then (.ok (), [], calls)
    else (.ok (), [], calls.push (.write bytes (.ok bytes.length)))
  | event :: rest =>
    if bytes.isEmpty then (.ok (), event :: rest, calls)
    else match event with
      | .accept n =>
        let taken := min n bytes.length
        let calls := calls.push (.write bytes (.ok taken))
        if taken = 0 then (.error .writeZero, rest, calls)
        else pushTo (bytes.drop taken) calls rest
      | .fail error =>
        let calls := calls.push (.write bytes (.error error))
        if error.kind = .interrupted then pushTo bytes calls rest else (.error error, rest, calls)

/-- Writes all of `bytes`, with no call when there are none. -/
def writeAll (sink : Sink) (bytes : Bytes) : Except IoError Unit × Sink :=
  let (answer, writes, calls) := pushTo bytes sink.calls sink.writes
  (answer, { sink with writes, calls })

def flush (sink : Sink) : Except IoError Unit × Sink :=
  let answer := sink.flushes.head?.getD (.ok ())
  (answer, { sink with flushes := sink.flushes.tail, calls := sink.calls.push (.flush answer) })

/-- The bytes that the endpoint has taken, in order. -/
def accepted (sink : Sink) : Bytes := sink.calls.toList.flatMap Call.accepted

theorem pushTo_accepted (bytes : Bytes) (calls : Array Call) (events : List WriteEvent) :
    ∃ taken, taken <+: bytes
      ∧ (pushTo bytes calls events).2.2.toList.flatMap Call.accepted
        = calls.toList.flatMap Call.accepted ++ taken
      ∧ ((pushTo bytes calls events).1 = .ok () → taken = bytes) := by
  induction events generalizing bytes calls with
  | nil =>
    refine ⟨bytes, List.prefix_refl _, ?_, fun _ => rfl⟩
    by_cases hb : bytes = [] <;> simp [pushTo, hb, Call.accepted]
  | cons event rest ih =>
    by_cases hb : bytes = []
    · exact ⟨[], List.nil_prefix, by simp [pushTo, hb], fun _ => hb.symm⟩
    cases event with
    | accept n =>
      by_cases hn : min n bytes.length = 0
      · exact ⟨[], List.nil_prefix, by simp_all [pushTo, Call.accepted],
          by simp [pushTo, hb, hn]⟩
      · obtain ⟨taken, hp, ha, hk⟩ := ih (bytes.drop (min n bytes.length))
          (calls.push (.write bytes (.ok (min n bytes.length))))
        refine ⟨bytes.take (min n bytes.length) ++ taken, ?_, ?_, fun h => ?_⟩
        · obtain ⟨more, hm⟩ := hp
          exact ⟨more, by rw [List.append_assoc, hm, List.take_append_drop]⟩
        · simp only [pushTo, List.isEmpty_iff, hb, hn, if_false]
          rw [ha]
          simp [Call.accepted]
        · simp only [pushTo, List.isEmpty_iff, hb, hn, if_false] at h
          rw [hk h, List.take_append_drop]
    | fail error =>
      by_cases hk : error.kind = .interrupted
      · obtain ⟨taken, hp, ha, hd⟩ := ih bytes (calls.push (.write bytes (.error error)))
        refine ⟨taken, hp, ?_, fun h => hd ?_⟩
        · simp only [pushTo, List.isEmpty_iff, hb, hk, if_true, if_false]
          rw [ha]
          simp [Call.accepted]
        · simpa only [pushTo, List.isEmpty_iff, hb, hk, if_true, if_false] using h
      · exact ⟨[], List.nil_prefix, by simp [pushTo, hb, hk, Call.accepted],
          by simp [pushTo, hb, hk]⟩

/-- A write takes bytes from the front only, and all of them when it succeeds. -/
theorem writeAll_accepted (sink : Sink) (bytes : Bytes) :
    ∃ taken, taken <+: bytes ∧ (sink.writeAll bytes).2.accepted = sink.accepted ++ taken
      ∧ ((sink.writeAll bytes).1 = .ok () → taken = bytes) :=
  pushTo_accepted bytes sink.calls sink.writes

theorem flush_accepted (sink : Sink) : sink.flush.2.accepted = sink.accepted := by
  simp [flush, accepted, Call.accepted]

end Sink
end Http1
