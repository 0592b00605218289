import Http1.Proofs.Offers
import Http1.Proofs.RoundTrip

/-! What a finished body of declared length is worth. The writer passes on the front of the data
that was declared (`send_declared`) and takes its end for granted, so finishing succeeds whether the
data was enough or not. As long as nothing is sent twice, the sink has exactly the declared number
of bytes just when every write succeeded and at least that many were given (`finish_declared`). -/

namespace Http1

namespace Offers

variable {bytes : Bytes} {calls : List Call} {answer : Except IoError Unit}

/-- Offers that fail have had something left to offer. -/
theorem accepted_lt (h : Offers bytes calls answer) (ha : answer ≠ .ok ()) :
    (calls.flatMap Call.accepted).length < bytes.length := by
  induction h with
  | done => exact absurd rfl ha
  | @taken bytes n calls answer hn hle h ih =>
    have hrest := ih ha
    rw [List.length_drop] at hrest
    rw [List.flatMap_cons, Call.accepted, List.length_append, List.length_take]
    omega
  | again hb hk h ih => exact ih ha
  | @failed bytes answer error hb hf =>
    have hlen := List.length_pos_iff.2 hb
    rw [List.flatMap_singleton]
    rcases answer with cause | n | n
    · exact hlen
    · rw [Call.accepted, List.take_zero]
      exact hlen
    · cases hf

end Offers

/-- A write that fails has not taken everything. -/
theorem Sink.writeAll_lt {sink : Sink} {bytes : Bytes} (h : (sink.writeAll bytes).1 ≠ .ok ()) :
    (sink.writeAll bytes).2.accepted.length < sink.accepted.length + bytes.length := by
  obtain ⟨made, hcalls, hoffers⟩ := sink.writeAll_offers bytes
  have hlt := hoffers.accepted_lt h
  simp only [accepted, hcalls, List.flatMap_append, List.length_append]
  omega

namespace Outlet

variable {outlet : Outlet} {attempt : OutletCall} {calls : List OutletCall}

theorem append_nil (outlet : Outlet) : outlet.append [] = outlet := by
  rw [append, List.append_nil]

theorem write_nil (outlet : Outlet) : outlet.write [] = (.ok (), outlet) := by
  rw [write, if_neg (by simp), if_neg (by simp), append_nil]

/-- What waits cannot be sent, or it is sent first. -/
theorem afterFlush_cases (outlet : Outlet) (use : Outlet → Except IoError Unit × Outlet) :
    outlet.Waits (outlet.afterFlush use)
      ∨ ∃ middle : Outlet, middle.pending = [] ∧ middle.stream = outlet.stream
        ∧ outlet.afterFlush use = use middle := by
  unfold afterFlush
  split
  · next error next hflush => exact .inl (flushBuffer_failed hflush)
  · next middle hflush =>
    obtain ⟨hpending, hstream⟩ := flushBuffer_stream hflush
    exact .inr ⟨middle, hpending, hstream, rfl⟩

theorem sendDirect_lt {bytes : Bytes} (hp : outlet.pending = [])
    (h : (outlet.sendDirect bytes).1 ≠ .ok ()) :
    (outlet.sendDirect bytes).2.stream.length < outlet.stream.length + bytes.length := by
  have hlt := Sink.writeAll_lt h
  simpa only [sendDirect, stream, hp, List.append_nil] using hlt

/-- A write that fails without repeating anything has lost some of its bytes. -/
theorem write_lt {bytes : Bytes} (hr : ¬ outlet.Repeats (.write bytes))
    (h : (outlet.write bytes).1 ≠ .ok ()) :
    (outlet.write bytes).2.stream.length < outlet.stream.length + bytes.length := by
  have hne : 0 < bytes.length := by
    rw [List.length_pos_iff]
    rintro rfl
    exact h (by rw [write_nil])
  have hwaits (hw : outlet.Waits (outlet.write bytes)) :
      (outlet.write bytes).2.stream.length < outlet.stream.length + bytes.length := by
    have hcall : outlet.Waits (outlet.call (.write bytes)) := hw
    have hstream : (outlet.write bytes).2.stream = outlet.stream := hcall.stream_eq hr
    rw [hstream]
    omega
  by_cases hlarge : outlet.threshold < bytes.length
  · have hwrite : outlet.write bytes = outlet.afterFlush (sendDirect bytes) := by
      rw [write, if_pos hlarge]
    rcases outlet.afterFlush_cases (sendDirect bytes) with hw | ⟨middle, hp, hs, huse⟩
    · exact hwaits (hwrite ▸ hw)
    · rw [hwrite, huse] at h ⊢
      rw [← hs]
      exact sendDirect_lt hp h
  by_cases hfull : outlet.capacity - outlet.pending.length < bytes.length
  · have hwrite : outlet.write bytes
        = outlet.afterFlush fun middle => (.ok (), middle.append bytes) := by
      rw [write, if_neg hlarge, if_pos hfull]
    rcases outlet.afterFlush_cases fun middle => (.ok (), middle.append bytes) with
      hw | ⟨middle, -, -, huse⟩
    · exact hwaits (hwrite ▸ hw)
    · rw [hwrite, huse] at h
      exact absurd rfl h
  · rw [write, if_neg hlarge, if_neg hfull] at h
    exact absurd rfl h

theorem call_lt (hr : ¬ outlet.Repeats attempt)
    (hd : ¬ Delivering attempt (outlet.call attempt).1) :
    (outlet.call attempt).2.stream.length < outlet.stream.length + attempt.given.length := by
  cases attempt with
  | write bytes => exact write_lt hr fun hok => hd (.inr hok)
  | flushBuffer => exact absurd (.inl rfl) hd
  | flush => exact absurd (.inl rfl) hd

/-- A faithful run sends no more than it was given, and less when a write of it fails. -/
theorem Faithful.run_length (h : outlet.Faithful calls) :
    (outlet.run calls).2.stream.length
        ≤ outlet.stream.length + (calls.flatMap OutletCall.given).length
      ∧ (¬ List.Forall₂ Delivering calls (outlet.run calls).1 →
        (outlet.run calls).2.stream.length
          < outlet.stream.length + (calls.flatMap OutletCall.given).length) := by
  induction calls generalizing outlet with
  | nil => exact ⟨Nat.le_refl _, fun hd => absurd .nil hd⟩
  | cons first others ih =>
    obtain ⟨hle, hlt⟩ := ih h.2
    rw [run_cons, List.flatMap_cons, List.length_append, List.forall₂_cons]
    dsimp only
    by_cases hd : Delivering first (outlet.call first).1
    · have hstream := (exact_of_not_repeats h.1).stream_of_delivering hd
      rw [hstream, List.length_append] at hle hlt
      refine ⟨by omega, fun hrest => ?_⟩
      have := hlt fun hall => hrest ⟨hd, hall⟩
      omega
    · have hfirst := call_lt h.1 hd
      exact ⟨by omega, fun _ => by omega⟩

/-- Over a willing sink nothing fails. -/
theorem call_grown (h : outlet.sink.Willing) (attempt : OutletCall) :
    ∃ next, outlet.call attempt = (.ok (), next) ∧ Grown outlet attempt.given next := by
  cases attempt with
  | write bytes => exact write_grown h bytes
  | flushBuffer =>
    obtain ⟨next, hflush, -, hgrown⟩ := flushBuffer_grown h
    exact ⟨next, hflush, hgrown⟩
  | flush =>
    obtain ⟨next, hflush, -, hgrown⟩ := flush_grown h
    exact ⟨next, hflush, hgrown⟩

theorem run_grown (h : outlet.sink.Willing) (calls : List OutletCall) :
    List.Forall₂ Delivering calls (outlet.run calls).1
      ∧ Grown outlet (calls.flatMap OutletCall.given) (outlet.run calls).2 := by
  induction calls generalizing outlet with
  | nil => exact ⟨.nil, h, (List.append_nil _).symm⟩
  | cons first others ih =>
    obtain ⟨middle, hfirst, hmiddle⟩ := call_grown h first
    obtain ⟨hd, hgrown⟩ := ih hmiddle.willing
    rw [run_cons, hfirst, List.flatMap_cons]
    exact ⟨.cons (.inr rfl) hd, hmiddle.trans hgrown⟩

/-- A last flush is delivering however it ends. -/
theorem run_flush (outlet : Outlet) (calls : List OutletCall) :
    (outlet.run (calls ++ [.flush])).2 = (outlet.run calls).2.flush.2
      ∧ (List.Forall₂ Delivering (calls ++ [.flush]) (outlet.run (calls ++ [.flush])).1
        ↔ List.Forall₂ Delivering calls (outlet.run calls).1) := by
  induction calls generalizing outlet with
  | nil => exact ⟨rfl, iff_of_true (.cons (.inl rfl) .nil) .nil⟩
  | cons first others ih =>
    obtain ⟨hlast, hd⟩ := ih (outlet.call first).2
    rw [List.cons_append, run_cons, run_cons, List.forall₂_cons, List.forall₂_cons]
    exact ⟨hlast, and_congr_right fun _ => hd⟩

end Outlet

/-- The write failed. -/
def WriterReply.Refused : WriterReply → Prop
  | .wrote (.error _) => True
  | .wrote (.ok _) | .flushed _ | .set => False

/-- What calls on a writer come to on its outlet, with room for `left` more bytes of data. -/
def WriterCall.admitted (left : Nat) : List WriterCall → List OutletCall
  | [] => []
  | .write bytes :: calls => .write (bytes.take left) :: admitted (left - bytes.length) calls
  | .flush :: calls => .flush :: admitted left calls
  | .setTrailers _ :: calls => admitted left calls

theorem WriterCall.given_admitted (left : Nat) (calls : List WriterCall) :
    (admitted left calls).flatMap OutletCall.given = (data calls).take left := by
  fun_induction admitted left calls with
  | case1 left => exact List.take_nil.symm
  | case2 left bytes calls ih =>
    rw [List.flatMap_cons, ih]
    exact List.take_append.symm
  | case3 left calls ih => exact ih
  | case4 left trailers calls ih => exact ih

namespace BodyWriter

/-- A writer that has room for `left` more bytes of a declared length. -/
def declared (left : Nat) (outlet : Outlet) : BodyWriter := ⟨.length left, [], 0, outlet⟩

theorem writeFragment_declared (left : Nat) (outlet : Outlet) (bytes : Bytes) :
    (declared left outlet).writeFragment bytes
      = ((outlet.write (bytes.take left)).1.mapError .io,
        declared (left - bytes.length) (outlet.write (bytes.take left)).2) := by
  have hleft : left - min left bytes.length = left - bytes.length := by omega
  simp only [writeFragment, declared, BodyEncoder.beginFragment, BodyEncoder.fitting,
    Outlet.append_nil, hleft, ← List.take_eq_take_min]
  rcases outlet.write (bytes.take left) with ⟨error | u, next⟩
  · rfl
  · simp only [Outlet.write_nil]

theorem write_declared (left : Nat) (outlet : Outlet) (bytes : Bytes) :
    (declared left outlet).write bytes
      = ((outlet.write (bytes.take left)).1.map fun _ => bytes.length,
        declared (left - bytes.length) (outlet.write (bytes.take left)).2) := by
  have htake : (declared left outlet).take bytes = (declared left outlet).writeFragment bytes := rfl
  rw [write, htake, writeFragment_declared]
  rcases (outlet.write (bytes.take left)).1 with error | u <;> rfl

theorem flush_declared (left : Nat) (outlet : Outlet) :
    (declared left outlet).flush = (outlet.flush.1, declared left outlet.flush.2) :=
  rfl

/-- The end of a declared length is not looked at. -/
theorem finish_declared_eq (left : Nat) (outlet : Outlet) :
    (declared left outlet).finish = (outlet.flush.1.mapError .io, outlet.flush.2) := by
  rw [finish, flushCache]
  simp only [declared, List.isEmpty_nil, if_true, BodyEncoder.finish, Outlet.append_nil]

theorem not_refused (bytes : Bytes) (answer : Except IoError Unit) :
    ¬ (WriterReply.wrote (answer.map fun _ => bytes.length)).Refused ↔ answer = .ok () := by
  rcases answer with error | u
  · exact iff_of_false (fun h => h trivial) nofun
  · exact iff_of_true id rfl

theorem delivering_write (outlet : Outlet) (bytes : Bytes) :
    Outlet.Delivering (.write bytes) (outlet.write bytes).1 ↔ (outlet.write bytes).1 = .ok () := by
  refine ⟨fun h => h.elim (fun hnil => ?_) id, .inr⟩
  obtain rfl : bytes = [] := hnil
  rw [Outlet.write_nil]

/-- Calls on such a writer are calls on its outlet, which is given the declared front of the
data. -/
theorem send_declared (left : Nat) (outlet : Outlet) (calls : List WriterCall) :
    ((declared left outlet).send calls).2
        = declared (left - (WriterCall.data calls).length)
          (outlet.run (WriterCall.admitted left calls)).2
      ∧ ((∀ reply ∈ ((declared left outlet).send calls).1, ¬ reply.Refused)
        ↔ List.Forall₂ Outlet.Delivering (WriterCall.admitted left calls)
          (outlet.run (WriterCall.admitted left calls)).1) := by
  induction calls generalizing left outlet with
  | nil => exact ⟨rfl, by simp [send, WriterCall.admitted, Outlet.run]⟩
  | cons first others ih =>
    cases first with
    | write bytes =>
      obtain ⟨hwriter, hreplies⟩ := ih (left - bytes.length) (outlet.write (bytes.take left)).2
      have hlength : (WriterCall.data (.write bytes :: others)).length
          = bytes.length + (WriterCall.data others).length := List.length_append
      rw [send, call, write_declared, WriterCall.admitted, Outlet.run_cons, List.forall₂_cons,
        hlength, Nat.sub_add_eq]
      refine ⟨hwriter, ?_⟩
      rw [List.forall_mem_cons, Outlet.call, delivering_write]
      exact and_congr (not_refused bytes _) hreplies
    | flush =>
      obtain ⟨hwriter, hreplies⟩ := ih left outlet.flush.2
      refine ⟨hwriter, ?_⟩
      rw [send, call, flush_declared, WriterCall.admitted, Outlet.run_cons, List.forall₂_cons,
        List.forall_mem_cons]
      exact and_congr (iff_of_true id (.inl rfl)) hreplies
    | setTrailers trailers =>
      obtain ⟨hwriter, hreplies⟩ := ih left outlet
      refine ⟨hwriter, ?_⟩
      rw [send, List.forall_mem_cons]
      exact (and_iff_right id).trans hreplies

/-- What the calls on a body of declared length and its finish come to on the outlet. -/
def passed (size : Nat) (calls : List WriterCall) : List OutletCall :=
  WriterCall.admitted size calls ++ [.flush]

theorem given_passed (size : Nat) (calls : List WriterCall) :
    (passed size calls).flatMap OutletCall.given = (WriterCall.data calls).take size := by
  rw [passed, List.flatMap_append, WriterCall.given_admitted]
  exact List.append_nil _

/-- A finish that succeeds leaves nothing waiting, so the sink has the stream of all calls. -/
theorem finish_passed {size : Nat} {outlet next : Outlet} {calls : List WriterCall}
    (h : ((declared size outlet).send calls).2.finish = (.ok (), next)) :
    next.pending = [] ∧ next.sink.accepted = (outlet.run (passed size calls)).2.stream := by
  rw [(send_declared size outlet calls).1, finish_declared_eq] at h
  obtain ⟨hanswer, hnext⟩ := Prod.mk.inj h
  have hflush : (outlet.run (WriterCall.admitted size calls)).2.flush = (.ok (), next) := by
    refine Prod.ext ?_ hnext
    generalize (outlet.run (WriterCall.admitted size calls)).2.flush.1 = answer at hanswer
    cases answer with
    | error error => cases hanswer
    | ok u => rfl
  obtain ⟨hpending, -⟩ := Outlet.flush_stream hflush
  refine ⟨hpending, ?_⟩
  rw [passed, (outlet.run_flush _).1, hnext, Outlet.stream, hpending, List.append_nil]

/-- A finish of a body of declared length, in three cases. When nothing was sent twice, the sink has
the declared number of bytes exactly if every write succeeded and the data was enough. When every
write succeeded, it has the declared front of the data exactly if nothing was sent twice. Over a
willing sink all of that is so, and finishing succeeds even when the data was too short. -/
theorem finish_declared (size chunkSize : Nat) (outlet : Outlet) (calls : List WriterCall) :
    (∀ next, ((start (.length size) chunkSize outlet).send calls).2.finish = (.ok (), next) →
      next.pending = []
      ∧ (outlet.Faithful (passed size calls) →
        (next.sink.accepted.length = outlet.stream.length + size
          ↔ (∀ reply ∈ ((start (.length size) chunkSize outlet).send calls).1, ¬ reply.Refused)
            ∧ size ≤ (WriterCall.data calls).length))
      ∧ ((∀ reply ∈ ((start (.length size) chunkSize outlet).send calls).1, ¬ reply.Refused) →
        (next.sink.accepted = outlet.stream ++ (WriterCall.data calls).take size
          ↔ outlet.Faithful (passed size calls))))
    ∧ (outlet.sink.Willing →
      (∀ reply ∈ ((start (.length size) chunkSize outlet).send calls).1, ¬ reply.Refused)
      ∧ ∃ next, ((start (.length size) chunkSize outlet).send calls).2.finish = (.ok (), next)
        ∧ next.sink.accepted = outlet.stream ++ (WriterCall.data calls).take size) := by
  have hstart : start (.length size) chunkSize outlet = declared size outlet := rfl
  have hsent : (∀ reply ∈ ((declared size outlet).send calls).1, ¬ reply.Refused)
      ↔ List.Forall₂ Outlet.Delivering (passed size calls)
        (outlet.run (passed size calls)).1 :=
    (send_declared size outlet calls).2.trans (outlet.run_flush _).2.symm
  rw [hstart, hsent]
  refine ⟨fun next h => ?_, fun hs => ?_⟩
  · obtain ⟨hpending, haccepted⟩ := finish_passed h
    have hlength : ((WriterCall.data calls).take size).length
        = min size (WriterCall.data calls).length := List.length_take
    rw [← given_passed] at hlength
    rw [haccepted, ← given_passed]
    refine ⟨hpending, fun hf => ?_, fun hd => ?_⟩
    · by_cases hd : List.Forall₂ Outlet.Delivering (passed size calls)
          (outlet.run (passed size calls)).1
      · obtain ⟨-, hstream⟩ := (Outlet.run_stream hd).resolve_right fun hn => hn.1 hf
        rw [hstream, List.length_append, hlength, and_iff_right hd]
        omega
      · have hlt := hf.run_length.2 hd
        exact iff_of_false (by omega) fun hn => hd hn.1
    · rcases Outlet.run_stream hd with ⟨hf, hstream⟩ | ⟨hf, hmore⟩
      · exact iff_of_true hstream hf
      · refine iff_of_false (fun hstream => ?_) hf
        rw [hstream, List.length_append] at hmore
        omega
  · obtain ⟨hd, hgrown⟩ := Outlet.run_grown hs (passed size calls)
    obtain ⟨-, hwilling⟩ := Outlet.run_grown hs (WriterCall.admitted size calls)
    obtain ⟨next, hflush, -, -⟩ := Outlet.flush_grown hwilling.willing
    have hfinish : ((declared size outlet).send calls).2.finish = (.ok (), next) := by
      rw [(send_declared size outlet calls).1, finish_declared_eq, hflush]
      rfl
    refine ⟨hd, next, hfinish, ?_⟩
    rw [(finish_passed hfinish).2, hgrown.stream, given_passed]

/-! Two bytes for a declared length of five, and four for one of three with a flush that fails when
nothing waits any more. -/

namespace Declared

def broken : IoError := ⟨.brokenPipe, ""⟩

def outlet (flushes : List (Except IoError Unit)) : Outlet := .start 64 32 ⟨[], flushes, #[]⟩

def calls : List WriterCall := [.write [97, 98], .flush, .write [99, 100]]

theorem finish_short :
    ((start (.length 5) 16 (outlet [])).send [.write [97, 98]]).1 = [.wrote (.ok 2)]
      ∧ ((start (.length 5) 16 (outlet [])).send [.write [97, 98]]).2.finish.1 = .ok ()
      ∧ ((start (.length 5) 16 (outlet [])).send [.write [97, 98]]).2.finish.2.sink.accepted
        = [97, 98]
      ∧ ¬ ((start (.length 5) 16 (outlet [])).send
        [.write [97, 98]]).2.finish.2.sink.accepted.length = 5 := by
  have haccepted : ((start (.length 5) 16 (outlet [])).send
      [.write [97, 98]]).2.finish.2.sink.accepted = [97, 98] := by cbv
  exact ⟨by cbv, by cbv, haccepted, by rw [haccepted]; decide⟩

theorem faithful_passed : (outlet [.error broken]).Faithful (passed 3 calls) := by
  refine ⟨fun h => h.1 ?_, fun h => h.2.1 ?_, fun h => h.1 ?_, fun h => h.1 ?_, trivial⟩
  all_goals cbv

theorem finish_declared_cut :
    ((start (.length 3) 16 (outlet [.error broken])).send calls).1
        = [.wrote (.ok 2), .flushed (.error broken), .wrote (.ok 2)]
      ∧ ∃ next, ((start (.length 3) 16 (outlet [.error broken])).send calls).2.finish
          = (.ok (), next)
        ∧ next.pending = [] ∧ next.sink.accepted = [97, 98, 99] := by
  have hreplies : ((start (.length 3) 16 (outlet [.error broken])).send calls).1
      = [.wrote (.ok 2), .flushed (.error broken), .wrote (.ok 2)] := by cbv
  have hfinish : ((start (.length 3) 16 (outlet [.error broken])).send calls).2.finish.1
      = .ok () := by cbv
  have hwrote : ∀ reply ∈ ((start (.length 3) 16 (outlet [.error broken])).send calls).1,
      ¬ reply.Refused := by
    simp [hreplies, WriterReply.Refused]
  obtain ⟨hpending, -, hexact⟩ :=
    (finish_declared 3 16 (outlet [.error broken]) calls).1 _ (Prod.ext hfinish rfl)
  exact ⟨hreplies, _, Prod.ext hfinish rfl, hpending, (hexact hwrote).2 faithful_passed⟩

end Declared
end BodyWriter
end Http1
