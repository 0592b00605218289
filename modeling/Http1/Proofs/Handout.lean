import Http1.Proofs.NeededReads
import Http1.Proofs.Retrying

/-! How a body is asked for does not matter: by pieces or by reads of any sizes, the same bytes come
out of it up to the same end (`run_handout`). What a reader has yet to hand out is its `course`;
every call that gives bytes takes them off the front of it (`call_passes`), whether they were
decoded for this call or parked by one before. -/

namespace Http1

/-- What the call that comes to the end is told: that the body has ended, or the failure that cuts
it short, in the words of that call. -/
def BodyCall.verdict (bodyCall : BodyCall) : Option (Failure ParseError) → Reply
  | none => .ended
  | some failure => bodyCall.failure failure

theorem BodyCall.failure_isFailure {bodyCall : BodyCall} (hw : bodyCall.Wants)
    (failure : Failure ParseError) : (bodyCall.failure failure).IsFailure := by
  cases bodyCall with
  | nextChunk => trivial
  | read size => rw [BodyCall.failure, if_neg (Nat.ne_of_gt hw)]; trivial
  | skip => trivial

/-- Only the end is told without failing. -/
theorem BodyCall.verdict_eq {bodyCall : BodyCall} (hw : bodyCall.Wants)
    {verdict : Option (Failure ParseError)} (h : ¬ (bodyCall.verdict verdict).IsFailure) :
    verdict = none ∧ bodyCall.verdict verdict = .ended := by
  cases verdict with
  | none => exact ⟨rfl, rfl⟩
  | some failure => exact absurd (failure_isFailure hw failure) h

theorem BodyCall.verdict_ne_data {bodyCall : BodyCall} (hw : bodyCall.Wants)
    (verdict : Option (Failure ParseError)) (bytes : Bytes) :
    bodyCall.verdict verdict ≠ .data bytes := by
  intro h
  have hended := (verdict_eq hw (by rw [h]; exact id)).2
  rw [h] at hended
  cases hended

def Reply.bytes : Reply → Bytes
  | .data bytes => bytes
  | _ => []

/-- The bytes that calls were given, one after the other. -/
def Reply.handed (replies : List Reply) : Bytes := replies.flatMap Reply.bytes

/-- Replies that hand out a body one by one, the last of them with its end or its failure. -/
inductive Answers (verdict : Option (Failure ParseError)) :
    List BodyCall → List Reply → Bytes → Prop
  | last {bodyCall : BodyCall} (hw : bodyCall.Wants) :
    Answers verdict [bodyCall] [bodyCall.verdict verdict] []
  | data {bodyCall : BodyCall} {calls : List BodyCall} {replies : List Reply} {bytes body : Bytes}
      (rest : Answers verdict calls replies body) :
    Answers verdict (bodyCall :: calls) (.data bytes :: replies) (bytes ++ body)

theorem Answers.handed {verdict : Option (Failure ParseError)} {calls : List BodyCall}
    {replies : List Reply} {body : Bytes} (h : Answers verdict calls replies body) :
    Reply.handed replies = body := by
  induction h with
  | @last bodyCall hw =>
    cases hv : bodyCall.verdict verdict with
    | data bytes => exact absurd hv (bodyCall.verdict_ne_data hw verdict bytes)
    | _ => rfl
  | data rest ih => exact congrArg (_ ++ ·) ih

namespace BodyReader

/-- Calls up to the end of the body or the first failure: all of them but the last are given
bytes. -/
inductive Exhausts : BodyReader → List BodyCall → Prop
  | last {reader : BodyReader} {bodyCall : BodyCall}
      (h : ∀ bytes, (reader.call bodyCall).1 ≠ .data bytes) : Exhausts reader [bodyCall]
  | more {reader next : BodyReader} {bodyCall : BodyCall} {calls : List BodyCall} {bytes : Bytes}
      (h : reader.call bodyCall = (.data bytes, next)) (rest : Exhausts next calls) :
    Exhausts reader (bodyCall :: calls)

/-- Calls that go on by a plan come to an end some time. -/
theorem exists_exhausts (plan : DrainPlan) (turn : Nat) (reader : BodyReader) :
    ∃ count, reader.Exhausts ((List.range' turn count).map plan.call) := by
  fun_induction drainBy plan turn reader with
  | case1 turn reader bytes next hc others last hlast ih =>
    obtain ⟨count, hrest⟩ := ih
    exact ⟨count + 1, .more hc hrest⟩
  | case2 turn reader reply next hno hc =>
    refine ⟨1, .last fun bytes h => hno bytes ?_⟩
    rwa [hc] at h

theorem Exhausts.run_append {reader : BodyReader} {front stretch : List BodyCall}
    (hs : stretch ≠ []) (h : reader.Exhausts (front ++ stretch)) :
    (∀ reply ∈ (reader.run front).1, ¬ reply.IsFailure)
      ∧ (reader.run front).2.Exhausts stretch := by
  induction front generalizing reader with
  | nil => exact ⟨fun reply hm => absurd hm List.not_mem_nil, h⟩
  | cons bodyCall front ih =>
    generalize hcalls : bodyCall :: front ++ stretch = calls at h
    cases h with
    | last =>
      obtain ⟨-, hnil⟩ := List.cons.inj hcalls
      exact absurd (List.append_eq_nil_iff.1 hnil).2 hs
    | more hcall rest =>
      obtain ⟨rfl, rfl⟩ := List.cons.inj hcalls
      obtain ⟨hquiet, hrest⟩ := ih rest
      rw [run, hcall]
      refine ⟨fun reply hm => ?_, hrest⟩
      rcases List.mem_cons.1 hm with rfl | hm
      · exact id
      · exact hquiet reply hm

/-- The bytes that are still to come, and the failure that cuts them short. -/
def course (reader : BodyReader) : Bytes × Option (Failure ParseError) :=
  match _h : reader.nextChunk with
  | (.error failure, _) => ([], some failure)
  | (.ok none, _) => ([], none)
  | (.ok (some bytes), next) => (bytes ++ (course next).1, (course next).2)
termination_by reader.ahead.length
decreasing_by all_goals exact nextChunk_lt _h

variable {reader next : BodyReader} {bodyCall : BodyCall} {bytes : Bytes}
  {failure : Failure ParseError}

theorem course_eq (reader : BodyReader) : reader.course = match reader.nextChunk with
    | (.error failure, _) => ([], some failure)
    | (.ok none, _) => ([], none)
    | (.ok (some bytes), next) => (bytes ++ next.course.1, next.course.2) := by
  rw [course]
  split <;> next hn => simp only [hn]

theorem course_failed (h : reader.nextChunk = (.error failure, next)) :
    reader.course = ([], some failure) := by
  rw [course_eq, h]

theorem course_none (h : reader.nextChunk = (.ok none, next)) : reader.course = ([], none) := by
  rw [course_eq, h]

theorem course_some (h : reader.nextChunk = (.ok (some bytes), next)) :
    reader.course = (bytes ++ next.course.1, next.course.2) := by
  rw [course_eq, h]

/-! ### The parked piece -/

theorem advance_pending (reader : BodyReader) : reader.advance.2.pending = reader.pending := by
  have houtcome (reader : BodyReader) (item : Item) :
      (reader.outcome item).2.pending = reader.pending := by cases item <;> rfl
  fun_induction advance reader with
  | case1 => rfl
  | case2 => rfl
  | case3 => exact houtcome _ _
  | case4 reader he found reader' hi n inlet hf ih => exact ih
  | case5 => exact houtcome _ _

theorem nextChunk_idle (hp : reader.pending = []) : reader.nextChunk = reader.advance := by
  rw [nextChunk, hp]
  rfl

theorem nextChunk_parked (hp : reader.pending ≠ []) :
    reader.nextChunk = (.ok (some reader.pending), { reader with pending := [] }) := by
  rw [nextChunk, if_neg (by simpa using hp)]

/-- What is parked comes first, then what would come without it. -/
theorem course_pending (reader : BodyReader) :
    reader.course = (reader.pending ++ ({ reader with pending := [] } : BodyReader).course.1,
      ({ reader with pending := [] } : BodyReader).course.2) := by
  by_cases hp : reader.pending = []
  · obtain ⟨decoder, pending, ended, inlet⟩ := reader
    obtain rfl : pending = [] := hp
    rfl
  · exact course_some (nextChunk_parked hp)

theorem course_give (reader : BodyReader) (size : Nat) :
    reader.course = ((reader.give size).1 ++ (reader.give size).2.course.1,
      (reader.give size).2.course.2) := by
  rw [course_pending, course_pending (reader.give size).2]
  simp only [give, ← List.append_assoc, List.take_append_drop]

/-- A piece that has just been decoded, parked. -/
theorem course_park (h : reader.advance = (.ok (some bytes), next)) (hp : reader.pending = []) :
    reader.course = ({ next with pending := bytes } : BodyReader).course := by
  have hnext : { next with pending := [] } = next := by
    have hkept := reader.advance_pending
    rw [h, hp] at hkept
    obtain ⟨decoder, pending, ended, inlet⟩ := next
    obtain rfl : pending = [] := hkept
    rfl
  rw [course_some ((nextChunk_idle hp).trans h), course_pending { next with pending := bytes }]
  exact congrArg (fun rest : BodyReader => (bytes ++ rest.course.1, rest.course.2)) hnext.symm

theorem isEof_iff : reader.isEof = true ↔ reader.ended = true ∧ reader.pending = [] := by
  rw [isEof, Bool.and_eq_true, List.isEmpty_iff]

theorem course_of_isEof (h : reader.isEof = true) : reader.course = ([], none) := by
  obtain ⟨hended, hpending⟩ := isEof_iff.1 h
  apply course_none
  rw [nextChunk_idle hpending, advance, if_pos hended]

theorem nextChunk_eof (h : reader.nextChunk = (.ok none, next)) : next.isEof = true := by
  refine isEof_iff.2 ⟨nextChunk_none h, ?_⟩
  by_cases hp : reader.pending = []
  · have hkept := reader.advance_pending
    rw [← nextChunk_idle hp, h] at hkept
    exact hkept.trans hp
  · rw [nextChunk_parked hp] at h
    cases h

theorem Idle.not_isEof (h : reader.Idle) : reader.isEof = false := by
  rw [isEof, h.ended]
  rfl

/-! ### One call -/

/-- What a call comes to of the bytes and the failure that were to come. -/
inductive Passes (course : Bytes × Option (Failure ParseError)) (bodyCall : BodyCall) :
    Reply × BodyReader → Prop
  | data {bytes : Bytes} {next : BodyReader}
      (hc : course = (bytes ++ next.course.1, next.course.2)) :
    Passes course bodyCall (.data bytes, next)
  | last {reply : Reply} {next : BodyReader} (hw : bodyCall.Wants)
      (hr : reply = bodyCall.verdict course.2) (hc : course.1 = [])
      (he : next.isEof = course.2.isNone) : Passes course bodyCall (reply, next)

theorem Passes.ended {course : Bytes × Option (Failure ParseError)} (hw : bodyCall.Wants)
    (hc : course = ([], none)) (he : next.isEof = true) :
    Passes course bodyCall (.ended, next) := by
  subst hc
  exact .last hw rfl rfl he

theorem Passes.failed {course : Bytes × Option (Failure ParseError)} (hw : bodyCall.Wants)
    (hc : course = ([], some failure)) (hi : next.Idle) :
    Passes course bodyCall (bodyCall.failure failure, next) := by
  subst hc
  exact .last hw rfl rfl hi.not_isEof

theorem nextChunk_passes (reader : BodyReader) :
    Passes reader.course .nextChunk (reader.call .nextChunk) := by
  rw [call]
  split
  · next failure after hn =>
    have hlast : Passes reader.course .nextChunk (BodyCall.nextChunk.failure failure, after) :=
      .failed trivial (course_failed hn) (nextChunk_failed hn)
    exact hlast
  · next hn => exact .ended trivial (course_none hn) (nextChunk_eof hn)
  · next hn => exact .data (course_some hn)

/-- A read hands out the front of what is parked. -/
theorem give_passes (reader : BodyReader) {size : Nat} (hs : 0 < size) (hp : reader.pending ≠ []) :
    Passes reader.course (.read size)
      (if (reader.give size).1 = [] ∧ 0 < size then .ended else .data (reader.give size).1,
        (reader.give size).2) := by
  have hne := (reader.give_some hs hp).1
  rw [if_neg fun hc => hne hc.1]
  exact .data (reader.course_give size)

theorem read_passes (reader : BodyReader) {size : Nat} (hs : 0 < size) :
    Passes reader.course (.read size) (reader.call (.read size)) := by
  have hw : (BodyCall.read size).Wants := hs
  by_cases hp : reader.pending = []
  · have hidle := read_idle (Nat.ne_of_gt hs) hp
    rcases hn : reader.advance with ⟨failure | _ | bytes, next⟩
    · have hchunk := (nextChunk_idle hp).trans hn
      rw [call_of_failed hp hn hw]
      exact .failed hw (course_failed hchunk) (nextChunk_failed hchunk)
    · have hchunk := (nextChunk_idle hp).trans hn
      rw [call, hidle, hn]
      simp only [true_and, hs, if_true]
      exact .ended hw (course_none hchunk) (nextChunk_eof hchunk)
    · rw [call, hidle, hn, course_park hn hp]
      exact ({ next with pending := bytes } : BodyReader).give_passes hs (advance_some hn).1
  · rw [call, read, if_neg (Nat.ne_of_gt hs), if_pos (by simpa using hp)]
    exact reader.give_passes hs hp

theorem call_passes (hs : bodyCall ≠ .skip) (reader : BodyReader) :
    Passes reader.course bodyCall (reader.call bodyCall) := by
  by_cases hw : bodyCall.Wants
  · cases bodyCall with
    | nextChunk => exact reader.nextChunk_passes
    | read size => exact reader.read_passes hw
    | skip => exact absurd rfl hs
  · rw [BodyCall.eq_read_zero hw]
    exact .data rfl

/-- Skipping counts what was to come. -/
theorem skipFrom_course (skipped : Nat) (reader : BodyReader) :
    (reader.skipFrom skipped).1
      = reader.course.2.elim (.ok (skipped + reader.course.1.length)) .error := by
  fun_induction skipFrom skipped reader with
  | case1 skipped reader failure next hn => rw [course_failed hn]; rfl
  | case2 skipped reader next hn => rw [course_none hn]; rfl
  | case3 skipped reader bytes next hn ih =>
    rw [ih, course_some hn, List.length_append, ← Nat.add_assoc]

theorem drainFrom_course (done : List Bytes) (reader : BodyReader) :
    (drainFrom done reader).1.reverse.flatten = done.reverse.flatten ++ reader.course.1
      ∧ (drainFrom done reader).2.1 = reader.course.2 := by
  fun_induction drainFrom done reader with
  | case1 done reader failure next hn =>
    rw [course_failed hn]
    exact ⟨(List.append_nil _).symm, rfl⟩
  | case2 done reader next hn =>
    rw [course_none hn]
    exact ⟨(List.append_nil _).symm, rfl⟩
  | case3 done reader bytes next hn ih =>
    rw [ih.1, ih.2, course_some hn]
    simp

/-! ### Many calls -/

/-- What a reader with these bytes and this failure to come does with any call. -/
structure HandsOut (reader : BodyReader) (left : Bytes) (verdict : Option (Failure ParseError)) :
    Prop where
  answers : ∀ calls, .skip ∉ calls → reader.Exhausts calls →
    Answers verdict calls (reader.run calls).1 left
      ∧ (reader.run calls).2.isEof = verdict.isNone
  nextChunk : ∀ answer next, reader.nextChunk = (.ok answer, next) →
    answer ≠ some [] ∧ (answer = none → left = [] ∧ verdict = none)
  read : ∀ size next, 0 < size → reader.read size = (.ok [], next) → left = [] ∧ verdict = none
  eof : reader.isEof = true → left = [] ∧ verdict = none
  skipBody : reader.skipBody.1 = verdict.elim (.ok left.length) .error
  readToEnd : reader.readToEnd.1 = left
    ∧ reader.readToEnd.2.1 = verdict.map (Failure.map ParseError.toIo)

theorem run_cons (reader : BodyReader) (bodyCall : BodyCall) (calls : List BodyCall) :
    reader.run (bodyCall :: calls)
      = ((reader.call bodyCall).1 :: ((reader.call bodyCall).2.run calls).1,
        ((reader.call bodyCall).2.run calls).2) := rfl

/-- Calls up to the end, by induction on them: each takes its bytes off the course. -/
theorem run_answers {calls : List BodyCall} (hs : .skip ∉ calls) (h : reader.Exhausts calls) :
    Answers reader.course.2 calls (reader.run calls).1 reader.course.1
      ∧ (reader.run calls).2.isEof = reader.course.2.isNone := by
  induction h with
  | @last reader bodyCall hlast =>
    have hp := call_passes (List.ne_of_not_mem_cons hs).symm reader
    rw [run_cons]
    generalize reader.call bodyCall = found at hlast hp ⊢
    cases hp with
    | data => exact absurd rfl (hlast _)
    | last hw hr hc he =>
      rw [hr, hc]
      exact ⟨.last hw, he⟩
  | @more reader next bodyCall calls bytes hcall rest ih =>
    obtain ⟨hanswers, heof⟩ := ih (List.not_mem_of_not_mem_cons hs)
    have hp := call_passes (List.ne_of_not_mem_cons hs).symm reader
    rw [run_cons]
    rw [hcall] at hp ⊢
    generalize reader.course = course at hp ⊢
    cases hp with
    | data hc => rw [hc]; exact ⟨.data hanswers, heof⟩
    | last hw hr => exact absurd hr.symm (bodyCall.verdict_ne_data hw _ _)

/-- Calls none of which fails take what they are given off the course. -/
theorem run_course {calls : List BodyCall} (hs : .skip ∉ calls)
    (h : ∀ reply ∈ (reader.run calls).1, ¬ reply.IsFailure) :
    reader.course = (Reply.handed (reader.run calls).1 ++ (reader.run calls).2.course.1,
      (reader.run calls).2.course.2) := by
  induction calls generalizing reader with
  | nil => rfl
  | cons bodyCall calls ih =>
    have hp := call_passes (List.ne_of_not_mem_cons hs).symm reader
    rw [run_cons] at h ⊢
    have hrest := ih (List.not_mem_of_not_mem_cons hs) fun reply hm =>
      h reply (List.mem_cons_of_mem _ hm)
    have hfirst := h _ List.mem_cons_self
    rw [Reply.handed, List.flatMap_cons, ← Reply.handed, List.append_assoc]
    generalize reader.call bodyCall = found at hp hrest hfirst ⊢
    generalize reader.course = course at hp ⊢
    cases hp with
    | data hc => rw [hc, hrest]; rfl
    | @last reply next hw hr hc he =>
      obtain ⟨hnone, hended⟩ := bodyCall.verdict_eq hw (hr ▸ hfirst)
      rw [hnone] at he
      rw [course_of_isEof he] at hrest
      obtain ⟨hleft, hverdict⟩ := Prod.mk.inj hrest
      obtain ⟨body, verdict⟩ := course
      obtain rfl : body = [] := hc
      obtain rfl : verdict = none := hnone
      rw [← hleft, ← hverdict, hr, hended]
      rfl

theorem handsOut_course (reader : BodyReader) :
    reader.HandsOut reader.course.1 reader.course.2 where
  answers := fun calls hs h => run_answers hs h
  nextChunk := by
    intro answer next h
    refine ⟨?_, ?_⟩
    · rintro rfl
      exact (nextChunk_some h).1 rfl
    · rintro rfl
      exact Prod.mk.inj (course_none h)
  read := by
    intro size next hs h
    have hcall : reader.call (.read size) = (.ended, next) := by
      rw [call, h]
      simp only [true_and, hs, if_true]
    have hp := reader.read_passes hs
    rw [hcall] at hp
    generalize reader.course = course at hp ⊢
    cases hp with
    | last hw hr hc =>
      have hquiet : ¬ ((BodyCall.read size).verdict course.2).IsFailure := by
        rw [← hr]
        exact id
      exact ⟨hc, (BodyCall.verdict_eq hw hquiet).1⟩
  eof := fun h => Prod.mk.inj (course_of_isEof h)
  skipBody := by
    rw [BodyReader.skipBody, skipFrom_course, Nat.zero_add]
  readToEnd := by
    obtain ⟨hbytes, herror⟩ := reader.drainFrom_course []
    exact ⟨hbytes, congrArg (Option.map (Failure.map ParseError.toIo)) herror⟩

/-- There is one body, and one end or failure behind it, whichever way it is asked for: any calls
for pieces and reads of any sizes, up to the end or the first failure, are given its bytes one after
the other and then its verdict. Between two calls, what has been handed out is a front part of the
body, and the reader hands out the rest of it: a piece is not empty, a read of something comes back
with nothing only at the end, and the end is not seen before every byte has been handed out. A skip
in place of the last stretch of calls counts the bytes that the stretch would have been given. -/
theorem run_handout (reader : BodyReader) : ∃ body verdict, reader.HandsOut body verdict
    ∧ (∀ calls, .skip ∉ calls → (∀ reply ∈ (reader.run calls).1, ¬ reply.IsFailure) →
        ∃ left, Reply.handed (reader.run calls).1 ++ left = body
          ∧ (reader.run calls).2.HandsOut left verdict)
    ∧ ∀ front stretch, .skip ∉ front ++ stretch → stretch ≠ [] →
        reader.Exhausts (front ++ stretch) →
        (reader.run front).2.skipBody.1 = verdict.elim
          (.ok (Reply.handed ((reader.run front).2.run stretch).1).length) .error := by
  have hbetween : ∀ calls, .skip ∉ calls →
      (∀ reply ∈ (reader.run calls).1, ¬ reply.IsFailure) →
      ∃ left, Reply.handed (reader.run calls).1 ++ left = reader.course.1
        ∧ (reader.run calls).2.HandsOut left reader.course.2 := by
    intro calls hs hquiet
    obtain ⟨hbody, hverdict⟩ := Prod.mk.inj (run_course hs hquiet)
    refine ⟨(reader.run calls).2.course.1, hbody.symm, ?_⟩
    rw [hverdict]
    exact (reader.run calls).2.handsOut_course
  refine ⟨reader.course.1, reader.course.2, reader.handsOut_course, hbetween, ?_⟩
  intro front stretch hs hne h
  obtain ⟨hquiet, hstretch⟩ := h.run_append hne
  obtain ⟨left, -, hleft⟩ := hbetween front (fun hm => hs (List.mem_append_left _ hm)) hquiet
  have hanswers := (hleft.answers stretch (fun hm => hs (List.mem_append_right _ hm)) hstretch).1
  rw [hanswers.handed]
  exact hleft.skipBody

end BodyReader
end Http1
