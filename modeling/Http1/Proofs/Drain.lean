import Mathlib
import Http1.Body.Reader

/-! Draining a body to its end by any mix of calls. Every call that gives data uses bytes up, so the
draining ends; what it gives is a list of replies. `Delivers` says which lists of replies belong to
a body. A call that fails finds nothing pending and leaves the body open (`call_failed`): it may be
made again. -/

namespace Http1

/-- A call on a body reader. -/
inductive BodyCall
  | nextChunk
  | read (size : Nat)
  | skip

/-- A call that does not just ask for nothing. -/
def BodyCall.Wants : BodyCall → Prop
  | .read size => 0 < size
  | .nextChunk | .skip => True

theorem BodyCall.eq_read_zero {bodyCall : BodyCall} (h : ¬ bodyCall.Wants) :
    bodyCall = .read 0 := by
  cases bodyCall with
  | nextChunk => exact absurd trivial h
  | skip => exact absurd trivial h
  | read size => rw [Nat.eq_zero_of_not_pos h]

/-- What a call came to; a read of bytes reports failures in the words of its own. -/
inductive Reply
  | data (bytes : Bytes)
  | skipped (count : Nat)
  | ended
  | failed (failure : Failure ParseError)
  | readFailed (failure : Failure IoError)
  | skipFailed (failure : Failure ParseError)

/-- The reply of a call that fails; asking for nothing never does. -/
def BodyCall.failure (failure : Failure ParseError) : BodyCall → Reply
  | .nextChunk => .failed failure
  | .read size => if size = 0 then .data [] else .readFailed (failure.map ParseError.toIo)
  | .skip => .skipFailed failure

def Reply.IsFailure : Reply → Prop
  | .failed _ | .readFailed _ | .skipFailed _ => True
  | .data _ | .skipped _ | .ended => False

/-- The calls of a draining, one after the other for as long as it takes. -/
structure DrainPlan where
  call : Nat → BodyCall
  wants : ∀ turn, (call turn).Wants

namespace BodyReader

/-- A read that gives nothing has found the end. -/
def call (reader : BodyReader) : BodyCall → Reply × BodyReader
  | .nextChunk => match reader.nextChunk with
    | (.error failure, next) => (.failed failure, next)
    | (.ok none, next) => (.ended, next)
    | (.ok (some bytes), next) => (.data bytes, next)
  | .read size => match reader.read size with
    | (.error failure, next) => (.readFailed failure, next)
    | (.ok bytes, next) => (if bytes = [] ∧ 0 < size then .ended else .data bytes, next)
  | .skip => match reader.skipBody with
    | (.error failure, next) => (.skipFailed failure, next)
    | (.ok count, next) => (.skipped count, next)

theorem give_some (reader : BodyReader) {size : Nat} (hs : 0 < size) (hp : reader.pending ≠ []) :
    (reader.give size).1 ≠ []
      ∧ (reader.give size).1.length + (reader.give size).2.ahead.length = reader.ahead.length := by
  constructor
  · intro h
    rcases List.take_eq_nil_iff.1 h with h | h
    · omega
    · exact hp h
  · simp only [give, ahead, List.length_append, List.length_take, List.length_drop]
    omega

theorem read_some {reader next : BodyReader} {size : Nat} {bytes : Bytes} (hs : 0 < size)
    (h : reader.read size = (.ok bytes, next)) (hb : bytes ≠ []) :
    bytes.length + next.ahead.length ≤ reader.ahead.length := by
  rw [read, if_neg (by omega)] at h
  split at h
  · next hp =>
    cases h
    exact Nat.le_of_eq (reader.give_some hs (by simpa using hp)).2
  · next hp =>
    split at h
    · cases h
    · cases h
      exact absurd rfl hb
    · next piece reader' ha =>
      cases h
      obtain ⟨hne, hle⟩ := advance_some ha
      have hgive := ({ reader' with pending := piece } : BodyReader).give_some hs hne
      have hahead : ({ reader' with pending := piece } : BodyReader).ahead.length
          ≤ piece.length + reader'.ahead.length := by
        simp only [ahead, List.length_append]
        omega
      have := hgive.2
      omega

theorem call_data_lt {reader next : BodyReader} {bodyCall : BodyCall} {bytes : Bytes}
    (hw : bodyCall.Wants) (h : reader.call bodyCall = (.data bytes, next)) :
    next.ahead.length < reader.ahead.length := by
  cases bodyCall with
  | nextChunk =>
    simp only [call] at h
    split at h
    · cases h
    · cases h
    · next hr => cases h; exact nextChunk_lt hr
  | read size =>
    simp only [call] at h
    split at h
    · cases h
    · next got after hr =>
      by_cases hb : got = []
      · rw [if_pos ⟨hb, hw⟩] at h
        cases h
      · rw [if_neg fun hc => hb hc.1] at h
        cases h
        have := read_some hw hr hb
        have := List.length_pos_iff.2 hb
        omega
  | skip =>
    simp only [call] at h
    split at h <;> cases h

/-- Goes on by the plan until a reply is not data. -/
def drainBy (plan : DrainPlan) (turn : Nat) (reader : BodyReader) : List Reply × BodyReader :=
  match _h : reader.call (plan.call turn) with
  | (.data bytes, next) =>
    let (replies, last) := drainBy plan (turn + 1) next
    (.data bytes :: replies, last)
  | (reply, next) => ([reply], next)
termination_by reader.ahead.length
decreasing_by exact call_data_lt (plan.wants turn) _h

theorem drainBy_more {plan : DrainPlan} {turn : Nat} {bytes : Bytes} {reader next : BodyReader}
    (h : reader.call (plan.call turn) = (.data bytes, next)) :
    reader.drainBy plan turn = (.data bytes :: (next.drainBy plan (turn + 1)).1,
      (next.drainBy plan (turn + 1)).2) := by
  rw [drainBy]
  split
  · next hc =>
    rw [h] at hc
    cases hc
    rfl
  · next hno hc =>
    rw [h] at hc
    cases hc
    exact absurd rfl (hno bytes)

theorem drainBy_last {plan : DrainPlan} {turn : Nat} {reply : Reply} {reader next : BodyReader}
    (h : reader.call (plan.call turn) = (reply, next)) (hl : ∀ bytes, reply ≠ .data bytes) :
    reader.drainBy plan turn = ([reply], next) := by
  rw [drainBy]
  split
  · next hc =>
    rw [h] at hc
    cases hc
    exact absurd rfl (hl _)
  · next hc =>
    rw [h] at hc
    cases hc
    rfl

/-- Any calls one after the other, whatever they come to. -/
def run (reader : BodyReader) : List BodyCall → List Reply × BodyReader
  | [] => ([], reader)
  | first :: others =>
    let (reply, next) := reader.call first
    let (replies, last) := next.run others
    (reply :: replies, last)

/-- Nothing is pending and the end has not been found. -/
structure Idle (reader : BodyReader) : Prop where
  pending : reader.pending = []
  ended : reader.ended = false

variable {reader next : BodyReader} {failure : Failure ParseError}

theorem outcome_failed {item : Item} (h : reader.outcome item = (.error failure, next)) :
    item = .failed failure ∧ next = reader := by
  cases item <;> simp_all [outcome]

theorem advance_failed (h : reader.advance = (.error failure, next)) :
    next.pending = reader.pending ∧ next.ended = false := by
  fun_induction advance reader with
  | case1 => cases h
  | case2 reader he found reader' hi failure inlet hf =>
    cases h
    exact ⟨rfl, eq_false_of_ne_true he⟩
  | case3 reader he found reader' hi inlet hf last =>
    obtain ⟨-, rfl⟩ := outcome_failed h
    exact ⟨rfl, eq_false_of_ne_true he⟩
  | case4 reader he found reader' hi n inlet hf ih => exact ih h
  | case5 reader he found reader' hi =>
    obtain ⟨-, rfl⟩ := outcome_failed h
    exact ⟨rfl, eq_false_of_ne_true he⟩

theorem nextChunk_failed (h : reader.nextChunk = (.error failure, next)) : next.Idle := by
  unfold nextChunk at h
  split at h
  · next hp =>
    obtain ⟨hpending, hended⟩ := advance_failed h
    exact ⟨hpending.trans (by simpa using hp), hended⟩
  · cases h

theorem skipFrom_failed {skipped : Nat} (h : reader.skipFrom skipped = (.error failure, next)) :
    next.Idle := by
  fun_induction skipFrom skipped reader with
  | case1 skipped reader cause last hn =>
    cases h
    exact nextChunk_failed hn
  | case2 => cases h
  | case3 skipped reader bytes between hn ih => exact ih h

/-- A read fails as the decoder does. -/
theorem read_error {size : Nat} {cause : Failure IoError}
    (h : reader.read size = (.error cause, next)) :
    size ≠ 0 ∧ reader.pending = []
      ∧ ∃ failure, cause = failure.map ParseError.toIo
        ∧ reader.advance = (.error failure, next) := by
  unfold read at h
  split at h
  · cases h
  · next hsize =>
    split at h
    · cases h
    · next hp =>
      split at h
      · next failure last ha =>
        cases h
        exact ⟨hsize, by simpa using hp, failure, rfl, ha⟩
      · cases h
      · cases h

theorem read_failed {size : Nat} {cause : Failure IoError}
    (h : reader.read size = (.error cause, next)) : next.Idle := by
  obtain ⟨-, hp, failure, -, ha⟩ := read_error h
  obtain ⟨hpending, hended⟩ := advance_failed ha
  exact ⟨hpending.trans hp, hended⟩

theorem call_failed {bodyCall : BodyCall} {reply : Reply}
    (h : reader.call bodyCall = (reply, next)) (hf : reply.IsFailure) : next.Idle := by
  cases bodyCall with
  | nextChunk =>
    simp only [call] at h
    split at h
    · next hr => cases h; exact nextChunk_failed hr
    · cases h; exact hf.elim
    · cases h; exact hf.elim
  | read size =>
    simp only [call] at h
    split at h
    · next hr => cases h; exact read_failed hr
    · cases h
      split at hf
      · exact hf.elim
      · exact hf.elim
  | skip =>
    simp only [call] at h
    split at h
    · next hr => cases h; exact skipFrom_failed hr
    · cases h; exact hf.elim

/-- A call that finds nothing pending fails as the decoder does. -/
theorem call_of_failed (hp : reader.pending = []) (h : reader.advance = (.error failure, next))
    {bodyCall : BodyCall} (hw : bodyCall.Wants) :
    reader.call bodyCall = (bodyCall.failure failure, next) := by
  have hchunk : reader.nextChunk = (.error failure, next) := by
    rw [nextChunk, hp, h]
    rfl
  cases bodyCall with
  | nextChunk => rw [call, hchunk]; rfl
  | read size =>
    have hsize : size ≠ 0 := Nat.ne_of_gt hw
    have hread : reader.read size = (.error (failure.map ParseError.toIo), next) := by
      rw [read, if_neg hsize, hp, h]
      rfl
    rw [call, hread, BodyCall.failure, if_neg hsize]
  | skip =>
    have hskip : reader.skipBody = (.error failure, next) := by
      rw [skipBody, skipFrom, hchunk]
    rw [call, hskip]
    rfl

/-- Asking for nothing is answered in the same way, and leaves the reader alone. -/
theorem call_fails (hp : reader.pending = []) (h : reader.advance = (.error failure, next))
    (bodyCall : BodyCall) :
    ∃ last, reader.call bodyCall = (bodyCall.failure failure, last)
      ∧ (last = next ∨ last = reader) := by
  by_cases hw : bodyCall.Wants
  · exact ⟨next, call_of_failed hp h hw, .inl rfl⟩
  · rw [BodyCall.eq_read_zero hw]
    exact ⟨reader, rfl, .inr rfl⟩

end BodyReader

/-- The replies that hand out a body up to an item that ends it or fails. -/
inductive Delivers : Item → List Reply → Bytes → Prop
  | ended : Delivers .endOfBody [.ended] []
  | skipped (body : Bytes) : Delivers .endOfBody [.skipped body.length] body
  | data {item : Item} {replies : List Reply} {bytes body : Bytes} (hne : bytes ≠ [])
      (rest : Delivers item replies body) : Delivers item (.data bytes :: replies) (bytes ++ body)
  | failed (failure : Failure ParseError) : Delivers (.failed failure) [.failed failure] []
  | readFailed (failure : Failure ParseError) :
    Delivers (.failed failure) [.readFailed (failure.map ParseError.toIo)] []
  | skipFailed (failure : Failure ParseError) (body : Bytes) :
    Delivers (.failed failure) [.skipFailed failure] body

theorem Delivers.isFailure {failure : Failure ParseError} {reply : Reply} {data : Bytes}
    (h : Delivers (.failed failure) [reply] data) : reply.IsFailure := by
  cases h with
  | data hne hrest => cases hrest
  | failed => trivial
  | readFailed => trivial
  | skipFailed => trivial

/-- Replies that end with a failure do not end with the end. -/
theorem Delivers.not_ended {failure : Failure ParseError} {replies : List Reply}
    {body other : Bytes} (h : Delivers (.failed failure) replies body) :
    ¬ Delivers .endOfBody replies other := by
  generalize hitem : Item.failed failure = item at h
  induction h generalizing other with
  | ended => cases hitem
  | skipped body => cases hitem
  | data hne rest ih =>
    intro hends
    cases hends with
    | data _ hrest => exact ih hitem hrest
  | failed failure => exact nofun
  | readFailed failure => exact nofun
  | skipFailed failure body => exact nofun

/-- A draining that fails leaves the body open. -/
theorem BodyReader.drainBy_failed {plan : DrainPlan} {turn : Nat} {reader next : BodyReader}
    {replies : List Reply} {failure : Failure ParseError} {body : Bytes}
    (h : reader.drainBy plan turn = (replies, next))
    (hd : Delivers (.failed failure) replies body) : next.Idle := by
  fun_induction drainBy plan turn reader generalizing replies body with
  | case1 turn reader bytes between hc others last hlast ih =>
    cases h
    cases hd with
    | data hne hrest => exact ih hlast hrest
  | case2 turn reader reply last hno hc =>
    cases h
    exact call_failed hc hd.isFailure

end Http1
