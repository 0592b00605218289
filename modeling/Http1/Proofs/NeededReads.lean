import Http1.Proofs.Halves
import Http1.Proofs.Standing
import Http1.Proofs.Uptake

/-! A body reader asks its source for more only when it must: nothing is buffered, and what has come
in so far is not the whole body (`Framing.Lacks`). A read too many and a byte too many are ruled out
by one invariant, that the decoder stands behind what has been used (`BodyReader.Stands`). Every
call keeps it and says what happened to the inlet on the way (`Spares`), up to the first failure
that is not the source's (`run_needed`). -/

namespace Http1

open Chunked (Limits)

/-- The reply says that the body has ended. -/
def Reply.Ends : Reply → Prop
  | .ended | .skipped _ => True
  | .data _ | .failed _ | .readFailed _ | .skipFailed _ => False

/-! ### What a call does to the inlet -/

/-- A moment at which nothing is buffered and what has come in does not hold the whole body. -/
def Framing.Lacks (framing : Framing) (uptake : Uptake) : Prop :=
  uptake.inlet.buffered = [] ∧ ∀ body, framing.Completes body → ¬ body <+: uptake.obtained

theorem Framing.Lacks.of_buffered {framing : Framing} {used : Bytes} {inlet next : Inlet}
    (h : framing.Lacks ⟨used, inlet⟩) (hb : next.buffered = inlet.buffered) :
    framing.Lacks ⟨used, next⟩ := by
  simp only [Framing.Lacks, Uptake.obtained, hb]
  exact h

theorem Inlet.fill_refused {inlet next : Inlet} {error : IoError}
    (h : inlet.fill = (.error error, next)) : next.buffered = inlet.buffered := by
  unfold fill at h
  rcases hr : inlet.source.read inlet.readSize with ⟨cause | bytes, source⟩
  · rw [hr] at h
    cases h
    rfl
  · rw [hr] at h
    cases h

/-- A fill that finds the end of the source adds nothing. -/
theorem Inlet.fill_end {inlet next : Inlet} (h : inlet.fill = (.ok 0, next))
    (hb : inlet.buffered = []) : next.buffered = [] := by
  have hlength := fill_length h
  rw [hb] at hlength
  exact List.eq_nil_of_length_eq_zero hlength

namespace BodyReader

variable {reader next : BodyReader} {limits : Limits} {framing : Framing} {used : Bytes}

/-- The decoder stands behind what has been used, or the body ran until the close and has ended. -/
def Stands (limits : Limits) (framing : Framing) (used : Bytes) (reader : BodyReader) : Prop :=
  Scan.Behind BodyDecoder.scan (.start limits framing) used reader.decoder
    ∨ framing = .untilClose ∧ reader.ended = true

/-- The inlet has been led on by reads that were needed, to one where all of `used` has been taken
from it and nothing of what follows a whole body. The reader stands there unless it has failed by
itself; where the source has failed, its last read was needed. -/
structure Spares (limits : Limits) (framing : Framing) (before : Uptake)
    (fault : Option (Failure ParseError)) (next : BodyReader) (used : Bytes) : Prop where
  leads : Uptake.Leads framing.Lacks before ⟨used, next.inlet⟩
  within : ∀ body, framing.Completes body → body <+: used ++ next.inlet.buffered → used <+: body
  stands : (∀ failure, fault = some failure → failure.OfSource) → next.Stands limits framing used
  lacks : ∀ cause, fault = some (.error (.io cause)) → framing.Lacks ⟨used, next.inlet⟩

variable {before : Uptake} {fault : Option (Failure ParseError)}

theorem Stands.behind (h : reader.Stands limits framing used) (he : ¬ reader.ended = true) :
    Scan.Behind BodyDecoder.scan (.start limits framing) used reader.decoder :=
  h.resolve_right fun hclosed => he hclosed.2

theorem Stands.within (h : reader.Stands limits framing used) (body : Bytes)
    (hc : framing.Completes body) (hp : body <+: used ++ reader.inlet.buffered) :
    used <+: body := by
  rcases h with hb | ⟨rfl, -⟩
  · rcases List.prefix_or_prefix_of_prefix hp (List.prefix_append used _) with hle | hle
    · rw [BodyDecoder.behind_within hb hc hle]
    · exact hle
  · exact hc.elim

theorem Stands.spares (h : next.Stands limits framing used)
    (hl : Uptake.Leads framing.Lacks before ⟨used, next.inlet⟩)
    (hf : ∀ cause, fault = some (.error (.io cause)) → framing.Lacks ⟨used, next.inlet⟩) :
    Spares limits framing before fault next used :=
  ⟨hl, h.within, fun _ => h, hf⟩

theorem Stands.spares_ok (h : next.Stands limits framing used)
    (hl : Uptake.Leads framing.Lacks before ⟨used, next.inlet⟩) :
    Spares limits framing before none next used := by
  apply h.spares hl
  rintro cause ⟨⟩

/-- The byte that was refused belongs to every whole body that begins with what was there. -/
theorem spares_refused {between : BodyDecoder} {b : UInt8} {failure : Failure ParseError}
    (hl : Uptake.Leads framing.Lacks before ⟨used ++ [b], next.inlet⟩)
    (hb : Scan.Behind BodyDecoder.scan (.start limits framing) used between)
    (hw : (between.scan []).last.item = .needMore) (he : ¬ failure.OfSource) :
    Spares limits framing before (some failure) next (used ++ [b]) := by
  refine ⟨hl, ?_, fun h => absurd (h failure rfl) he, ?_⟩
  · intro body hc hp
    rcases List.prefix_or_prefix_of_prefix hp (List.prefix_append (used ++ [b]) _) with hle | hle
    · rcases List.prefix_concat_iff.1 hle with rfl | hle
      · exact List.prefix_refl _
      · exact absurd hle (BodyDecoder.behind_lacks hb hw hc)
    · exact hle
  · rintro cause ⟨⟩
    exact absurd trivial he

theorem Spares.after_leads {between : Uptake} (h : Spares limits framing between fault next used)
    (hl : Uptake.Leads framing.Lacks before between) :
    Spares limits framing before fault next used :=
  { h with leads := hl.trans h.leads }

/-- What a call has failed with. -/
def failureOf {α : Type} : Except (Failure ParseError) α → Option (Failure ParseError)
  | .error failure => some failure
  | .ok _ => none

/-- A decoder that wants more has used up the buffer, and a read is needed. -/
theorem decode_lacks
    (hb : Scan.Behind BodyDecoder.scan (.start limits framing) used reader.decoder)
    (hi : (reader.decoder.decode reader.inlet.buffered).item = .needMore) :
    Scan.Behind BodyDecoder.scan (.start limits framing) (used ++ reader.inlet.buffered)
        (reader.decoder.decode reader.inlet.buffered).decoder
      ∧ framing.Lacks ⟨used ++ reader.inlet.buffered,
        (reader.after (reader.decoder.decode reader.inlet.buffered)).inlet⟩
      ∧ Uptake.Leads framing.Lacks ⟨used, reader.inlet⟩ ⟨used ++ reader.inlet.buffered,
        (reader.after (reader.decoder.decode reader.inlet.buffered)).inlet.fill.2⟩ := by
  have hrest := (BodyDecoder.decode_needMore hi).2
  cases reader.decoder.decode_goes reader.inlet.buffered with
  | refused _ _ _ hfailed _ => rw [hi] at hfailed; cases hfailed
  | @stands front hs hgone _ =>
    rw [hrest, List.append_nil] at hs
    rw [← hs] at hgone
    have hbehind := hb.trans hgone
    have hlacks : framing.Lacks ⟨used ++ reader.inlet.buffered,
        (reader.after (reader.decoder.decode reader.inlet.buffered)).inlet⟩ := by
      refine ⟨hrest, fun body hc => ?_⟩
      rw [Uptake.obtained]
      simp only [after, hrest, List.append_nil]
      apply BodyDecoder.behind_lacks hbehind _ hc
      rw [BodyDecoder.scan_decode, Scan.behind, BodyDecoder.decode_again hi]
    refine ⟨hbehind, hlacks, (Uptake.Leads.refl.take ?_).fill hlacks⟩
    rw [hrest, List.append_nil]

/-- The end of the source ends a body that ran until then, and is a failure of any other. -/
theorem close_spares
    (hb : Scan.Behind BodyDecoder.scan (.start limits framing) used reader.decoder)
    (hl : Uptake.Leads framing.Lacks before ⟨used, reader.inlet⟩) :
    Spares limits framing before
      (failureOf ((reader.after ⟨reader.decoder.close.1, reader.decoder.close.2,
        reader.inlet.buffered⟩).outcome reader.decoder.close.1).1)
      ((reader.after ⟨reader.decoder.close.1, reader.decoder.close.2,
        reader.inlet.buffered⟩).outcome reader.decoder.close.1).2 used := by
  cases hd : reader.decoder with
  | length received left =>
    rw [hd] at hb
    exact Stands.spares (.inl hb) hl (by rintro cause ⟨⟩)
  | chunked limits phase =>
    rw [hd] at hb
    exact Stands.spares (.inl hb) hl (by rintro cause ⟨⟩)
  | untilClose ended =>
    rw [hd] at hb
    exact Stands.spares_ok (.inr ⟨BodyDecoder.behind_untilClose hb, rfl⟩) hl

theorem outcome_decoder (reader : BodyReader) (item : Item) :
    (reader.outcome item).2.decoder = reader.decoder := by
  cases item <;> rfl

theorem outcome_ok {item : Item} (hi : ¬ item.Fails) :
    failureOf (reader.outcome item).1 = none := by
  cases item with
  | failed error => exact absurd trivial hi
  | _ => rfl

/-- What the buffer completes has been used up, or the byte that is refused. -/
theorem decode_spares
    (hb : Scan.Behind BodyDecoder.scan (.start limits framing) used reader.decoder) :
    ∃ now, Spares limits framing ⟨used, reader.inlet⟩
      (failureOf ((reader.after (reader.decoder.decode reader.inlet.buffered)).outcome
        (reader.decoder.decode reader.inlet.buffered).item).1)
      ((reader.after (reader.decoder.decode reader.inlet.buffered)).outcome
        (reader.decoder.decode reader.inlet.buffered).item).2 now := by
  cases reader.decoder.decode_goes reader.inlet.buffered with
  | @stands front hs hgone hi =>
    rw [outcome_ok hi]
    refine ⟨used ++ front, Stands.spares_ok (.inl ?_) ?_⟩
    · rw [outcome_decoder]
      exact hb.trans hgone
    · rw [outcome_inlet]
      exact Uptake.Leads.refl.take hs
  | @refused front b between error hs hgone hw hi he =>
    rw [hi]
    refine ⟨used ++ front ++ [b], spares_refused ?_ (hb.trans hgone) hw he⟩
    rw [List.append_assoc]
    exact Uptake.Leads.refl.take hs

theorem advance_spares (h : reader.Stands limits framing used) :
    ∃ now, Spares limits framing ⟨used, reader.inlet⟩ (failureOf reader.advance.1)
      reader.advance.2 now := by
  fun_induction advance reader generalizing used with
  | case1 => exact ⟨used, h.spares_ok .refl⟩
  | case2 reader he found reader' hi error inlet =>
    have hf : reader'.inlet.fill = (.error error, inlet) := by assumption
    obtain ⟨hb, hlacks, hfill⟩ := decode_lacks (h.behind he) hi
    rw [congrArg Prod.snd hf] at hfill
    refine ⟨_, Stands.spares (.inl hb) hfill fun _ _ => ?_⟩
    exact hlacks.of_buffered (Inlet.fill_refused hf)
  | case3 reader he found reader' hi inlet hf =>
    rename_i last
    obtain ⟨hb, hlacks, hfill⟩ := decode_lacks (h.behind he) hi
    rw [congrArg Prod.snd hf] at hfill
    have hempty : inlet.buffered = [] := Inlet.fill_end hf hlacks.1
    have hlast : last = ⟨found.decoder.close.1, found.decoder.close.2, inlet.buffered⟩ := by
      simp only [last, hempty]
      exact BodyDecoder.decodeEof_waiting hi
    have hb' : Scan.Behind BodyDecoder.scan (.start limits framing) (used ++ reader.inlet.buffered)
        ({ reader' with inlet } : BodyReader).decoder := hb
    rw [hlast]
    exact ⟨_, close_spares hb' hfill⟩
  | case4 reader he found reader' hi n inlet hf =>
    rename_i ih
    obtain ⟨hb, hlacks, hfill⟩ := decode_lacks (h.behind he) hi
    rw [congrArg Prod.snd hf] at hfill
    obtain ⟨now, hspares⟩ := ih (.inl hb)
    exact ⟨now, hspares.after_leads hfill⟩
  | case5 reader he => exact decode_spares (h.behind he)

theorem nextChunk_spares (h : reader.Stands limits framing used) :
    ∃ now, Spares limits framing ⟨used, reader.inlet⟩ (failureOf reader.nextChunk.1)
      reader.nextChunk.2 now := by
  unfold nextChunk
  split
  · exact advance_spares h
  · exact ⟨used, Stands.spares_ok h .refl⟩

theorem skipFrom_spares (skipped : Nat) (h : reader.Stands limits framing used) :
    ∃ now, Spares limits framing ⟨used, reader.inlet⟩ (failureOf (reader.skipFrom skipped).1)
      (reader.skipFrom skipped).2 now := by
  fun_induction skipFrom skipped reader generalizing used with
  | case1 skipped reader error next hn =>
    have hnext := nextChunk_spares h
    rwa [hn] at hnext
  | case2 skipped reader next hn =>
    have hnext := nextChunk_spares h
    rwa [hn] at hnext
  | case3 skipped reader bytes next hn ih =>
    obtain ⟨now, hnext⟩ := nextChunk_spares h
    rw [hn] at hnext
    obtain ⟨last, hspares⟩ := ih (hnext.stands (by rintro error ⟨⟩))
    exact ⟨last, hspares.after_leads hnext.leads⟩

/-! ### Any calls -/

/-- The failure that a call comes to, before a read puts it into words of its own. -/
def fault? (reader : BodyReader) : BodyCall → Option (Failure ParseError)
  | .nextChunk => failureOf reader.nextChunk.1
  | .read size =>
    if size = 0 then none
    else if ¬ reader.pending.isEmpty then none
    else failureOf reader.advance.1
  | .skip => failureOf reader.skipBody.1

theorem read_spares (size : Nat) (h : reader.Stands limits framing used) :
    ∃ now, Spares limits framing ⟨used, reader.inlet⟩ (reader.fault? (.read size))
      (reader.read size).2 now := by
  rw [fault?, read]
  by_cases hsize : size = 0
  · rw [if_pos hsize, if_pos hsize]
    exact ⟨used, h.spares_ok .refl⟩
  rw [if_neg hsize, if_neg hsize]
  by_cases hp : ¬ reader.pending.isEmpty
  · rw [if_pos hp, if_pos hp]
    exact ⟨used, Stands.spares_ok h .refl⟩
  rw [if_neg hp, if_neg hp]
  obtain ⟨now, hspares⟩ := advance_spares h
  refine ⟨now, ?_⟩
  generalize reader.advance = found at hspares ⊢
  rcases found with ⟨error | _ | bytes, next⟩
  · exact hspares
  · exact hspares
  · exact ⟨hspares.leads, hspares.within, hspares.stands, hspares.lacks⟩

/-- The reader that a call leaves. -/
def afterCall (reader : BodyReader) : BodyCall → BodyReader
  | .nextChunk => reader.nextChunk.2
  | .read size => (reader.read size).2
  | .skip => (reader.skipFrom 0).2

theorem call_snd (reader : BodyReader) (bodyCall : BodyCall) :
    (reader.call bodyCall).2 = reader.afterCall bodyCall := by
  cases bodyCall with
  | nextChunk =>
    rw [call, afterCall]
    rcases reader.nextChunk with ⟨error | _ | bytes, next⟩ <;> rfl
  | read size =>
    rw [call, afterCall]
    rcases reader.read size with ⟨error | bytes, next⟩ <;> rfl
  | skip =>
    rw [call, afterCall, skipBody]
    rcases reader.skipFrom 0 with ⟨error | count, next⟩ <;> rfl

theorem call_spares (bodyCall : BodyCall) (h : reader.Stands limits framing used) :
    ∃ now, Spares limits framing ⟨used, reader.inlet⟩ (reader.fault? bodyCall)
      (reader.call bodyCall).2 now := by
  rw [call_snd]
  cases bodyCall with
  | nextChunk => exact nextChunk_spares h
  | read size => exact read_spares size h
  | skip => exact skipFrom_spares 0 h

/-- The failures of calls that are made one after the other. -/
def faults (reader : BodyReader) : List BodyCall → List (Option (Failure ParseError))
  | [] => []
  | first :: others => reader.fault? first :: (reader.call first).2.faults others

/-- No call but the last fails in another way than by the source. -/
def Unbroken (reader : BodyReader) (calls : List BodyCall) : Prop :=
  ∀ failure, some failure ∈ (reader.faults calls).dropLast → failure.OfSource

/-! ### Behind the end -/

/-- The end has been found, and the inlet is left alone. -/
structure Rests (inlet : Inlet) (reader : BodyReader) : Prop where
  ended : reader.ended = true
  inlet_eq : reader.inlet = inlet

variable {inlet : Inlet}

theorem Rests.nextChunk (h : Rests inlet reader) : Rests inlet reader.nextChunk.2 := by
  unfold BodyReader.nextChunk
  split
  · rw [advance, if_pos h.ended]
    exact h
  · exact ⟨h.ended, h.inlet_eq⟩

theorem Rests.skipFrom (skipped : Nat) (h : Rests inlet reader) :
    Rests inlet (reader.skipFrom skipped).2 := by
  have hnext := h.nextChunk
  fun_induction BodyReader.skipFrom skipped reader with
  | case1 skipped reader error next hn => rwa [hn] at hnext
  | case2 skipped reader next hn => rwa [hn] at hnext
  | case3 skipped reader bytes next hn ih =>
    rw [hn] at hnext
    exact ih hnext hnext.nextChunk

theorem Rests.read (size : Nat) (h : Rests inlet reader) : Rests inlet (reader.read size).2 := by
  unfold BodyReader.read
  split
  · exact h
  split
  · exact ⟨h.ended, h.inlet_eq⟩
  · rw [advance, if_pos h.ended]
    exact h

theorem Rests.call (bodyCall : BodyCall) (h : Rests inlet reader) :
    Rests inlet (reader.call bodyCall).2 := by
  rw [call_snd]
  cases bodyCall with
  | nextChunk => exact h.nextChunk
  | read size => exact h.read size
  | skip => exact h.skipFrom 0

theorem Rests.run (calls : List BodyCall) (h : Rests inlet reader) :
    Rests inlet (reader.run calls).2 := by
  induction calls generalizing reader with
  | nil => exact h
  | cons first others ih => exact ih (h.call first)

theorem advance_none (h : reader.advance = (.ok none, next)) : next.ended = true := by
  have houtcome {reader : BodyReader} {item : Item} (h : reader.outcome item = (.ok none, next)) :
      next.ended = true := by
    cases item <;> cases h <;> rfl
  fun_induction advance reader with
  | case1 reader he => cases h; exact he
  | case2 => cases h
  | case3 => exact houtcome h
  | case4 reader he found reader' hi n inlet hf ih => exact ih h
  | case5 => exact houtcome h

theorem nextChunk_none (h : reader.nextChunk = (.ok none, next)) : next.ended = true := by
  unfold nextChunk at h
  split at h
  · exact advance_none h
  · cases h

theorem skipFrom_ok {skipped count : Nat} (h : reader.skipFrom skipped = (.ok count, next)) :
    next.ended = true := by
  fun_induction skipFrom skipped reader with
  | case1 => cases h
  | case2 skipped reader last hn => cases h; exact nextChunk_none hn
  | case3 skipped reader bytes between hn ih => exact ih h

theorem read_nil {size : Nat} (hs : 0 < size) (h : reader.read size = (.ok [], next)) :
    next.ended = true := by
  have hgive {reader : BodyReader} (hp : reader.pending ≠ []) : (reader.give size).1 ≠ [] :=
    (reader.give_some hs hp).1
  rw [read, if_neg (Nat.ne_of_gt hs)] at h
  split at h
  · next hp =>
    injection h with hgiven
    injection hgiven with hgiven
    exact absurd hgiven (hgive (by simpa using hp))
  split at h
  · cases h
  · next ha => cases h; exact advance_none ha
  · next bytes between ha =>
    injection h with hgiven
    injection hgiven with hgiven
    exact absurd hgiven (hgive (advance_some ha).1)

theorem call_ends {bodyCall : BodyCall} (h : (reader.call bodyCall).1.Ends) :
    (reader.call bodyCall).2.ended = true := by
  cases bodyCall with
  | nextChunk =>
    rw [call] at h ⊢
    rcases hn : reader.nextChunk with ⟨error | _ | bytes, next⟩
    · simp only [hn] at h; exact h.elim
    · exact nextChunk_none hn
    · simp only [hn] at h; exact h.elim
  | read size =>
    rw [call] at h ⊢
    rcases hr : reader.read size with ⟨error | bytes, next⟩
    · simp only [hr] at h; exact h.elim
    · simp only [hr] at h
      split at h
      · next hb => exact read_nil hb.2 (hb.1 ▸ hr)
      · exact h.elim
  | skip =>
    rw [call] at h ⊢
    rcases hs : reader.skipBody with ⟨error | count, next⟩
    · simp only [hs] at h; exact h.elim
    · exact skipFrom_ok hs

/-! ### All the calls -/

theorem run_append (reader : BodyReader) (earlier later : List BodyCall) :
    (reader.run (earlier ++ later)).2 = ((reader.run earlier).2.run later).2 := by
  induction earlier generalizing reader with
  | nil => rfl
  | cons first others ih => exact ih _

theorem faults_append (reader : BodyReader) (earlier later : List BodyCall) :
    reader.faults (earlier ++ later)
      = reader.faults earlier ++ (reader.run earlier).2.faults later := by
  induction earlier generalizing reader with
  | nil => rfl
  | cons first others ih => exact congrArg (reader.fault? first :: ·) (ih _)

theorem Unbroken.of_append {earlier later : List BodyCall}
    (h : reader.Unbroken (earlier ++ later)) : reader.Unbroken earlier := by
  rcases List.eq_nil_or_concat later with rfl | ⟨front, last, rfl⟩
  · rwa [List.append_nil] at h
  intro error he
  apply h error
  rw [List.concat_eq_append, faults_append, faults_append, faults, faults, ← List.append_assoc,
    List.dropLast_concat]
  exact List.mem_append_left _ (List.mem_of_mem_dropLast he)

theorem run_rests {calls : List BodyCall} (h : ∃ reply ∈ (reader.run calls).1, reply.Ends) :
    (reader.run calls).2.ended = true := by
  induction calls generalizing reader with
  | nil => simp [run] at h
  | cons first others ih =>
    obtain ⟨reply, hmem, hends⟩ := h
    rcases List.mem_cons.1 hmem with rfl | hmem
    · have hrests : Rests (reader.call first).2.inlet (reader.call first).2 :=
        ⟨call_ends hends, rfl⟩
      exact (hrests.run others).ended
    · exact ih ⟨reply, hmem, hends⟩

/-- Calls after which none has failed in another way than by the source. -/
theorem run_stands (calls : List BodyCall) (h : reader.Stands limits framing used)
    (hu : ∀ failure, some failure ∈ reader.faults calls → failure.OfSource) :
    ∃ now, Uptake.Leads framing.Lacks ⟨used, reader.inlet⟩ ⟨now, (reader.run calls).2.inlet⟩
      ∧ (reader.run calls).2.Stands limits framing now := by
  induction calls generalizing reader used with
  | nil => exact ⟨used, .refl, h⟩
  | cons first others ih =>
    obtain ⟨between, hcall⟩ := call_spares first h
    have hstands := hcall.stands fun error he => hu error (by simp [faults, he])
    obtain ⟨now, hl, hlast⟩ := ih hstands fun error he => hu error (List.mem_cons_of_mem _ he)
    exact ⟨now, hcall.leads.trans hl, hlast⟩

theorem run_spares (calls : List BodyCall) (h : reader.Stands limits framing used)
    (hu : reader.Unbroken calls) :
    ∃ now, Spares limits framing ⟨used, reader.inlet⟩ (reader.faults calls).getLast?.join
      (reader.run calls).2 now := by
  rcases List.eq_nil_or_concat calls with rfl | ⟨front, last, rfl⟩
  · exact ⟨used, h.spares_ok .refl⟩
  rw [List.concat_eq_append] at hu ⊢
  rw [Unbroken, faults_append, faults, faults, List.dropLast_concat] at hu
  obtain ⟨between, hl, hstands⟩ := run_stands front h hu
  obtain ⟨now, hspares⟩ := call_spares last hstands
  rw [run_append, faults_append, faults, faults, List.getLast?_concat]
  exact ⟨now, hspares.after_leads hl⟩

/-- Once the body is whole, calls that go on leave the source alone. -/
theorem more_spared {calls more : List BodyCall} {body : Bytes}
    (h : Spares limits framing before (reader.faults calls).getLast?.join (reader.run calls).2 used)
    (hu : reader.Unbroken (calls ++ more)) (hc : framing.Completes body)
    (hp : body <+: used ++ (reader.run calls).2.inlet.buffered) :
    ((reader.run calls).2.run more).2.inlet.source = (reader.run calls).2.inlet.source := by
  rcases List.eq_nil_or_concat more with rfl | ⟨front, last, rfl⟩
  · rfl
  rw [List.concat_eq_append] at hu ⊢
  rw [Unbroken, faults_append, faults_append, faults, faults, ← List.append_assoc,
    List.dropLast_concat] at hu
  have hstands : (reader.run calls).2.Stands limits framing used := by
    apply h.stands
    intro error he
    have hlast := Option.join_eq_some_iff.1 he
    exact hu error (List.mem_append_left _ (List.mem_of_getLast? hlast))
  have hlater : (reader.run calls).2.Unbroken (front ++ [last]) := by
    intro error he
    rw [faults_append, faults, faults, List.dropLast_concat] at he
    exact hu error (List.mem_append_right _ he)
  obtain ⟨now, hspares⟩ := run_spares (front ++ [last]) hstands hlater
  apply hspares.leads.source_eq
  intro uptake hgrown hlacks
  exact hlacks.2 body hc (hp.trans hgrown)

/-- For any calls up to the first failure that is not the source's: every read of the source comes
at a moment when nothing is buffered and the body is not whole (whichever read it is that fails, it
leaves the reader at that moment), and nothing behind a whole body is ever taken from the buffer.
Once the body is whole, or has been said to have ended, no further call reads. -/
theorem run_needed {limits : Limits} {framing : Framing} {inlet : Inlet} {calls : List BodyCall}
    (h : (start (.start limits framing) inlet).Unbroken calls) :
    ∃ replies next used, (start (.start limits framing) inlet).run calls = (replies, next)
      ∧ used ++ next.inlet.ahead = inlet.ahead
      ∧ Uptake.Leads framing.Lacks ⟨[], inlet⟩ ⟨used, next.inlet⟩
      ∧ (∀ cause, ((start (.start limits framing) inlet).faults calls).getLast?
          = some (some (.error (.io cause))) → framing.Lacks ⟨used, next.inlet⟩)
      ∧ (∀ body, framing.Completes body → body <+: used ++ next.inlet.buffered → used <+: body)
      ∧ ∀ more, (start (.start limits framing) inlet).Unbroken (calls ++ more) →
          ((∃ body, framing.Completes body ∧ body <+: used ++ next.inlet.buffered)
            ∨ ∃ reply ∈ replies, reply.Ends) →
          (next.run more).2.inlet.source = next.inlet.source := by
  generalize hr : start (.start limits framing) inlet = reader at h ⊢
  have hstands : reader.Stands limits framing [] := by
    subst hr
    exact .inl (.refl _)
  have hinlet : reader.inlet = inlet := by
    subst hr
    rfl
  obtain ⟨used, hspares⟩ := run_spares calls hstands h
  rw [hinlet] at hspares
  refine ⟨(reader.run calls).1, (reader.run calls).2, used, rfl, hspares.leads.ahead,
    hspares.leads, ?_, hspares.within, ?_⟩
  · intro cause hc
    exact hspares.lacks cause (by rw [hc]; rfl)
  · intro more hu hdone
    rcases hdone with ⟨body, hc, hbody⟩ | hends
    · exact more_spared hspares hu hc hbody
    · have hrests : Rests (reader.run calls).2.inlet (reader.run calls).2 := ⟨run_rests hends, rfl⟩
      rw [(hrests.run more).inlet_eq]

end BodyReader

/-! A chunked body in two reads, with failures of the source before them and more bytes behind. -/

namespace Patched

def pause : IoError := ⟨.wouldBlock, ""⟩

def inlet : Inlet where
  buffered := [51, 13, 10, 97]
  readSize := 64
  source := ⟨[.fail pause, .data [98, 99, 13, 10, 48, 13, 10], .fail pause,
    .data [13, 10, 71, 69]], #[]⟩

def body : BodyReader := .start (.start .none .chunked) inlet

def calls : List BodyCall := [.nextChunk, .nextChunk, .read 1, .nextChunk, .read 8, .nextChunk]

def more : List BodyCall := [.read 8, .nextChunk]

theorem unbroken_calls : body.Unbroken (calls ++ more) := by
  have hfaults : body.faults (calls ++ more)
      = [none, some (.error (.io pause)), none, none, some (.error (.io pause)), none, none,
        none] := by cbv
  intro failure he
  rw [hfaults] at he
  have hpause : failure = .error (.io pause) := by simpa using he
  rw [hpause]
  exact trivial

theorem run_needed_patched :
    body.Unbroken calls ∧ body.Unbroken (calls ++ more)
      ∧ (∃ next, body.run calls = ([.data [97], .failed (.error (.io pause)), .data [98],
            .data [99], .readFailed (.error pause), .ended], next)
          ∧ next.inlet.buffered = [71, 69]
          ∧ (next.run more).2.inlet.source = next.inlet.source)
      ∧ ∃ used, Framing.chunked.Lacks ⟨used, (body.run [.nextChunk, .nextChunk]).2.inlet⟩ := by
  have hcalls : body.Unbroken calls := unbroken_calls.of_append
  have hsplit : calls ++ more = [.nextChunk, .nextChunk] ++ (calls.drop 2 ++ more) := rfl
  have hfront : body.Unbroken [.nextChunk, .nextChunk] := by
    have hall := unbroken_calls
    rw [hsplit] at hall
    exact hall.of_append
  refine ⟨hcalls, unbroken_calls, ?_, ?_⟩
  · obtain ⟨replies, next, used, hrun, -, -, -, -, hmore⟩ := BodyReader.run_needed hcalls
    have hruns : body.run calls = ([.data [97], .failed (.error (.io pause)), .data [98],
        .data [99], .readFailed (.error pause), .ended], (body.run calls).2) := by cbv
    have hbuffered : (body.run calls).2.inlet.buffered = [71, 69] := by cbv
    have hsame : body.run calls = (replies, next) := hrun
    obtain ⟨hreplies, hnext⟩ := Prod.mk.inj (hruns.symm.trans hsame)
    rw [hnext] at hruns hbuffered
    refine ⟨next, hruns, hbuffered, hmore more unbroken_calls (.inr ⟨.ended, ?_, trivial⟩)⟩
    simp [← hreplies]
  · obtain ⟨replies, next, used, hrun, -, -, hlacks, -, -⟩ := BodyReader.run_needed hfront
    have hnext : (body.run [.nextChunk, .nextChunk]).2 = next := congrArg Prod.snd hrun
    have hfaults : body.faults [.nextChunk, .nextChunk] = [none, some (.error (.io pause))] := by
      cbv
    rw [hnext]
    exact ⟨used, hlacks pause (congrArg List.getLast? hfaults)⟩

end Patched
end Http1
