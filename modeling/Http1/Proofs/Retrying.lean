import Http1.Proofs.Halves
import Http1.Proofs.Pipeline

/-! A source whose reads fail now and then, beside the same source without its failures. One
attempt over the first either meets no failure and comes to what it comes to over the second, or it
reports the first failure and leaves everything so that making it again is as good as making it for
the first time (`Attempt`). So retrying is harmless for a head and for every call of a draining
(`retrying_harmless`). -/

namespace Http1

/-- The failure that a read passes on; one by an interruption makes it read again instead. -/
def ReadEvent.failure? : ReadEvent → Option IoError
  | .data _ => none
  | .fail error => if error.kind = .interrupted then none else some error

def ReadEvent.isData : ReadEvent → Bool
  | .data _ => true
  | .fail _ => false

namespace Source

/-- The failures that reads are still going to pass on. -/
def failures (source : Source) : List IoError := source.script.filterMap ReadEvent.failure?

/-- The one source is the other without its failures. -/
def CalmOf (calm noisy : Source) : Prop := calm.script = noisy.script.filter ReadEvent.isData

variable {calm noisy : Source}

theorem CalmOf.undelivered (h : calm.CalmOf noisy) : calm.undelivered = noisy.undelivered := by
  rw [Source.undelivered, Source.undelivered, h]
  induction noisy.script with
  | nil => rfl
  | cons event rest ih =>
    cases event with
    | data bytes => exact congrArg (bytes ++ ·) ih
    | fail error => exact ih

theorem failures_interrupted (source : Source) :
    ∀ error ∈ source.failures, error.kind ≠ .interrupted := by
  intro error he
  obtain ⟨event, -, hevent⟩ := List.mem_filterMap.1 he
  cases event with
  | data bytes => cases hevent
  | fail error' =>
    rw [ReadEvent.failure?] at hevent
    split at hevent
    · cases hevent
    · next hk =>
      cases hevent
      exact hk

/-- A read gives what it gives without failures, or passes on the first of them. -/
theorem read_calm (h : calm.CalmOf noisy) (offered : Nat) :
    (∃ bytes calm' noisy', calm.read offered = (.ok bytes, calm')
      ∧ noisy.read offered = (.ok bytes, noisy') ∧ calm'.CalmOf noisy'
      ∧ noisy'.failures = noisy.failures)
    ∨ ∃ error noisy', noisy.read offered = (.error error, noisy') ∧ calm.CalmOf noisy'
      ∧ noisy.failures = error :: noisy'.failures := by
  obtain ⟨script, calls⟩ := noisy
  obtain ⟨script', calls'⟩ := calm
  cases h
  induction script generalizing calls with
  | nil => exact .inl ⟨[], _, _, rfl, rfl, rfl, rfl⟩
  | cons event rest ih =>
    cases event with
    | data bytes =>
      refine .inl ⟨bytes.take offered, _, _, rfl, rfl, ?_, ?_⟩
      · unfold CalmOf
        simp only
        split
        · rfl
        · rfl
      · simp only [failures]
        split
        · rfl
        · rfl
    | fail error =>
      by_cases hk : error.kind = .interrupted
      · have hread : read ⟨.fail error :: rest, calls⟩ offered
            = read ⟨rest, calls.push (.read offered (.error error))⟩ offered := by
          rw [read, readFrom, if_pos hk]
          rfl
        have hfailures : failures ⟨.fail error :: rest, calls⟩ = failures ⟨rest, calls⟩ := by
          simp only [failures, List.filterMap_cons, ReadEvent.failure?, if_pos hk]
        rw [hread, hfailures]
        exact ih _
      · have hread : read ⟨.fail error :: rest, calls⟩ offered
            = (.error error, ⟨rest, calls.push (.read offered (.error error))⟩) := by
          rw [read, readFrom, if_neg hk]
        refine .inr ⟨error, _, hread, rfl, ?_⟩
        simp only [failures, List.filterMap_cons, ReadEvent.failure?, if_neg hk]

/-- No read brings a failure back. -/
theorem read_failures (source : Source) (offered : Nat) :
    (source.read offered).2.failures <:+ source.failures := by
  have hcalm : CalmOf ⟨source.script.filter ReadEvent.isData, #[]⟩ source := rfl
  rcases read_calm hcalm offered with ⟨_, _, next, _, hr, _, hf⟩ | ⟨error, next, hr, _, hf⟩
  · rw [hr, hf]
  · rw [hr, hf]
    exact List.suffix_cons error next.failures

end Source

section Retry

variable {σ α : Type} {CalmOf : σ → σ → Prop} {failures : σ → List IoError} {report : IoError → α}
  {attempt : σ → α × σ} {calm noisy : σ}

/-- One attempt beside the same attempt without failures. -/
inductive Attempt (CalmOf : σ → σ → Prop) (failures : σ → List IoError) (report : IoError → α)
    (attempt : σ → α × σ) (calm noisy : σ) : Prop
  /-- no failure was met -/
  | same {answer : α} {calm' noisy' : σ} (hc : attempt calm = (answer, calm'))
    (hn : attempt noisy = (answer, noisy')) (h : CalmOf calm' noisy')
    (hf : failures noisy' = failures noisy)
  /-- the first failure was reported, and the attempt is still to be made -/
  | failed {error : IoError} {calm' noisy' : σ} (hn : attempt noisy = (report error, noisy'))
    (hf : failures noisy = error :: failures noisy') (h : CalmOf calm' noisy')
    (hc : attempt calm' = attempt calm)

/-- An attempt that only goes on with another one. -/
theorem Attempt.of_eq {calm' noisy' : σ} (h : Attempt CalmOf failures report attempt calm' noisy')
    (hc : attempt calm = attempt calm') (hn : attempt noisy = attempt noisy')
    (hf : failures noisy' = failures noisy) :
    Attempt CalmOf failures report attempt calm noisy := by
  cases h with
  | same hc' hn' hnext hf' =>
    exact .same (hc.trans hc') (hn.trans hn') hnext (hf'.trans hf)
  | failed hn' hf' hnext hc' =>
    exact .failed (hn.trans hn') (hf.symm.trans hf') hnext (hc'.trans hc.symm)

/-- An attempt whose answers are put in other words. -/
theorem Attempt.map {β : Type} {other : σ → β × σ} {report' : IoError → β} (f : α → β)
    (h : Attempt CalmOf failures report attempt calm noisy)
    (ho : ∀ state, other state = (f (attempt state).1, (attempt state).2))
    (hr : ∀ error, f (report error) = report' error) :
    Attempt CalmOf failures report' other calm noisy := by
  cases h with
  | same hc hn hnext hf =>
    exact .same (by rw [ho, hc]) (by rw [ho, hn]) hnext hf
  | failed hn hf hnext hc =>
    exact .failed (by rw [ho, hn, hr]) hf hnext (by rw [ho, ho, hc])

/-- Makes an attempt again for as long as it meets a failure; the reports of these come first. -/
def retry (failures : σ → List IoError) (attempt : σ → α × σ) (state : σ) : List α × α × σ :=
  let (answer, next) := attempt state
  if (failures next).length < (failures state).length then
    let (reports, last) := retry failures attempt next
    (answer :: reports, last)
  else ([], answer, next)
termination_by (failures state).length

/-- The failures that were met have been reported, each of them once. -/
theorem retry_calm (hstep : ∀ calm noisy, CalmOf calm noisy →
      Attempt CalmOf failures report attempt calm noisy) (h : CalmOf calm noisy) :
    ∃ met answer calm' noisy', attempt calm = (answer, calm')
      ∧ retry failures attempt noisy = (met.map report, answer, noisy') ∧ CalmOf calm' noisy'
      ∧ failures noisy = met ++ failures noisy' := by
  fun_induction retry failures attempt noisy generalizing calm with
  | case1 noisy answer next ha hlt reports last hlast ih =>
    cases hstep calm noisy h with
    | same hc hn hnext hf =>
      rw [ha] at hn
      cases hn
      rw [hf] at hlt
      exact absurd hlt (Nat.lt_irrefl _)
    | failed hn hf hnext hc =>
      rw [ha] at hn
      cases hn
      obtain ⟨met, answer, calm', noisy', hcalm, hretry, hrest, hmet⟩ := ih hnext
      rw [hlast] at hretry
      cases hretry
      refine ⟨_ :: met, answer, calm', noisy', hc.symm.trans hcalm, rfl, hrest, ?_⟩
      rw [hf, hmet, List.cons_append]
  | case2 noisy answer next ha hlt =>
    cases hstep calm noisy h with
    | same hc hn hnext hf =>
      rw [ha] at hn
      cases hn
      exact ⟨[], answer, _, next, hc, rfl, hnext, hf.symm⟩
    | failed hn hf hnext hc =>
      rw [ha] at hn
      cases hn
      rw [hf, List.length_cons] at hlt
      omega

/-- Either a failure has been met, or the first attempt was the last. -/
theorem retry_first {state next : σ} {reports : List α} {answer : α}
    (hle : ∀ state, (failures (attempt state).2).length ≤ (failures state).length)
    (h : retry failures attempt state = (reports, answer, next)) :
    (failures next).length < (failures state).length
      ∨ (failures next).length = (failures state).length ∧ attempt state = (answer, next) := by
  fun_induction retry failures attempt state generalizing reports with
  | case1 state first between ha hlt others last hlast ih =>
    cases h
    rcases ih hlast with hless | ⟨heq, -⟩
    · exact .inl (Nat.lt_trans hless hlt)
    · exact .inl (heq ▸ hlt)
  | case2 state first between ha hlt =>
    cases h
    have hfirst := hle state
    rw [ha] at hfirst
    exact .inr ⟨Nat.le_antisymm hfirst (Nat.le_of_not_lt hlt), ha⟩

end Retry

namespace Inlet

def failures (inlet : Inlet) : List IoError := inlet.source.failures

structure CalmOf (calm noisy : Inlet) : Prop where
  buffered : calm.buffered = noisy.buffered
  readSize : calm.readSize = noisy.readSize
  source : calm.source.CalmOf noisy.source

variable {calm noisy : Inlet}

theorem CalmOf.ahead (h : calm.CalmOf noisy) : calm.ahead = noisy.ahead := by
  rw [Inlet.ahead, Inlet.ahead, h.buffered, h.source.undelivered]

/-- A read that gives something gives it without failures too. -/
theorem fill_ok {next : Inlet} {n : Nat} (h : calm.CalmOf noisy)
    (hn : noisy.fill = (.ok n, next)) :
    ∃ calm', calm.fill = (.ok n, calm') ∧ calm'.CalmOf next ∧ next.failures = noisy.failures := by
  rcases Source.read_calm h.source noisy.readSize with
    ⟨bytes, source, source', hc, hr, hs, hf⟩ | ⟨error, source', hr, -⟩
  · rw [fill, hr] at hn
    cases hn
    rw [← h.readSize] at hc
    have hfill : calm.fill = (.ok bytes.length, calm.fill.2) := by rw [fill, hc]
    refine ⟨calm.fill.2, hfill, ?_, hf⟩
    rw [fill, hc]
    exact ⟨by rw [h.buffered], h.readSize, hs⟩
  · rw [fill, hr] at hn
    cases hn

/-- A read that fails passes on the first failure and leaves the rest as it is. -/
theorem fill_failed {next : Inlet} {error : IoError} (h : calm.CalmOf noisy)
    (hn : noisy.fill = (.error error, next)) :
    calm.CalmOf next ∧ noisy.failures = error :: next.failures := by
  rcases Source.read_calm h.source noisy.readSize with
    ⟨bytes, source, source', hc, hr, hs, hf⟩ | ⟨error, source', hr, hs, hf⟩
  · rw [fill, hr] at hn
    cases hn
  · rw [fill, hr] at hn
    cases hn
    exact ⟨⟨h.buffered, h.readSize, hs⟩, hf⟩

/-- A head that is not complete yet takes one read, unless it is too large. -/
theorem readHead_wait {max : Nat} {inlet : Inlet} (hs : headEnd? inlet.buffered = none)
    (hm : inlet.buffered.length ≤ max) :
    inlet.readHead max = match inlet.fill with
      | (.error error, next) => (.error (.io error), next)
      | (.ok 0, next) =>
        (if next.buffered.isEmpty then .ok none
          else .error (.truncatedHead next.buffered.length), next)
      | (.ok (_ + 1), next) => next.readHead max := by
  rw [readHead, hs]
  simp only [if_pos hm]
  split
  · next hr => rw [hr]
  · next hr => rw [hr]
  · next hr => rw [hr]

theorem readHead_attempt (max : Nat) (calm noisy : Inlet) (h : calm.CalmOf noisy) :
    Attempt CalmOf failures (fun error => .error (.io error)) (readHead max) calm noisy := by
  fun_induction readHead max noisy generalizing calm with
  | case1 noisy size hs hm =>
    have hcalm : calm.readHead max = (.ok (some (noisy.take size).1), (calm.take size).2) := by
      rw [readHead, h.buffered, hs]
      simp only [if_pos hm, take, h.buffered]
    have hnoisy : noisy.readHead max = (.ok (some (noisy.take size).1), (noisy.take size).2) := by
      rw [readHead, hs]
      simp only [if_pos hm]
    exact .same hcalm hnoisy ⟨congrArg (List.drop size) h.buffered, h.readSize, h.source⟩ rfl
  | case2 noisy size hs hm =>
    have hlarge (inlet : Inlet) (hb : inlet.buffered = noisy.buffered) :
        inlet.readHead max = (.error (.tooLargeHeader size max), inlet) := by
      rw [readHead, hb, hs]
      simp only [if_neg hm]
    exact .same (hlarge calm h.buffered) (hlarge noisy rfl) h rfl
  | case3 noisy hs hm error next hr =>
    obtain ⟨hnext, hf⟩ := fill_failed h hr
    have hnoisy := readHead_wait hs hm
    rw [hr] at hnoisy
    exact .failed hnoisy hf hnext rfl
  | case4 noisy hs hm next hr =>
    obtain ⟨calm', hc, hnext, hf⟩ := fill_ok h hr
    have hcalm := readHead_wait (h.buffered ▸ hs) (h.buffered ▸ hm)
    have hnoisy := readHead_wait hs hm
    rw [hc] at hcalm
    rw [hr] at hnoisy
    simp only [hnext.buffered] at hcalm
    exact .same hcalm hnoisy hnext hf
  | case5 noisy hs hm n next hr ih =>
    obtain ⟨calm', hc, hnext, hf⟩ := fill_ok h hr
    have hcalm := readHead_wait (h.buffered ▸ hs) (h.buffered ▸ hm)
    have hnoisy := readHead_wait hs hm
    rw [hc] at hcalm
    rw [hr] at hnoisy
    exact (ih _ hnext).of_eq hcalm hnoisy hf
  | case6 noisy hs hm =>
    have hlarge (inlet : Inlet) (hb : inlet.buffered = noisy.buffered) :
        inlet.readHead max = (.error (.tooLargeHeader noisy.buffered.length max), inlet) := by
      rw [readHead, hb, hs]
      simp only [if_neg hm]
    exact .same (hlarge calm h.buffered) (hlarge noisy rfl) h rfl

end Inlet

namespace BodyReader

def failures (reader : BodyReader) : List IoError := reader.inlet.failures

structure CalmOf (calm noisy : BodyReader) : Prop where
  decoder : calm.decoder = noisy.decoder
  pending : calm.pending = noisy.pending
  ended : calm.ended = noisy.ended
  inlet : calm.inlet.CalmOf noisy.inlet

variable {reader calm noisy : BodyReader} {found : Decoded BodyDecoder}

theorem CalmOf.after (h : calm.CalmOf noisy) (found : Decoded BodyDecoder) :
    (calm.after found).CalmOf (noisy.after found) :=
  ⟨rfl, h.pending, h.ended, rfl, h.inlet.readSize, h.inlet.source⟩

/-- A read that gives something to the one reader gives it to the other. -/
theorem CalmOf.filled {inlet : Inlet} {n : Nat} (h : calm.CalmOf noisy)
    (hr : noisy.inlet.fill = (.ok n, inlet)) :
    ∃ inlet', calm.inlet.fill = (.ok n, inlet')
      ∧ CalmOf { calm with inlet := inlet' } { noisy with inlet }
      ∧ inlet.failures = noisy.failures := by
  obtain ⟨inlet', hc, hnext, hf⟩ := Inlet.fill_ok h.inlet hr
  exact ⟨inlet', hc, ⟨h.decoder, h.pending, h.ended, hnext⟩, hf⟩

/-- The buffered bytes are decoded alike. -/
theorem CalmOf.decoded (h : calm.CalmOf noisy)
    (hd : noisy.decoder.decode noisy.inlet.buffered = found) :
    calm.decoder.decode calm.inlet.buffered = found := by
  rw [h.decoder, h.inlet.buffered, hd]

theorem CalmOf.outcome (h : calm.CalmOf noisy) (item : Item) :
    ∃ answer calm' noisy', calm.outcome item = (answer, calm')
      ∧ noisy.outcome item = (answer, noisy') ∧ calm'.CalmOf noisy'
      ∧ noisy'.failures = noisy.failures := by
  have hended : CalmOf { calm with ended := true } { noisy with ended := true } :=
    ⟨h.decoder, h.pending, rfl, h.inlet⟩
  cases item with
  | needMore => exact ⟨.ok none, _, _, rfl, rfl, hended, rfl⟩
  | data bytes => exact ⟨.ok (some bytes), _, _, rfl, rfl, h, rfl⟩
  | endOfBody => exact ⟨.ok none, _, _, rfl, rfl, hended, rfl⟩
  | failed error => exact ⟨.error error, _, _, rfl, rfl, h, rfl⟩

/-- An item that is not complete yet takes one read. -/
theorem advance_wait (he : reader.ended = false)
    (hd : reader.decoder.decode reader.inlet.buffered = found) (hi : found.item = .needMore) :
    reader.advance = match (reader.after found).inlet.fill with
      | (.error error, inlet) => (.error (.error (.io error)), { reader.after found with inlet })
      | (.ok 0, inlet) =>
        let last := found.decoder.decodeEof inlet.buffered
        ({ reader.after found with inlet }.after last).outcome last.item
      | (.ok (_ + 1), inlet) => advance { reader.after found with inlet } := by
  subst hd
  rw [advance, he]
  simp only [Bool.false_eq_true, if_false]
  split
  · split
    · next hr => rw [hr]
    · next hr => rw [hr]; rfl
    · next hr => rw [hr]
  · next hn => exact absurd hi hn

/-- The bytes that were decoded are used up, and asking again goes on behind them. -/
theorem advance_after (he : reader.ended = false)
    (hd : reader.decoder.decode reader.inlet.buffered = found) (hi : found.item = .needMore) :
    (reader.after found).advance = reader.advance := by
  have hagain : found.decoder.decode found.rest = ⟨.needMore, found.decoder, []⟩ := by
    subst hd
    rw [(BodyDecoder.decode_needMore hi).2]
    exact BodyDecoder.decode_again hi
  have hsame : (reader.after found).after ⟨.needMore, found.decoder, []⟩ = reader.after found := by
    subst hd
    rw [after, after, (BodyDecoder.decode_needMore hi).2]
  rw [advance_wait (by exact he) hagain rfl, advance_wait he hd hi, hsame]

/-- An item that is complete takes none. -/
theorem advance_stay (he : reader.ended = false)
    (hd : reader.decoder.decode reader.inlet.buffered = found) (hi : found.item ≠ .needMore) :
    reader.advance = (reader.after found).outcome found.item := by
  subst hd
  rw [advance, he]
  simp only [Bool.false_eq_true, if_false]

theorem advance_attempt (calm noisy : BodyReader) (h : calm.CalmOf noisy) :
    Attempt CalmOf failures (fun error => .error (.error (.io error))) advance calm noisy := by
  fun_induction advance noisy generalizing calm with
  | case1 noisy he =>
    have hended (reader : BodyReader) (he : reader.ended = true) :
        reader.advance = (.ok none, reader) := by rw [advance, if_pos he]
    exact .same (hended calm (h.ended.trans he)) (hended noisy he) h rfl
  | case2 noisy he found noisy' hi error inlet hr =>
    have he' : noisy.ended = false := eq_false_of_ne_true he
    obtain ⟨hnext, hf⟩ := Inlet.fill_failed (h.after found).inlet hr
    have hnoisy := advance_wait he' rfl hi
    rw [hr] at hnoisy
    have hcalm := advance_after (h.ended.trans he') (h.decoded rfl) hi
    have hnext' : CalmOf (calm.after found) { noisy' with inlet } :=
      ⟨rfl, h.pending, h.ended, hnext⟩
    exact .failed hnoisy hf hnext' hcalm
  | case3 noisy he found noisy' hi inlet hr last =>
    have he' : noisy.ended = false := eq_false_of_ne_true he
    obtain ⟨inlet', hc, hnext, hf⟩ := (h.after found).filled hr
    have hnoisy := advance_wait he' rfl hi
    have hcalm := advance_wait (h.ended.trans he') (h.decoded rfl) hi
    rw [hr] at hnoisy
    rw [hc] at hcalm
    have hsame : inlet'.buffered = inlet.buffered := hnext.inlet.buffered
    simp only [hsame] at hcalm
    obtain ⟨answer, calm', last', hc', hn', hlast, hf'⟩ := (hnext.after last).outcome last.item
    exact .same (hcalm.trans hc') (hnoisy.trans hn') hlast (hf'.trans hf)
  | case4 noisy he found noisy' hi n inlet hr ih =>
    have he' : noisy.ended = false := eq_false_of_ne_true he
    obtain ⟨inlet', hc, hnext, hf⟩ := (h.after found).filled hr
    have hnoisy := advance_wait he' rfl hi
    have hcalm := advance_wait (h.ended.trans he') (h.decoded rfl) hi
    rw [hr] at hnoisy
    rw [hc] at hcalm
    exact (ih _ hnext).of_eq hcalm hnoisy hf
  | case5 noisy he found noisy' hi =>
    have he' : noisy.ended = false := eq_false_of_ne_true he
    have hnoisy := advance_stay he' rfl hi
    have hcalm := advance_stay (h.ended.trans he') (h.decoded rfl) hi
    obtain ⟨answer, calm', last, hc, hn, hlast, hf⟩ := (h.after found).outcome found.item
    exact .same (hcalm.trans hc) (hnoisy.trans hn) hlast hf

theorem nextChunk_attempt (calm noisy : BodyReader) (h : calm.CalmOf noisy) :
    Attempt CalmOf failures (fun error => .error (.error (.io error))) nextChunk calm noisy := by
  by_cases hp : noisy.pending = []
  · have hidle (reader : BodyReader) (hr : reader.pending = []) :
        reader.nextChunk = reader.advance := by
      rw [nextChunk, hr]
      rfl
    have hcalm := hidle calm (h.pending.trans hp)
    cases advance_attempt calm noisy h with
    | same hc hn hnext hf => exact .same (hcalm.trans hc) ((hidle noisy hp).trans hn) hnext hf
    | @failed error calm' noisy' hn hf hnext hc =>
      -- nothing is pending behind a failure either
      have hp' : calm'.pending = [] := hnext.pending.trans ((advance_failed hn).1.trans hp)
      refine .failed ((hidle noisy hp).trans hn) hf hnext ?_
      rw [hidle calm' hp', hcalm, hc]
  · have hgive (reader : BodyReader) (hr : reader.pending = noisy.pending) :
        reader.nextChunk = (.ok (some noisy.pending), { reader with pending := [] }) := by
      rw [nextChunk, hr, if_neg (by simpa using hp)]
    exact .same (hgive calm h.pending) (hgive noisy rfl) ⟨h.decoder, rfl, h.ended, h.inlet⟩ rfl

/-- A read that finds nothing pending gives the front of the next piece. -/
theorem read_idle {size : Nat} (hz : size ≠ 0) (hp : reader.pending = []) :
    reader.read size = match reader.advance with
      | (.error failure, next) => (.error (failure.map ParseError.toIo), next)
      | (.ok none, next) => (.ok [], next)
      | (.ok (some bytes), next) =>
        (.ok (bytes.take size), { next with pending := bytes.drop size }) := by
  rw [read, if_neg hz, if_neg (by simpa using hp)]
  rfl

theorem read_attempt (size : Nat) (calm noisy : BodyReader) (h : calm.CalmOf noisy) :
    Attempt CalmOf failures (fun error => .error (.error error)) (read · size) calm noisy := by
  by_cases hz : size = 0
  · have hnone (reader : BodyReader) : reader.read size = (.ok [], reader) := by
      rw [read, if_pos hz]
    exact .same (hnone calm) (hnone noisy) h rfl
  · by_cases hp : noisy.pending = []
    · have hcalm := read_idle hz (h.pending.trans hp)
      have hnoisy := read_idle hz hp
      cases advance_attempt calm noisy h with
      | @same answer calm' noisy' hc hn hnext hf =>
        rw [hc] at hcalm
        rw [hn] at hnoisy
        rcases answer with error | _ | bytes
        · exact .same hcalm hnoisy hnext hf
        · exact .same hcalm hnoisy hnext hf
        · exact .same hcalm hnoisy ⟨hnext.decoder, rfl, hnext.ended, hnext.inlet⟩ hf
      | @failed error calm' noisy' hn hf hnext hc =>
        have hp' : calm'.pending = [] := hnext.pending.trans ((advance_failed hn).1.trans hp)
        have hagain := read_idle hz hp'
        rw [hc, ← hcalm] at hagain
        rw [hn] at hnoisy
        exact .failed hnoisy hf hnext hagain
    · have hgive (reader : BodyReader) (hr : reader.pending = noisy.pending) :
          reader.read size = (.ok (noisy.pending.take size),
            { reader with pending := noisy.pending.drop size }) := by
        rw [read, if_neg hz, hr, if_pos (by simpa using hp), give, hr]
      exact .same (hgive calm h.pending) (hgive noisy rfl) ⟨h.decoder, rfl, h.ended, h.inlet⟩ rfl

end BodyReader

/-- The reply to a call for the next piece. -/
def Reply.ofChunk : Except (Failure ParseError) (Option Bytes) → Reply
  | .error failure => .failed failure
  | .ok none => .ended
  | .ok (some bytes) => .data bytes

/-- The reply to a read. -/
def Reply.ofRead (size : Nat) : Except (Failure IoError) Bytes → Reply
  | .error failure => .readFailed failure
  | .ok bytes => if bytes = [] ∧ 0 < size then .ended else .data bytes

/-- The reply passes on this failure of the source. -/
inductive Reply.Reports : Reply → IoError → Prop
  | failed (error : IoError) : Reports (.failed (.error (.io error))) error
  | readFailed (error : IoError) : Reports (.readFailed (.error error)) error

theorem BodyCall.failure_reports {bodyCall : BodyCall} (hw : bodyCall.Wants)
    (hs : bodyCall ≠ .skip) (error : IoError) :
    (bodyCall.failure (.error (.io error))).Reports error := by
  cases bodyCall with
  | nextChunk => exact .failed error
  | read size =>
    rw [failure, if_neg (Nat.ne_of_gt hw)]
    exact .readFailed error
  | skip => exact absurd rfl hs

namespace BodyReader

variable {bodyCall : BodyCall} {calm noisy : BodyReader} {plan : DrainPlan}

theorem call_attempt (hw : bodyCall.Wants) (hs : bodyCall ≠ .skip) (calm noisy : BodyReader)
    (h : calm.CalmOf noisy) :
    Attempt CalmOf failures (fun error => bodyCall.failure (.error (.io error))) (call · bodyCall)
      calm noisy := by
  cases bodyCall with
  | nextChunk =>
    refine (nextChunk_attempt calm noisy h).map Reply.ofChunk (fun reader => ?_) fun error => rfl
    rw [call]
    split
    · next hr => rw [hr]; rfl
    · next hr => rw [hr]; rfl
    · next hr => rw [hr]; rfl
  | read size =>
    refine (read_attempt size calm noisy h).map (Reply.ofRead size) (fun reader => ?_)
      fun error => ?_
    · rw [call]
      split
      · next hr => rw [hr]; rfl
      · next hr => rw [hr]; rfl
    · rw [BodyCall.failure, if_neg (Nat.ne_of_gt hw)]
      rfl
  | skip => exact absurd rfl hs

theorem call_failures (reader : BodyReader) (bodyCall : BodyCall) :
    (reader.call bodyCall).2.failures <:+ reader.failures := by
  have hkept : Inlet.Kept 0 fun inlet => inlet.source.failures <:+ reader.failures :=
    .ofSource (fun source offered hs => (source.read_failures offered).trans hs) 0
  exact call_keeps hkept reader bodyCall (List.suffix_refl _)

/-- Drains a body and makes every call again for as long as it meets a failure. The reports of these
come first, then the other replies. -/
def drainRetrying (plan : DrainPlan) (turn : Nat) (reader : BodyReader) :
    List Reply × List Reply × BodyReader :=
  match _h : retry failures (call · (plan.call turn)) reader with
  | (reports, .data bytes, next) =>
    let (more, replies, last) := drainRetrying plan (turn + 1) next
    (reports ++ more, .data bytes :: replies, last)
  | (reports, reply, next) => (reports, [reply], next)
termination_by (reader.failures.length, reader.ahead.length)
decreasing_by
  have hle (reader : BodyReader) := (call_failures reader (plan.call turn)).length_le
  rcases retry_first hle _h with hless | ⟨heq, hcall⟩
  · exact Prod.Lex.left _ _ hless
  · rw [heq]
    exact Prod.Lex.right _ (call_data_lt (plan.wants turn) hcall)

theorem drainRetrying_calm (hplan : ∀ turn, plan.call turn ≠ .skip) (turn : Nat)
    (calm noisy : BodyReader) (h : calm.CalmOf noisy) :
    ∃ met reports replies calm' noisy', calm.drainBy plan turn = (replies, calm')
      ∧ noisy.drainRetrying plan turn = (reports, replies, noisy') ∧ calm'.CalmOf noisy'
      ∧ noisy.failures = met ++ noisy'.failures ∧ List.Forall₂ Reply.Reports reports met := by
  have hreports (turn : Nat) (met : List IoError) : List.Forall₂ Reply.Reports
      (met.map fun error => (plan.call turn).failure (.error (.io error))) met :=
    List.forall₂_map_left_iff.2 (List.forall₂_same.2 fun error _ =>
      BodyCall.failure_reports (plan.wants turn) (hplan turn) error)
  fun_induction drainRetrying plan turn noisy generalizing calm with
  | case1 turn noisy reports bytes next hr more replies last hlast ih =>
    obtain ⟨met, answer, calm', noisy', hc, hn, hnext, hf⟩ :=
      retry_calm (call_attempt (plan.wants turn) (hplan turn)) h
    rw [hr] at hn
    cases hn
    obtain ⟨met', _, _, calm'', noisy'', hcalm, hnoisy, hend, hf', hmore⟩ := ih calm' hnext
    rw [hlast] at hnoisy
    cases hnoisy
    refine ⟨met ++ met', _, _, calm'', last, ?_, rfl, hend, ?_,
      List.rel_append (hreports turn met) hmore⟩
    · rw [drainBy_more hc, hcalm]
    · rw [hf, hf', List.append_assoc]
  | case2 turn noisy reports reply next hr hno =>
    obtain ⟨met, answer, calm', noisy', hc, hn, hnext, hf⟩ :=
      retry_calm (call_attempt (plan.wants turn) (hplan turn)) h
    rw [hno] at hn
    cases hn
    exact ⟨met, _, _, calm', next, drainBy_last hc hr, rfl, hnext, hf, hreports turn met⟩

end BodyReader

namespace Connection

def failures (connection : Connection) : List IoError :=
  match connection.state with
  | .opened _ session => session.inlet.failures
  | .unbound | .closed _ _ => []

/-- Open connections of one configuration, the source of the one being that of the other without
its failures. -/
structure CalmOf (calm noisy : Connection) : Prop where
  config : calm.config = noisy.config
  opened : ∃ addresses addresses' session session',
    calm.state = .opened addresses session ∧ noisy.state = .opened addresses' session'
      ∧ session.inlet.CalmOf session'.inlet

variable {connection calm noisy : Connection} {addresses : Addresses} {session : Session}

theorem CalmOf.ahead (h : calm.CalmOf noisy) : calm.ahead = noisy.ahead := by
  obtain ⟨-, _, _, session, session', hopen, hopen', hi⟩ := h
  rw [Connection.ahead, hopen, Connection.ahead, hopen']
  exact hi.ahead

theorem failures_interrupted (connection : Connection) :
    ∀ error ∈ connection.failures, error.kind ≠ .interrupted := by
  obtain ⟨config, strategy, state⟩ := connection
  cases state with
  | unbound => exact fun _ he => absurd he List.not_mem_nil
  | opened addresses session => exact session.inlet.source.failures_interrupted
  | closed addresses log => exact fun _ he => absurd he List.not_mem_nil

theorem receiveHead_eq {answer : Except ParseError (Option Bytes)} {inlet : Inlet}
    (hopen : connection.state = .opened addresses session)
    (hr : session.inlet.readHead connection.config.bufferSize = (answer, inlet)) :
    connection.receiveHead = (answer.mapError .parse, { connection with
      state := .opened addresses { session with
        inlet := { inlet with source := { inlet.source with calls := #[] } }
        log := session.log ++ inlet.source.calls } }) := by
  simp only [receiveHead, withSession, hopen, Session.receiving, hr]

theorem receiveHead_attempt (calm noisy : Connection) (h : calm.CalmOf noisy) :
    Attempt CalmOf failures (fun error => .error (.parse (.io error))) receiveHead calm noisy := by
  obtain ⟨hconfig, addresses, addresses', session, session', hopen, hopen', hi⟩ := h
  have hfailures : noisy.failures = session'.inlet.failures := by rw [failures, hopen']
  cases Inlet.readHead_attempt noisy.config.bufferSize session.inlet session'.inlet hi with
  | same hc hn hnext hf =>
    refine .same (receiveHead_eq hopen (by rw [hconfig, hc])) (receiveHead_eq hopen' hn) ?_ ?_
    · exact ⟨hconfig, _, _, _, _, rfl, rfl, hnext.buffered, hnext.readSize, hnext.source⟩
    · rw [hfailures]
      exact hf
  | @failed error inlet inlet' hn hf hnext hc =>
    rw [← hconfig] at hc
    have hagain : receiveHead { calm with
        state := .opened addresses { session with inlet := inlet } } = calm.receiveHead := by
      simp only [receiveHead, withSession, hopen, Session.receiving, hc]
    refine .failed (receiveHead_eq hopen' hn) (hfailures.trans hf) ?_ hagain
    exact ⟨hconfig, _, _, _, _, rfl, rfl, hnext.buffered, hnext.readSize, hnext.source⟩

end Connection

/-- A caller that makes its calls again gets what it gets without failures and leaves the same for
later. Each failure that was met has come to the surface once, and no interruption has. -/
structure Harmless {σ α β : Type} (CalmOf : σ → σ → Prop) (failures : σ → List IoError)
    (Reports : α → IoError → Prop) (noisy : σ) (calmly : β × σ) (retried : List α × β × σ) :
    Prop where
  answer : retried.2.1 = calmly.1
  left : CalmOf calmly.2 retried.2.2
  met : ∃ met, failures noisy = met ++ failures retried.2.2 ∧ List.Forall₂ Reports retried.1 met
    ∧ ∀ error ∈ met, error.kind ≠ .interrupted

/-- Read failures in the middle of a message are harmless to a caller that retries, be it for a head
or for the draining of a body by any decoder. -/
theorem retrying_harmless {calm noisy : Connection} {calmBody body : BodyReader} {plan : DrainPlan}
    (h : calm.CalmOf noisy) (hbody : calmBody.CalmOf body)
    (hplan : ∀ turn, plan.call turn ≠ .skip) :
    let head := retry Connection.failures Connection.receiveHead noisy
    let calmly := calmBody.drainBy plan 0
    let drained := body.drainRetrying plan 0
    Harmless Connection.CalmOf Connection.failures
        (fun report error => report = .error (.parse (.io error))) noisy calm.receiveHead head
      ∧ calm.receiveHead.2.ahead = head.2.2.ahead
      ∧ Harmless BodyReader.CalmOf BodyReader.failures Reply.Reports body calmly drained
      ∧ calmly.2.trailers = drained.2.2.trailers
      ∧ calmly.2.inlet.ahead = drained.2.2.inlet.ahead := by
  obtain ⟨met, answer, calm', noisy', hc, hn, hleft, hf⟩ :=
    retry_calm Connection.receiveHead_attempt h
  obtain ⟨met', reports, replies, calmLast, last, hcalm, hnoisy, hlast, hf', hreports⟩ :=
    BodyReader.drainRetrying_calm hplan 0 calmBody body hbody
  have hnever : ∀ error ∈ met, error.kind ≠ .interrupted := fun error he =>
    noisy.failures_interrupted error (hf ▸ List.mem_append_left _ he)
  have hnever' : ∀ error ∈ met', error.kind ≠ .interrupted := fun error he =>
    body.inlet.source.failures_interrupted error (by
      have hmem := List.mem_append_left last.failures he
      rwa [← hf'] at hmem)
  rw [hc, hn, hcalm, hnoisy]
  refine ⟨⟨rfl, hleft, met, hf, ?_, hnever⟩, hleft.ahead,
    ⟨rfl, hlast, met', hf', hreports, hnever'⟩,
    congrArg BodyDecoder.trailers hlast.decoder, hlast.inlet.ahead⟩
  exact List.forall₂_map_left_iff.2 (List.forall₂_same.2 fun error _ => rfl)

namespace TwoMessages

/-- An interruption and a timeout in front of every piece, and a reset behind the last one. -/
def disturbed (pieces : List Bytes) : List ReadEvent :=
  pieces.flatMap (fun piece => [.fail ⟨.interrupted, ""⟩, .fail ⟨.timedOut, ""⟩, .data piece])
    ++ [.fail ⟨.connectionReset, ""⟩]

def noisyConnection : Connection :=
  ((Connection.start .default fun _ => .ok .untilClose).bind
    { endpoint with reads := disturbed pieces }).2

/-- A chunk, the last chunk and a trailer, cut inside their line ends. -/
def bodyPieces : List Bytes :=
  [[49, 13], [10, 120, 13], [10, 48, 13], [10, 116, 58, 97, 13], [10, 13], [10, 90]]

def bodyOver (script : List ReadEvent) : BodyReader :=
  .start (.start .none .chunked) (.start 4 ⟨script, #[]⟩)

theorem plan_pulls (turn : Nat) : plan.call turn ≠ .skip := by
  simp only [plan]
  split
  · exact BodyCall.noConfusion
  · exact BodyCall.noConfusion

theorem connection_calm : connection.CalmOf noisyConnection :=
  ⟨rfl, _, _, _, _, rfl, rfl, rfl, rfl, rfl⟩

theorem body_calm : (bodyOver (bodyPieces.map .data)).CalmOf (bodyOver (disturbed bodyPieces)) :=
  ⟨rfl, rfl, rfl, rfl, rfl, rfl⟩

theorem retrying_disturbed :
    let head := retry Connection.failures Connection.receiveHead noisyConnection
    let calmly := (bodyOver (bodyPieces.map .data)).drainBy plan 0
    let drained := (bodyOver (disturbed bodyPieces)).drainRetrying plan 0
    Harmless Connection.CalmOf Connection.failures
        (fun report error => report = .error (.parse (.io error))) noisyConnection
        connection.receiveHead head
      ∧ connection.receiveHead.2.ahead = head.2.2.ahead
      ∧ Harmless BodyReader.CalmOf BodyReader.failures Reply.Reports
        (bodyOver (disturbed bodyPieces)) calmly drained
      ∧ calmly.2.trailers = drained.2.2.trailers
      ∧ calmly.2.inlet.ahead = drained.2.2.inlet.ahead :=
  retrying_harmless connection_calm body_calm plan_pulls

end TwoMessages
end Http1
