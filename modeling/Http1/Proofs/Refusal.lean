import Http1.Proofs.SteadyBody

/-! What a chunked body reader does after a failure. A refused byte is gone and the phase is still
there, so the next call goes on behind that byte. Some phases are locked: every byte is refused in
them or leads to another locked phase (`Phase.Locked.step`), and a reader in a locked phase gives
nothing more (`BodyReader.Shut.run`). A size line that is too long, too many trailers and bad fields
lock the phase; a fault in the framing of a chunk does not, and with the right bytes the body goes
on (`Phase.locked_or_revives`). -/

namespace Http1

namespace Chunked

theorem Limits.lineFault?_mono {limits : Limits} {line longer : Nat}
    (h : (limits.lineFault? line).isSome) (hl : line ≤ longer) :
    (limits.lineFault? longer).isSome := by
  unfold lineFault? at h ⊢
  split
  · next hnone =>
    rw [hnone] at h
    cases h
  · next max hmax =>
    rw [hmax] at h
    dsimp only at h
    split at h
    · cases h
    · rw [if_neg (by omega)]
      rfl

theorem Limits.isSome_of_fault {limits : Limits} {line : Nat} {error : ParseError}
    (h : limits.lineFault? line = some error) : (limits.lineFault? line).isSome := by
  rw [h]
  rfl

theorem Limits.lineFault?_none {limits : Limits} {line longer : Nat}
    (h : limits.lineFault? longer = .none) (hl : line ≤ longer) :
    limits.lineFault? line = .none := by
  rcases hf : limits.lineFault? line with - | error
  · rfl
  · have hsome := lineFault?_mono (isSome_of_fault hf) hl
    rw [h] at hsome
    cases hsome

/-- The step delivers nothing, and the phase behind it is as `goal` says. -/
def Step.Stays (goal : Phase → Prop) : Step → Prop
  | .moved next => goal next
  | .delivered _ => False
  | .refused here _ => goal here

namespace Phase

/-- No byte leads on from here. A size line needs at least its first digit and its CR within the
limit. -/
def Locked (limits : Limits) : Phase → Prop
  | size none line => (limits.lineFault? (line + 2)).isSome
  | size (some _) line | sizeBlank _ line | extension _ line =>
    (limits.lineFault? (line + 1)).isSome
  | data 0 | dataLf => (limits.lineFault? 2).isSome
  | trailerLf collected => ∃ max, limits.fieldCount = some max ∧ max ≤ collected.lines
  | endLf collected => ∃ failure, collected.trailers = .error failure
  | sizeLf _ | data (_ + 1) | endCr _ | trailer _ _ | done _ => False

variable {limits : Limits} {phase next here : Phase} {b : UInt8}

theorem stepSize_locked {line : Nat} (h : (limits.lineFault? (line + 1)).isSome) (b : UInt8) :
    (stepSize none line b).Stays (Locked limits) := by
  have hmore := Limits.lineFault?_mono h (Nat.le_succ _)
  unfold stepSize
  split
  · dsimp only
    split
    · exact h
    · exact hmore
  · split
    · exact hmore
    · exact hmore
  · next heq => cases heq

theorem Locked.step (h : phase.Locked limits) (b : UInt8) :
    (phase.step limits b).Stays (Locked limits) := by
  cases phase with
  | size value line =>
    simp only [Phase.step]
    split
    · next error herror =>
      have hfault := Limits.isSome_of_fault herror
      cases value with
      | none => exact Limits.lineFault?_mono hfault (by omega)
      | some known => exact Limits.lineFault?_mono hfault (by omega)
    · next hnone =>
      cases value with
      | none => exact stepSize_locked h b
      | some known =>
        rw [Locked, hnone] at h
        cases h
  | sizeBlank value line =>
    simp only [Phase.step]
    split
    · exact Limits.lineFault?_mono h (Nat.le_succ _)
    · next hnone =>
      rw [Locked, hnone] at h
      cases h
  | extension value line =>
    simp only [Phase.step]
    split
    · exact Limits.lineFault?_mono h (Nat.le_succ _)
    · next hnone =>
      rw [Locked, hnone] at h
      cases h
  | sizeLf value => exact h.elim
  | data left =>
    cases left with
    | zero =>
      simp only [Phase.step]
      split
      · exact h
      · exact h
    | succ left => exact h.elim
  | dataLf =>
    simp only [Phase.step]
    split
    · exact h
    · exact h
  | endCr collected => exact h.elim
  | trailer collected line => exact h.elim
  | trailerLf collected =>
    obtain ⟨max, hmax, hle⟩ := h
    simp only [Phase.step]
    split
    · have hlong : ¬ collected.endLine.lines ≤ max := Nat.not_le.2 (Nat.lt_succ_of_le hle)
      rw [stepTrailerLf, hmax]
      simp only [hlong, if_false]
      exact ⟨max, hmax, Nat.le_succ_of_le hle⟩
    · exact ⟨max, hmax, hle⟩
  | endLf collected =>
    obtain ⟨fault, hfault⟩ := h
    simp only [Phase.step]
    split
    · rw [stepEndLf, hfault]
      exact ⟨fault, hfault⟩
    · exact ⟨fault, hfault⟩
  | done trailers => exact h.elim

/-- Decoding in a locked phase gives neither data nor the end. -/
theorem Locked.decode (h : phase.Locked limits) (src : Bytes) :
    (phase.decode limits src).decoder.Locked limits
      ∧ ((phase.decode limits src).item = .needMore
        ∨ ∃ failure, (phase.decode limits src).item = .failed failure) := by
  fun_induction Phase.decode limits phase src with
  | case1 phase =>
    refine ⟨h, .inl ?_⟩
    cases phase with
    | done trailers => exact h.elim
    | _ => rfl
  | case2 => exact h.elim
  | case3 => exact h.elim
  | case4 b rest phase hdone hdata next hs ih =>
    have hstays := h.step b
    rw [hs] at hstays
    exact ih hstays
  | case5 b rest phase hdone hdata next hs ih =>
    have hstays := h.step b
    rw [hs] at hstays
    exact hstays.elim
  | case6 b rest phase hdone hdata here failure hs =>
    have hstays := h.step b
    rw [hs] at hstays
    exact ⟨hstays, .inr ⟨failure, rfl⟩⟩

/-- Some text leads from here to data or to the end of the body. -/
def Revives (limits : Limits) (phase : Phase) : Prop :=
  ∃ text, (phase.scan limits text).data ≠ [] ∨ (phase.scan limits text).last.item = .endOfBody

theorem Revives.of_moved (h : next.Revives limits) (hd : phase.isDone = false) (b : UInt8)
    (hs : phase.step limits b = .moved next) : phase.Revives limits := by
  obtain ⟨text, ht⟩ := h
  refine ⟨b :: text, ?_⟩
  rw [scan_moved hd hs]
  exact ht

/-- The phases in which the framing of a chunk can be at fault. -/
def isFraming : Phase → Prop
  | size _ _ | sizeBlank _ _ | extension _ _ | sizeLf _ | data 0 | dataLf | endLf _ => True
  | data (_ + 1) | endCr _ | trailer _ _ | trailerLf _ | done _ => False

theorem endLf_revives {collected : Section} {trailers : Option Headers}
    (h : collected.trailers = .ok trailers) : (endLf collected).Revives limits := by
  have hdone : (done trailers).Revives limits := ⟨[], .inr rfl⟩
  refine hdone.of_moved rfl Byte.lf ?_
  rw [step, if_pos rfl, stepEndLf, h]

theorem sizeLf_revives (limits : Limits) (value : Nat) : (sizeLf value).Revives limits := by
  have hmoved : (if value = 0 then endCr .empty else data value).Revives limits := by
    split
    · have hend : (endLf .empty).Revives limits := endLf_revives rfl
      exact hend.of_moved rfl Byte.cr rfl
    · next hne =>
      obtain ⟨left, rfl⟩ := Nat.exists_eq_succ_of_ne_zero hne
      exact ⟨[0], .inl (List.cons_ne_nil _ _)⟩
  exact hmoved.of_moved rfl Byte.lf rfl

/-- The CR of a size line has to be within the limit. -/
theorem sized_revives {value line : Nat} (h : limits.lineFault? (line + 1) = none) :
    (size (some value) line).Revives limits ∧ (sizeBlank value line).Revives limits
      ∧ (extension value line).Revives limits := by
  have hlf := sizeLf_revives limits value
  refine ⟨hlf.of_moved rfl Byte.cr ?_, hlf.of_moved rfl Byte.cr ?_, hlf.of_moved rfl Byte.cr ?_⟩
  · rw [step, h]
    rfl
  · rw [step, h]
    rfl
  · rw [step, h]
    rfl

theorem size_revives {line : Nat} (h : limits.lineFault? (line + 2) = none) :
    (size none line).Revives limits := by
  have hzero : (size (some 0) (line + 1)).Revives limits := (sized_revives h).1
  have hfirst := Limits.lineFault?_none h (Nat.le_succ (line + 1))
  refine hzero.of_moved rfl 48 ?_
  rw [step, hfirst]
  rfl

theorem dataLf_revives (h : limits.lineFault? 2 = none) : dataLf.Revives limits := by
  have hsize : (size none 0).Revives limits := size_revives h
  exact hsize.of_moved rfl Byte.lf rfl

/-- A chunk whose framing is at fault goes on with the right bytes, unless the line limit or the
trailers are in the way. -/
theorem locked_or_revives (h : phase.isFraming) : phase.Locked limits ∨ phase.Revives limits := by
  have hline {line : Nat} (hn : ¬ (limits.lineFault? line).isSome) :
      limits.lineFault? line = none := Option.not_isSome_iff_eq_none.1 hn
  by_cases hl : phase.Locked limits
  · exact .inl hl
  right
  cases phase with
  | size value line =>
    cases value with
    | none => exact size_revives (hline hl)
    | some known => exact (sized_revives (hline hl)).1
  | sizeBlank value line => exact (sized_revives (hline hl)).2.1
  | extension value line => exact (sized_revives (hline hl)).2.2
  | sizeLf value => exact sizeLf_revives limits value
  | data left =>
    cases left with
    | zero => exact (dataLf_revives (hline hl)).of_moved rfl Byte.cr rfl
    | succ left => exact h.elim
  | dataLf => exact dataLf_revives (hline hl)
  | endCr collected => exact h.elim
  | trailer collected line => exact h.elim
  | trailerLf collected => exact h.elim
  | endLf collected =>
    cases ht : collected.trailers with
    | ok trailers => exact endLf_revives ht
    | error fault => exact absurd ⟨fault, ht⟩ hl
  | done trailers => exact h.elim

/-- The phases in which a line of the trailer section can be too long. -/
def isTrailer : Phase → Prop
  | endCr _ | trailer _ _ => True
  | _ => False

/-- The phase in which a byte was refused, by the failure that was given. -/
inductive Refuses (limits : Limits) (here : Phase) : Failure ParseError → Prop
  | framing (fault : ChunkFault) (h : here.isFraming) : Refuses limits here (.error fault.error)
  | longLine (max : Nat) (h : here.Locked limits ∨ here.isTrailer) :
    Refuses limits here (.error (.tooLongLine max))
  | count (max : Nat) (h : here.Locked limits) :
    Refuses limits here (.error (.tooManyTrailers max))
  | field (reason : String) (h : here.Locked limits ∨ ∃ collected, here = .trailerLf collected) :
    Refuses limits here (.error (.invalidTrailer reason))
  | overrun (h : here.Locked limits) : Refuses limits here .overrun

theorem refuses_fault {line : Nat} {error : ParseError} (h : limits.lineFault? line = some error)
    (hl : here.Locked limits ∨ here.isTrailer) : Refuses limits here (.error error) := by
  unfold Limits.lineFault? at h
  split at h
  · cases h
  · next max hmax =>
    split at h
    · cases h
    · cases h
      exact .longLine max hl

variable {failure : Failure ParseError}

theorem stepSize_refuses {value : Option Nat} {line : Nat}
    (hs : stepSize value line b = .refused here failure) : Refuses limits here failure := by
  unfold stepSize at hs
  split at hs
  · dsimp only at hs
    split at hs
    · cases hs
    · cases hs
      exact .framing _ trivial
  · split at hs
    · cases hs
      exact .framing _ trivial
    · cases hs
      exact .framing _ trivial
  · split at hs
    · cases hs
    split at hs
    · cases hs
    split at hs
    · cases hs
    · cases hs
      exact .framing _ trivial

theorem stepSizeBlank_refuses {value line : Nat}
    (hs : stepSizeBlank value line b = .refused here failure) : Refuses limits here failure := by
  unfold stepSizeBlank at hs
  split at hs
  · cases hs
  split at hs
  · cases hs
  split at hs
  · cases hs
  · cases hs
    exact .framing _ trivial

theorem stepExtension_refuses {value line : Nat}
    (hs : stepExtension value line b = .refused here failure) : Refuses limits here failure := by
  unfold stepExtension at hs
  split at hs
  · cases hs
  split at hs
  · cases hs
    exact .framing _ trivial
  · cases hs

theorem stepTrailerLf_refuses {collected : Section}
    (hs : stepTrailerLf limits collected = .refused here failure) :
    Refuses limits here failure := by
  unfold stepTrailerLf at hs
  split at hs
  · cases hs
  · next max hmax =>
    split at hs
    · cases hs
    · next hlong =>
      cases hs
      exact .count max ⟨max, hmax, by omega⟩

theorem stepEndLf_refuses {collected : Section}
    (hs : stepEndLf collected = .refused here failure) : Refuses limits here failure := by
  unfold stepEndLf at hs
  split at hs
  · cases hs
  · next failure hfailure =>
    cases hs
    cases failure with
    | error fault => exact .field _ (.inl ⟨.error fault, hfailure⟩)
    | overrun => exact .overrun ⟨.overrun, hfailure⟩

theorem step_refuses (hs : phase.step limits b = .refused here failure) :
    Refuses limits here failure := by
  cases phase with
  | size value line =>
    simp only [step] at hs
    split at hs
    · next fault hfault =>
      cases hs
      refine refuses_fault hfault (.inl ?_)
      have hlong := Limits.isSome_of_fault hfault
      cases value with
      | none => exact Limits.lineFault?_mono hlong (by omega)
      | some known => exact Limits.lineFault?_mono hlong (by omega)
    · exact stepSize_refuses hs
  | sizeBlank value line =>
    simp only [step] at hs
    split at hs
    · next fault hfault =>
      cases hs
      exact refuses_fault hfault
        (.inl (Limits.lineFault?_mono (Limits.isSome_of_fault hfault) (Nat.le_succ _)))
    · exact stepSizeBlank_refuses hs
  | extension value line =>
    simp only [step] at hs
    split at hs
    · next fault hfault =>
      cases hs
      exact refuses_fault hfault
        (.inl (Limits.lineFault?_mono (Limits.isSome_of_fault hfault) (Nat.le_succ _)))
    · exact stepExtension_refuses hs
  | sizeLf value =>
    simp only [step] at hs
    split at hs
    · cases hs
    · cases hs
      exact .framing _ trivial
  | data left =>
    cases left with
    | zero =>
      simp only [step] at hs
      split at hs
      · cases hs
      · cases hs
        exact .framing _ trivial
    | succ left => cases hs
  | dataLf =>
    simp only [step] at hs
    split at hs
    · cases hs
    · cases hs
      exact .framing _ trivial
  | endCr collected =>
    simp only [step] at hs
    split at hs
    · cases hs
    split at hs
    · next fault hfault =>
      cases hs
      exact refuses_fault hfault (.inr trivial)
    · cases hs
  | trailer collected line =>
    simp only [step] at hs
    split at hs
    · cases hs
    split at hs
    · next fault hfault =>
      cases hs
      exact refuses_fault hfault (.inr trivial)
    · cases hs
  | trailerLf collected =>
    simp only [step] at hs
    split at hs
    · exact stepTrailerLf_refuses hs
    · cases hs
      exact .field _ (.inr ⟨collected, rfl⟩)
  | endLf collected =>
    simp only [step] at hs
    split at hs
    · exact stepEndLf_refuses hs
    · cases hs
      exact .framing _ trivial
  | done trailers => cases hs

/-- What a decoder that has failed says about the phase it stopped in. -/
inductive Explains (limits : Limits) (here : Phase) : Failure ParseError → Prop
  | source (error : IoError) : Explains limits here (.error (.io error))
  | truncated : Explains limits here (.error here.truncated)
  | refused {failure : Failure ParseError} (h : Refuses limits here failure) :
    Explains limits here failure

theorem decode_explains (limits : Limits) (phase : Phase) (src : Bytes)
    (h : (phase.decode limits src).item = .failed failure) :
    Explains limits (phase.decode limits src).decoder failure := by
  fun_induction Phase.decode limits phase src with
  | case1 phase =>
    dsimp only at h
    split at h
    · cases h
    · cases h
  | case2 => cases h
  | case3 => cases h
  | case4 b rest phase hdone hdata next hs ih => exact ih h
  | case5 b rest phase hdone hdata next hs ih => exact ih h
  | case6 b rest phase hdone hdata here failure hs =>
    cases h
    exact .refused (step_refuses hs)

end Phase
end Chunked

open Chunked (Limits Phase)

variable {limits : Limits} {phase : Phase}

namespace BodyDecoder

/-- A decoder of chunked bodies in a locked phase. -/
def Locked (limits : Limits) (decoder : BodyDecoder) : Prop :=
  ∃ phase, decoder = .chunked limits phase ∧ phase.Locked limits

variable {decoder : BodyDecoder}

theorem Locked.decode (h : decoder.Locked limits) (src : Bytes) :
    (decoder.decode src).decoder.Locked limits ∧ ((decoder.decode src).item = .needMore
      ∨ ∃ failure, (decoder.decode src).item = .failed failure) := by
  obtain ⟨phase, rfl, hl⟩ := h
  obtain ⟨hlocked, hitem⟩ := Phase.Locked.decode hl src
  exact ⟨⟨_, rfl, hlocked⟩, hitem⟩

theorem Locked.decodeEof (h : decoder.Locked limits) (src : Bytes) :
    (decoder.decodeEof src).decoder.Locked limits
      ∧ ∃ failure, (decoder.decodeEof src).item = .failed failure := by
  obtain ⟨⟨here, hdecoder, hlocked⟩, hitem⟩ := h.decode src
  unfold BodyDecoder.decodeEof
  rcases hitem with hmore | ⟨failure, hfailed⟩
  · simp only [hmore, hdecoder]
    exact ⟨⟨here, rfl, hlocked⟩, .error here.truncated, rfl⟩
  · simp only [hfailed]
    exact ⟨⟨here, hdecoder, hlocked⟩, failure, rfl⟩

/-- The decoder is one of chunked bodies, and its phase explains a failure. -/
def Accounts (limits : Limits) (decoder : BodyDecoder) (failed : Failure ParseError → Prop) :
    Prop :=
  ∃ here, decoder = .chunked limits here ∧ ∀ failure, failed failure → here.Explains limits failure

theorem decode_accounts (hd : decoder = .chunked limits phase) (src : Bytes) :
    (decoder.decode src).decoder.Accounts limits ((decoder.decode src).item = .failed ·) := by
  subst hd
  exact ⟨_, rfl, fun _ h => phase.decode_explains limits src h⟩

theorem decodeEof_accounts (hd : decoder = .chunked limits phase) (src : Bytes) :
    (decoder.decodeEof src).decoder.Accounts limits ((decoder.decodeEof src).item = .failed ·) := by
  obtain ⟨here, hdecoder, hexplains⟩ := decode_accounts hd src
  unfold decodeEof
  dsimp only
  split
  · rw [hdecoder]
    refine ⟨here, rfl, ?_⟩
    intro failure h
    cases h
    exact .truncated
  · exact ⟨here, hdecoder, hexplains⟩

end BodyDecoder

/-- The reply hands out no byte of a body and does not say that it has ended. -/
def Reply.Barren : Reply → Prop
  | .data bytes => bytes = []
  | .failed _ | .readFailed _ | .skipFailed _ => True
  | .skipped _ | .ended => False

theorem BodyCall.failure_barren (failure : Failure ParseError) (bodyCall : BodyCall) :
    (bodyCall.failure failure).Barren := by
  cases bodyCall with
  | nextChunk => trivial
  | skip => trivial
  | read size =>
    rw [BodyCall.failure]
    split
    · rfl
    · trivial

namespace BodyReader

variable {reader next : BodyReader}

/-- Nothing is pending in a phase that is locked. -/
structure Shut (limits : Limits) (reader : BodyReader) : Prop where
  idle : reader.Idle
  locked : reader.decoder.Locked limits

theorem advance_locked (he : reader.ended = false) (h : reader.decoder.Locked limits) :
    ∃ failure next, reader.advance = (.error failure, next) ∧ next.decoder.Locked limits := by
  fun_induction advance reader with
  | case1 reader hended =>
    rw [he] at hended
    cases hended
  | case2 reader _ found reader' hi error inlet hf =>
    exact ⟨.error (.io error), _, rfl, (h.decode reader.inlet.buffered).1⟩
  | case3 reader _ found reader' hi inlet hf last =>
    obtain ⟨hopen, -⟩ := h.decode reader.inlet.buffered
    obtain ⟨hlocked, failure, hitem⟩ := hopen.decodeEof inlet.buffered
    have hlast : last.item = .failed failure := hitem
    rw [hlast]
    exact ⟨failure, _, rfl, hlocked⟩
  | case4 reader _ found reader' hi n inlet hf ih =>
    exact ih he (h.decode reader.inlet.buffered).1
  | case5 reader _ found reader' hi =>
    obtain ⟨hlocked, hitem⟩ := h.decode reader.inlet.buffered
    obtain ⟨failure, hfailed⟩ := hitem.resolve_left hi
    have hfound : found.item = .failed failure := hfailed
    rw [hfound]
    exact ⟨failure, _, rfl, hlocked⟩

theorem Shut.call (h : Shut limits reader) (bodyCall : BodyCall) :
    ∃ reply next, reader.call bodyCall = (reply, next) ∧ reply.Barren ∧ Shut limits next := by
  obtain ⟨failure, next, hadvance, hlocked⟩ := advance_locked h.idle.ended h.locked
  obtain ⟨hpending, hended⟩ := advance_failed hadvance
  have hnext : Shut limits next := ⟨⟨hpending.trans h.idle.pending, hended⟩, hlocked⟩
  have hbarren := bodyCall.failure_barren failure
  obtain ⟨last, hcall, rfl | rfl⟩ := call_fails h.idle.pending hadvance bodyCall
  · exact ⟨_, last, hcall, hbarren, hnext⟩
  · exact ⟨_, last, hcall, hbarren, h⟩

theorem Shut.run (h : Shut limits reader) (calls : List BodyCall) :
    ∀ reply ∈ (reader.run calls).1, reply.Barren := by
  induction calls generalizing reader with
  | nil =>
    intro reply hr
    cases hr
  | cons first others ih =>
    obtain ⟨answer, next, hcall, hbarren, hnext⟩ := h.call first
    intro reply hr
    rw [BodyReader.run, hcall] at hr
    rcases List.mem_cons.1 hr with rfl | hr
    · exact hbarren
    · exact ih hnext reply hr

/-- Whatever comes next, no call delivers anything. -/
def Final (reader : BodyReader) : Prop :=
  ∀ (inlet : Inlet) (calls : List BodyCall),
    ∀ reply ∈ (({ reader with inlet } : BodyReader).run calls).1, reply.Barren

theorem final_of_locked (hi : reader.Idle) (h : reader.decoder.Locked limits) : reader.Final := by
  intro inlet calls
  have hshut : Shut limits { reader with inlet } := ⟨⟨hi.pending, hi.ended⟩, h⟩
  exact hshut.run calls

/-- Data or the end that lie ahead are handed out by the next call. -/
theorem call_fruitful (hs : reader.inlet.Steady)
    (hf : reader.future.data ≠ [] ∨ reader.future.last.item = .endOfBody) :
    ¬ (reader.call .nextChunk).1.Barren := by
  have hy := nextChunk_yields hs
  rw [call]
  generalize reader.nextChunk = came at hy ⊢
  generalize reader.future = future at hy hf
  cases hy with
  | data hne => exact hne
  | ended => exact id
  | failed _ hfailed =>
    subst hfailed
    rcases hf with hdata | hitem
    · exact absurd rfl hdata
    · cases hitem

theorem not_final_of_revives (hi : reader.Idle) (hd : reader.decoder = .chunked limits phase)
    (hr : phase.Revives limits) : ¬ reader.Final := by
  obtain ⟨text, ht⟩ := hr
  have hfuture : ({ reader with inlet := ⟨⟨text, 1, 0⟩, ⟨[], #[]⟩⟩ } : BodyReader).future
      = BodyDecoder.closeScan ((phase.scan limits text).map (.chunked limits)) := by
    rw [future_fresh (by exact hi.ended) (by exact hi.pending), BodyDecoder.whole, hd,
      BodyDecoder.scan_chunked, Inlet.ahead, Source.undelivered, List.flatMap_nil, List.append_nil]
  intro hfinal
  refine call_fruitful ?_ ?_ (hfinal ⟨⟨text, 1, 0⟩, ⟨[], #[]⟩⟩ [.nextChunk] _ List.mem_cons_self)
  · exact ⟨Nat.one_pos, fun event he => by cases he⟩
  · rw [hfuture, BodyDecoder.closeScan]
    rcases ht with hdata | hitem
    · left
      split
      · exact hdata
      · exact hdata
    · right
      have hend : ((phase.scan limits text).map (BodyDecoder.chunked limits)).last.item
          = .endOfBody := hitem
      rw [hend]
      exact hend

/-- What an item comes to is explained by the decoder that found it. -/
theorem outcome_accounts {item : Item} (h : reader.decoder.Accounts limits (item = .failed ·)) :
    (reader.outcome item).2.decoder.Accounts limits ((reader.outcome item).1 = .error ·) := by
  obtain ⟨here, hd, hexplains⟩ := h
  refine ⟨here, ?_, ?_⟩
  · cases item <;> exact hd
  · intro failure he
    exact hexplains failure (outcome_failed (Prod.ext he rfl)).1

theorem advance_accounts (h : ∃ phase, reader.decoder = .chunked limits phase) :
    reader.advance.2.decoder.Accounts limits (reader.advance.1 = .error ·) := by
  fun_induction advance reader with
  | case1 reader hended =>
    obtain ⟨phase, hd⟩ := h
    exact ⟨phase, hd, fun failure he => by cases he⟩
  | case2 reader hopen found reader' hi error inlet hf =>
    obtain ⟨phase, hd⟩ := h
    obtain ⟨here, hdecoder, -⟩ := BodyDecoder.decode_accounts hd reader.inlet.buffered
    refine ⟨here, hdecoder, ?_⟩
    intro cause hc
    cases hc
    exact .source error
  | case3 reader hopen found reader' hi inlet hf last =>
    obtain ⟨phase, hd⟩ := h
    obtain ⟨here, hdecoder, -⟩ := BodyDecoder.decode_accounts hd reader.inlet.buffered
    have hreader' : reader'.decoder = .chunked limits here := hdecoder
    exact outcome_accounts (BodyDecoder.decodeEof_accounts hreader' inlet.buffered)
  | case4 reader hopen found reader' hi n inlet hf ih =>
    obtain ⟨phase, hd⟩ := h
    obtain ⟨here, hdecoder, -⟩ := BodyDecoder.decode_accounts hd reader.inlet.buffered
    exact ih ⟨here, hdecoder⟩
  | case5 reader hopen found reader' hi =>
    obtain ⟨phase, hd⟩ := h
    exact outcome_accounts (BodyDecoder.decode_accounts hd reader.inlet.buffered)

theorem nextChunk_accounts (h : ∃ phase, reader.decoder = .chunked limits phase) :
    reader.nextChunk.2.decoder.Accounts limits (reader.nextChunk.1 = .error ·) := by
  unfold nextChunk
  split
  · exact advance_accounts h
  · obtain ⟨phase, hd⟩ := h
    exact ⟨phase, hd, fun failure he => by cases he⟩

theorem skipFrom_accounts (skipped : Nat) (h : ∃ phase, reader.decoder = .chunked limits phase) :
    (reader.skipFrom skipped).2.decoder.Accounts limits
      ((reader.skipFrom skipped).1 = .error ·) := by
  have hnext := nextChunk_accounts h
  fun_induction skipFrom skipped reader with
  | case1 skipped reader failure next hn =>
    rw [hn] at hnext
    obtain ⟨here, hd, hexplains⟩ := hnext
    refine ⟨here, hd, ?_⟩
    intro cause hc
    cases hc
    exact hexplains failure rfl
  | case2 skipped reader next hn =>
    rw [hn] at hnext
    obtain ⟨here, hd, -⟩ := hnext
    exact ⟨here, hd, fun failure he => by cases he⟩
  | case3 skipped reader bytes next hn ih =>
    rw [hn] at hnext
    obtain ⟨here, hd, -⟩ := hnext
    exact ih ⟨here, hd⟩ (nextChunk_accounts ⟨here, hd⟩)

/-- The phase behind a call that fails says why. -/
theorem call_explains {bodyCall : BodyCall} {reply : Reply}
    (hd : reader.decoder = .chunked limits phase) (hc : reader.call bodyCall = (reply, next))
    (hf : reply.IsFailure) :
    ∃ here failure, reply = bodyCall.failure failure ∧ next.decoder = .chunked limits here
      ∧ here.Explains limits failure := by
  cases bodyCall with
  | nextChunk =>
    have haccounts := nextChunk_accounts ⟨phase, hd⟩
    rw [call] at hc
    split at hc
    · next failure last hn =>
      cases hc
      rw [hn] at haccounts
      obtain ⟨here, hdecoder, hexplains⟩ := haccounts
      exact ⟨here, failure, rfl, hdecoder, hexplains failure rfl⟩
    · cases hc
      exact hf.elim
    · cases hc
      exact hf.elim
  | read size =>
    rw [call] at hc
    split at hc
    · next cause last hr =>
      cases hc
      obtain ⟨hsize, -, failure, rfl, ha⟩ := read_error hr
      have haccounts := advance_accounts ⟨phase, hd⟩
      rw [ha] at haccounts
      obtain ⟨here, hdecoder, hexplains⟩ := haccounts
      exact ⟨here, failure, by rw [BodyCall.failure, if_neg hsize], hdecoder, hexplains failure rfl⟩
    · cases hc
      split at hf
      · exact hf.elim
      · exact hf.elim
  | skip =>
    have haccounts := skipFrom_accounts 0 ⟨phase, hd⟩
    rw [call, skipBody] at hc
    split at hc
    · next failure last hn =>
      cases hc
      rw [hn] at haccounts
      obtain ⟨here, hdecoder, hexplains⟩ := haccounts
      exact ⟨here, failure, rfl, hdecoder, hexplains failure rfl⟩
    · cases hc
      exact hf.elim

/-- What is final about a refusal. Too many trailers and bad fields end the body for good, as do
more fields than any map has room for, which end the program too, and so does a size line that is
too long. A fault in the framing of a chunk does so only where the phase is locked for another
reason: else the body goes on with the right bytes. -/
theorem refused_final {bodyCall : BodyCall} {reply : Reply}
    (hd : reader.decoder = .chunked limits phase) (hc : reader.call bodyCall = (reply, next))
    (hf : reply.IsFailure) :
    ∃ here failure, reply = bodyCall.failure failure ∧ next.decoder = .chunked limits here
      ∧ (here.Locked limits → next.Final)
      ∧ (failure = .overrun → here.Locked limits)
      ∧ (∀ max, failure = .error (.tooManyTrailers max) → here.Locked limits)
      ∧ (∀ max, failure = .error (.tooLongLine max) → here.Locked limits ∨ here.isTrailer)
      ∧ (∀ reason, failure = .error (.invalidTrailer reason) →
        here.Locked limits ∨ ∃ collected, here = .trailerLf collected)
      ∧ ∀ reason, failure = .error (.invalidChunk reason) →
        (next.Final ↔ here.Locked limits) := by
  obtain ⟨here, failure, hreply, hdecoder, hexplains⟩ := call_explains hd hc hf
  have hidle := call_failed hc hf
  have hfinal (hl : here.Locked limits) : next.Final :=
    final_of_locked hidle ⟨here, hdecoder, hl⟩
  refine ⟨here, failure, hreply, hdecoder, hfinal, ?_⟩
  cases hexplains with
  | source cause => exact ⟨nofun, nofun, nofun, nofun, nofun⟩
  | truncated => exact ⟨nofun, nofun, nofun, nofun, nofun⟩
  | refused hrefuses =>
    cases hrefuses with
    | framing fault hframing =>
      refine ⟨nofun, nofun, nofun, nofun, fun _ _ => ⟨?_, hfinal⟩⟩
      intro h
      rcases Phase.locked_or_revives hframing with hl | hr
      · exact hl
      · exact absurd h (not_final_of_revives hidle hdecoder hr)
    | longLine max hl => exact ⟨nofun, nofun, fun _ _ => hl, nofun, nofun⟩
    | count max hl => exact ⟨nofun, fun _ _ => hl, nofun, nofun, nofun⟩
    | field reason hl => exact ⟨nofun, nofun, nofun, fun _ _ => hl, nofun⟩
    | overrun hl => exact ⟨fun _ => hl, nofun, nofun, nofun, nofun⟩

/-! A size line with a letter in front, which is read again behind the letter, and a trailer section
that is not allowed to have any lines. -/

namespace Refused

def fresh (limits : Limits) (text : Bytes) : BodyReader :=
  .start (.start limits .chunked) (.start 64 ⟨[.data text], #[]⟩)

/-- `x1`, a chunk of one byte, and the end. -/
def malformed : Bytes := [120, 49, 13, 10, 97, 13, 10, 48, 13, 10, 13, 10]

/-- The end with a trailer line. -/
def trailed : Bytes := [48, 13, 10, 97, 58, 49, 13, 10, 13, 10]

theorem final_by_error :
    ((fresh .none malformed).call .nextChunk).1
        = .failed (.error (.invalidChunk "invalid chunk size line: Invalid Size"))
      ∧ ¬ ((fresh .none malformed).call .nextChunk).2.Final
      ∧ ((fresh ⟨none, some 0⟩ trailed).call .nextChunk).1 = .failed (.error (.tooManyTrailers 0))
      ∧ ((fresh ⟨none, some 0⟩ trailed).call .nextChunk).2.Final := by
  have hchunk : ((fresh .none malformed).call .nextChunk).1
      = .failed (.error (.invalidChunk "invalid chunk size line: Invalid Size")) := by cbv
  have hcount : ((fresh ⟨none, some 0⟩ trailed).call .nextChunk).1
      = .failed (.error (.tooManyTrailers 0)) := by cbv
  refine ⟨hchunk, ?_, hcount, ?_⟩
  · have hphase : ((fresh .none malformed).call .nextChunk).2.decoder
        = .chunked .none (.size none 1) := by cbv
    obtain ⟨here, failure, hreply, hdecoder, -, -, -, -, -, hiff⟩ :=
      refused_final rfl (Prod.ext hchunk rfl) trivial
    cases hreply
    rw [hiff _ rfl]
    cases hphase.symm.trans hdecoder
    intro hl
    cases hl
  · obtain ⟨here, failure, hreply, -, hfinal, -, hlocked, -⟩ :=
      refused_final rfl (Prod.ext hcount rfl) trivial
    cases hreply
    exact hfinal (hlocked 0 rfl)

theorem run_goes_on :
    ((fresh .none malformed).run [.nextChunk, .nextChunk, .nextChunk]).1
      = [.failed (.error (.invalidChunk "invalid chunk size line: Invalid Size")), .data [97],
        .ended] := by
  cbv

end Refused
end BodyReader
end Http1
