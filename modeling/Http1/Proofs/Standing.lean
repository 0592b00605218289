import Http1.Proofs.Refusal
import Http1.Proofs.TrailerLines

/-! Where a decoder stands: behind bytes that it has gone over as if it had found them all at
once (`Scan.Behind`). A decoder that stands behind bytes stays there while it decodes, or refuses
the byte behind them (`BodyDecoder.decode_goes`). It wants more only when what it stands behind does
not begin with a whole body (`behind_lacks`), and it never gets further than that
(`behind_within`). -/

namespace Http1

open Chunked (Limits Phase ChunkPart RawLines)

/-! ### Whole bodies -/

/-- The bytes are a whole body. The lines of a trailer section may hold anything here, whether it
reads as fields or not; nothing else ends a chunked body (`Chunked.drain_ended`). -/
def Framing.Completes : Framing → Bytes → Prop
  | .length size, body => body.length = size
  | .chunked, body =>
    ∃ (part : ChunkPart) (lines : RawLines), body = part.wire ++ lines.wire ++ Bytes.crlf
  | .untilClose, _ => False

namespace Chunked.Phase

variable {limits : Limits} {phase next : Phase} {b : UInt8}

/-- Limits only refuse: a byte that they let in goes where it goes without them. -/
theorem step_unlimited (h : phase.step limits b = .moved next) :
    phase.step .none b = .moved next := by
  cases phase with
  | sizeLf value => exact h
  | dataLf => exact h
  | endLf collected => exact h
  | done trailers => exact h
  | data left => cases left <;> exact h
  | trailerLf collected => grind [step, stepTrailerLf, Limits.none]
  | _ => grind [step, Limits.none, Limits.lineFault?]

theorem Passes.unlimited {marked : Marked} {last : Phase} (h : Passes limits phase marked last) :
    Passes .none phase marked last := by
  induction h with
  | here => exact .here _
  | moved hd hs _ ih => exact .moved hd (step_unlimited hs) ih
  | delivered hd hs _ ih =>
    obtain ⟨left, rfl, rfl⟩ := step_delivered hs
    exact .delivered hd rfl ih

end Chunked.Phase

/-- No decoder wants more behind a whole body, whatever its limits are. -/
theorem Framing.Completes.scan {framing : Framing} {body : Bytes} (h : framing.Completes body)
    (limits : Limits) : ((BodyDecoder.start limits framing).scan body).last.item ≠ .needMore := by
  cases framing with
  | untilClose => exact h.elim
  | length size =>
    have hsize : body.length = size := h
    simp [BodyDecoder.start, BodyDecoder.scan, hsize]
  | chunked =>
    obtain ⟨part, lines, rfl⟩ := h
    intro hmore
    obtain ⟨marked, last, rest, hp, hbytes, hstop⟩ :=
      Phase.exists_passes limits .start (part.wire ++ lines.wire ++ Bytes.crlf)
    rw [BodyDecoder.start, BodyDecoder.scan_chunked] at hmore
    generalize Phase.start.scan limits _ = found at hmore hstop
    cases hstop with
    | ended hd => simp [Scan.map, Decoded.map] at hmore
    | refused hd hs => simp [Scan.map, Decoded.map] at hmore
    | needMore hd =>
      -- without limits the same path would lead to the end or to trailers that are refused
      have hscan := hp.unlimited.scan_eq hd
      have hdrain := Chunked.drain_section part lines []
      rw [(Chunked.drain_fresh _).2, List.append_nil, hbytes, List.append_nil, hscan] at hdrain
      split at hdrain <;> simp [Decoded.map] at hdrain

/-! ### Where a decoder stands -/

/-- Going over `used` first leads to this state: what follows is scanned from here. -/
def Scan.Behind {State : Type} (scan : State → Bytes → Scan State) (first : State) (used : Bytes)
    (state : State) : Prop :=
  ∃ data, ∀ more, scan first (used ++ more) = (scan state more).prepend data

namespace Scan.Behind

variable {State : Type} {scan : State → Bytes → Scan State} {first between last : State}
  {used front : Bytes}

theorem refl (first : State) : Behind scan first [] first := ⟨[], fun _ => rfl⟩

theorem trans (h1 : Behind scan first used between) (h2 : Behind scan between front last) :
    Behind scan first (used ++ front) last := by
  obtain ⟨data, h1⟩ := h1
  obtain ⟨more, h2⟩ := h2
  refine ⟨data ++ more, fun rest => ?_⟩
  rw [List.append_assoc, h1, h2, Scan.prepend_prepend]

/-- What is left to the state is left to the whole. -/
theorem last_eq (h : Behind scan first used between) (more : Bytes) :
    (scan first (used ++ more)).last = (scan between more).last := by
  obtain ⟨data, h⟩ := h
  rw [h, Scan.prepend_last]

end Scan.Behind

/-- The failure is the source's own. -/
def Failure.OfSource : Failure ParseError → Prop
  | .error (.io _) => True
  | _ => False

def Item.Fails : Item → Prop
  | .failed _ => True
  | .needMore | .data _ | .endOfBody => False

/-- How a decoder has gone over the front of a buffer: to where it stands, or to a byte that it has
refused. -/
inductive Scan.Goes {State : Type} (scan : State → Bytes → Scan State) (first : State)
    (src : Bytes) (found : Decoded State) : Prop
  | stands {front : Bytes} (hs : src = front ++ found.rest)
    (hb : Scan.Behind scan first front found.decoder)
    (hi : ¬ found.item.Fails)
  | refused {front : Bytes} {b : UInt8} {between : State} {failure : Failure ParseError}
    (hs : src = front ++ [b] ++ found.rest) (hb : Scan.Behind scan first front between)
    (hw : (scan between []).last.item = .needMore) (hi : found.item = .failed failure)
    (he : ¬ failure.OfSource)

namespace Chunked.Phase

variable {limits : Limits} {phase next : Phase} {b : UInt8}

theorem Refuses.not_ofSource {here : Phase} {failure : Failure ParseError}
    (h : Refuses limits here failure) : ¬ failure.OfSource := by
  cases h <;> exact id

theorem behind_moved (hd : phase.isDone = false) (hs : phase.step limits b = .moved next) :
    Scan.Behind (Phase.scan limits) phase [b] next :=
  ⟨[], fun more => by rw [List.singleton_append, scan_moved hd hs, Scan.prepend_nil]⟩

/-- A step in front of a decoding. -/
theorem goes_cons {src : Bytes} {found : Decoded Phase}
    (h1 : Scan.Behind (Phase.scan limits) phase [b] next)
    (h2 : Scan.Goes (Phase.scan limits) next src found) :
    Scan.Goes (Phase.scan limits) phase (b :: src) found := by
  cases h2 with
  | @stands front hs hb hi =>
    have hsrc : b :: src = [b] ++ front ++ found.rest := by rw [hs]; rfl
    exact .stands hsrc (h1.trans hb) hi
  | @refused front c between failure hs hb hw hi he =>
    have hsrc : b :: src = [b] ++ front ++ [c] ++ found.rest := by rw [hs]; simp
    exact .refused hsrc (h1.trans hb) hw hi he

theorem decode_goes (limits : Limits) (phase : Phase) (src : Bytes) :
    Scan.Goes (Phase.scan limits) phase src (phase.decode limits src) := by
  fun_induction decode limits phase src with
  | case1 phase =>
    refine .stands rfl (.refl phase) ?_
    simp only
    split <;> exact id
  | case2 b rest trailers => exact .stands rfl (.refl _) id
  | case3 b rest left taken =>
    refine .stands (List.take_append_drop (left + 1) (b :: rest)).symm ⟨taken, fun more => ?_⟩ id
    exact scan_data limits (left + 1) taken more (List.length_take_le _ _)
  | case4 b rest phase hdone hdata next hs ih =>
    exact goes_cons (behind_moved (isDone_eq_false hdone) hs) ih
  | case5 b rest phase hdone hdata next hs ih =>
    obtain ⟨left, rfl, -⟩ := step_delivered hs
    exact absurd rfl (hdata left)
  | case6 b rest phase hdone hdata here failure hs =>
    have hsrc : b :: rest = [] ++ [b] ++ rest := rfl
    refine .refused hsrc (.refl phase) ?_ rfl (step_refuses hs).not_ofSource
    simp [Phase.scan, isDone_eq_false hdone]

end Chunked.Phase

namespace BodyDecoder

variable {decoder : BodyDecoder} {limits : Limits} {framing : Framing} {used : Bytes}

theorem behind_chunked {phase between : Phase}
    (h : Scan.Behind (Phase.scan limits) phase used between) :
    Scan.Behind scan (.chunked limits phase) used (.chunked limits between) := by
  obtain ⟨data, h⟩ := h
  refine ⟨data, fun more => ?_⟩
  rw [scan_chunked, h, scan_chunked]
  rfl

theorem behind_length {left : Nat} (received : Nat) (h : used.length ≤ left) :
    Scan.Behind scan (.length received left) used
      (.length (received + used.length) (left - used.length)) := by
  refine ⟨used, fun more => ?_⟩
  have hends : left ≤ used.length + more.length ↔ left - used.length ≤ more.length := by omega
  simp [scan, Scan.prepend, List.take_append, List.drop_append, List.take_of_length_le h,
    List.drop_eq_nil_of_le h, hends, Nat.add_assoc, Nat.sub_sub]

theorem decode_goes (decoder : BodyDecoder) (src : Bytes) :
    Scan.Goes scan decoder src (decoder.decode src) := by
  cases decoder with
  | chunked limits phase =>
    cases phase.decode_goes limits src with
    | stands hs hb hi => exact .stands hs (behind_chunked hb) hi
    | refused hs hb hw hi he =>
      refine .refused hs (behind_chunked hb) ?_ hi he
      rw [scan_chunked]
      exact hw
  | length received left =>
    simp only [decode, decodeLength]
    split
    · exact .stands rfl (.refl _) id
    split
    · exact .stands rfl (.refl _) id
    · exact .stands (List.take_append_drop left src).symm
        (behind_length received (List.length_take_le left src)) id
  | untilClose ended =>
    simp only [decode, decodeUntilClose]
    cases ended with
    | true => exact .stands rfl (.refl _) id
    | false =>
      cases src with
      | nil => exact .stands rfl (.refl _) id
      | cons b rest => exact .stands (List.append_nil _).symm ⟨b :: rest, fun more => rfl⟩ id

theorem decodeEof_waiting {src : Bytes} (h : (decoder.decode src).item = .needMore) :
    (decoder.decode src).decoder.decodeEof [] = ⟨(decoder.decode src).decoder.close.1,
      (decoder.decode src).decoder.close.2, []⟩ := by
  rw [decodeEof, decode_again h]

theorem scan_nil_rest (decoder : BodyDecoder) : (decoder.scan []).last.rest = [] := by
  cases decoder with
  | length received left => simp [scan]
  | chunked limits phase => rfl
  | untilClose ended => cases ended <;> rfl

/-- A scan that has stopped leaves whatever comes behind. -/
theorem scan_stopped {src : Bytes} (h : (decoder.scan src).last.item ≠ .needMore) (more : Bytes) :
    (decoder.scan (src ++ more)).last.item = (decoder.scan src).last.item
      ∧ (decoder.scan (src ++ more)).last.rest = (decoder.scan src).last.rest ++ more := by
  rw [scan_append, Scan.resume]
  split
  · next hi => exact absurd hi h
  · exact ⟨rfl, rfl⟩

variable {body : Bytes}

/-- A decoder that wants more does not stand behind a whole body. -/
theorem behind_lacks (h : Scan.Behind scan (start limits framing) used decoder)
    (hw : (decoder.scan []).last.item = .needMore) (hc : framing.Completes body) :
    ¬ body <+: used := by
  rintro ⟨more, rfl⟩
  have hlast := h.last_eq []
  rw [List.append_nil] at hlast
  have hstopped := (scan_stopped (hc.scan limits) more).1
  rw [hlast, hw] at hstopped
  exact hc.scan limits hstopped.symm

/-- No decoder stands further than behind a whole body. -/
theorem behind_within (h : Scan.Behind scan (start limits framing) used decoder)
    (hc : framing.Completes body) (hp : body <+: used) : used = body := by
  obtain ⟨more, rfl⟩ := hp
  have hlast := h.last_eq []
  rw [List.append_nil] at hlast
  have hrest := (scan_stopped (hc.scan limits) more).2
  rw [hlast, scan_nil_rest] at hrest
  simp [(List.append_eq_nil_iff.1 hrest.symm).2]

/-- Only bodies that run until the close have a decoder for them. -/
theorem behind_untilClose {ended : Bool}
    (h : Scan.Behind scan (start limits framing) used (.untilClose ended)) :
    framing = .untilClose := by
  have hlast := congrArg Decoded.decoder (h.last_eq [])
  have hsame : ((untilClose ended).scan []).last.decoder = .untilClose ended := by
    cases ended <;> rfl
  rw [hsame] at hlast
  cases framing with
  | untilClose => rfl
  | length size => simp [start, scan] at hlast
  | chunked => simp [start, scan, Scan.map, Decoded.map] at hlast

end BodyDecoder

end Http1
