import Mathlib
import Http1.Body.Decoder

/-! A decoder hands out the data of a buffer in pieces, and where the pieces end depends on where
the buffer does. A scan takes the bytes one by one and joins the data, so it has no such borders:
scanning a text in two parts is scanning it whole (`scan_append`), and draining a buffer is
scanning it (`drain_eq_scan`). -/

namespace Http1

/-- The data that came out in front of the first item that is not data. -/
structure Scan (State : Type) where
  data : Bytes
  last : Decoded State

namespace Scan

variable {State Other : Type}

def prepend (front : Bytes) (scan : Scan State) : Scan State :=
  { scan with data := front ++ scan.data }

def map (f : State → Other) (scan : Scan State) : Scan Other := ⟨scan.data, scan.last.map f⟩

/-- The scan of a text that goes on: only one that needs more looks at what follows. -/
def resume (scan : Scan State) (next : State → Bytes → Scan State) (more : Bytes) : Scan State :=
  match scan.last.item with
  | .needMore => (next scan.last.decoder more).prepend scan.data
  | _ => { scan with last := { scan.last with rest := scan.last.rest ++ more } }

/-- The scan behind one decoded item, which may be data. -/
def behind (found : Decoded State) (next : State → Bytes → Scan State) : Scan State :=
  match found.item with
  | .data bytes => (next found.decoder found.rest).prepend bytes
  | _ => ⟨[], found⟩

@[simp] theorem prepend_nil (scan : Scan State) : scan.prepend [] = scan := rfl

@[simp] theorem prepend_data (front : Bytes) (scan : Scan State) :
    (scan.prepend front).data = front ++ scan.data := rfl

@[simp] theorem prepend_last (front : Bytes) (scan : Scan State) :
    (scan.prepend front).last = scan.last := rfl

theorem prepend_prepend (front middle : Bytes) (scan : Scan State) :
    (scan.prepend middle).prepend front = scan.prepend (front ++ middle) := by
  simp [prepend]

theorem resume_prepend (front : Bytes) (scan : Scan State) (next : State → Bytes → Scan State)
    (more : Bytes) :
    (scan.prepend front).resume next more = (scan.resume next more).prepend front := by
  unfold resume
  rw [prepend_last]
  split
  · rw [prepend_data, prepend_prepend]
  · rfl

/-- A decoder that runs on the inside of another one scans the same. -/
theorem resume_map {f : State → Other} {inner : State → Bytes → Scan State}
    {outer : Other → Bytes → Scan Other} (scan : Scan State) (more : Bytes)
    (h : ∀ state src, outer (f state) src = (inner state src).map f) :
    (scan.map f).resume outer more = (scan.resume inner more).map f := by
  obtain ⟨data, item, state, rest⟩ := scan
  cases item with
  | needMore => simp only [resume, map, Decoded.map, h]; rfl
  | data bytes => rfl
  | endOfBody => rfl
  | failed failure => rfl

theorem behind_map {f : State → Other} {inner : State → Bytes → Scan State}
    {outer : Other → Bytes → Scan Other} (found : Decoded State)
    (h : ∀ state src, outer (f state) src = (inner state src).map f) :
    behind (found.map f) outer = (behind found inner).map f := by
  obtain ⟨item, state, rest⟩ := found
  cases item with
  | needMore => rfl
  | data bytes => simp only [behind, Decoded.map, h]; rfl
  | endOfBody => rfl
  | failed failure => rfl

end Scan

namespace Chunked.Phase

def scan (limits : Limits) (phase : Phase) : Bytes → Scan Phase
  | [] => ⟨[], if phase.isDone then .endOfBody else .needMore, phase, []⟩
  | b :: rest =>
    if phase.isDone then ⟨[], .endOfBody, phase, b :: rest⟩
    else match phase.step limits b with
      | .moved next => next.scan limits rest
      | .delivered next => (next.scan limits rest).prepend [b]
      | .refused here failure => ⟨[], .failed failure, here, rest⟩

variable {limits : Limits} {phase next : Phase} {b : UInt8} {src : Bytes}

/-- Only the data of a chunk is delivered. -/
theorem step_delivered (h : phase.step limits b = .delivered next) :
    ∃ left, phase = .data (left + 1) ∧ next = .data left := by
  cases phase with
  | size value line =>
    simp only [step, stepSize] at h
    grind
  | sizeBlank value line => grind [step, stepSizeBlank]
  | extension value line => grind [step, stepExtension]
  | sizeLf value => grind [step]
  | data left =>
    cases left with
    | zero => grind [step]
    | succ left => cases h; exact ⟨left, rfl, rfl⟩
  | dataLf => grind [step]
  | endCr collected => grind [step]
  | trailer collected line => grind [step]
  | trailerLf collected => grind [step, stepTrailerLf]
  | endLf collected => grind [step, stepEndLf]
  | done trailers => grind [step]

theorem scan_moved (hd : phase.isDone = false) (hs : phase.step limits b = .moved next)
    (rest : Bytes) : phase.scan limits (b :: rest) = next.scan limits rest := by
  rw [scan, hd, hs]; rfl

theorem scan_delivered (hd : phase.isDone = false) (hs : phase.step limits b = .delivered next)
    (rest : Bytes) :
    phase.scan limits (b :: rest) = (next.scan limits rest).prepend [b] := by
  rw [scan, hd, hs]; rfl

theorem scan_refused {here : Phase} {failure : Failure ParseError} (hd : phase.isDone = false)
    (hs : phase.step limits b = .refused here failure) (rest : Bytes) :
    phase.scan limits (b :: rest) = ⟨[], .failed failure, here, rest⟩ := by
  rw [scan, hd, hs]; rfl

theorem scan_done (hd : phase.isDone = true) (src : Bytes) :
    phase.scan limits src = ⟨[], .endOfBody, phase, src⟩ := by
  cases src <;> simp [scan, hd]

theorem scan_append (limits : Limits) (phase : Phase) (src more : Bytes) :
    phase.scan limits (src ++ more) = (phase.scan limits src).resume (scan limits) more := by
  induction src generalizing phase with
  | nil =>
    cases hd : phase.isDone with
    | true => simp [scan_done hd, Scan.resume]
    | false => simp [scan, hd, Scan.resume]
  | cons b rest ih =>
    cases hd : phase.isDone with
    | true => simp [scan_done hd, Scan.resume]
    | false =>
      rw [List.cons_append]
      cases hs : phase.step limits b with
      | moved next => rw [scan_moved hd hs, scan_moved hd hs, ih]
      | delivered next =>
        rw [scan_delivered hd hs, scan_delivered hd hs, ih, Scan.resume_prepend]
      | refused here failure => rw [scan_refused hd hs, scan_refused hd hs]; rfl

/-- Data in bulk is the same as data byte by byte. -/
theorem scan_data (limits : Limits) (left : Nat) (taken rest : Bytes)
    (h : taken.length ≤ left) :
    (data left).scan limits (taken ++ rest)
      = ((data (left - taken.length)).scan limits rest).prepend taken := by
  induction taken generalizing left with
  | nil => rfl
  | cons b more ih =>
    obtain ⟨left, rfl⟩ : ∃ n, left = n + 1 := ⟨left - 1, by simp at h; omega⟩
    rw [List.cons_append, scan_delivered rfl rfl, ih left (by simpa using h), Scan.prepend_prepend]
    simp

theorem isDone_eq_false (h : ∀ trailers, phase ≠ .done trailers) : phase.isDone = false := by
  cases phase with
  | done trailers => exact absurd rfl (h trailers)
  | _ => rfl

theorem scan_decode (limits : Limits) (phase : Phase) (src : Bytes) :
    phase.scan limits src = Scan.behind (phase.decode limits src) (scan limits) := by
  fun_induction decode limits phase src with
  | case1 phase => cases hd : phase.isDone <;> simp [scan, hd, Scan.behind]
  | case2 b rest trailers => exact scan_done rfl _
  | case3 b rest left taken =>
    have hsplit : taken ++ (b :: rest).drop (left + 1) = b :: rest := List.take_append_drop _ _
    have hlen : taken.length ≤ left + 1 := List.length_take_le _ _
    have hbulk := scan_data limits (left + 1) taken ((b :: rest).drop (left + 1)) hlen
    rw [hsplit] at hbulk
    exact hbulk
  | case4 b rest phase hdone hdata next hs ih =>
    rw [scan_moved (isDone_eq_false hdone) hs, ih]
  | case5 b rest phase hdone hdata next hs ih =>
    -- only `data` delivers, and its bytes were taken in bulk
    obtain ⟨left, rfl, -⟩ := step_delivered hs
    exact absurd rfl (hdata left)
  | case6 b rest phase hdone hdata here failure hs =>
    rw [scan_refused (isDone_eq_false hdone) hs]; rfl

/-- A scan that needs more has used up all there was. -/
theorem scan_needMore (h : (phase.scan limits src).last.item = .needMore) :
    (phase.scan limits src).last.rest = []
      ∧ (phase.scan limits src).last.decoder.isDone = false := by
  induction src generalizing phase with
  | nil => cases hd : phase.isDone <;> simp_all [scan]
  | cons b rest ih =>
    cases hd : phase.isDone with
    | true => simp [scan_done hd] at h
    | false =>
      cases hs : phase.step limits b with
      | moved next => rw [scan_moved hd hs] at h ⊢; exact ih h
      | delivered next => rw [scan_delivered hd hs] at h ⊢; exact ih h
      | refused here failure => simp [scan_refused hd hs] at h

end Chunked.Phase

namespace BodyDecoder

/-- A body of declared length has ended as soon as its last byte is there, one that runs until the
end of the stream never ends by itself. -/
def scan (decoder : BodyDecoder) (src : Bytes) : Scan BodyDecoder :=
  match decoder with
  | length received left =>
    ⟨src.take left, if left ≤ src.length then .endOfBody else .needMore,
      .length (received + (src.take left).length) (left - src.length), src.drop left⟩
  | chunked limits phase => (phase.scan limits src).map (.chunked limits)
  | untilClose true => ⟨[], .endOfBody, .untilClose true, src⟩
  | untilClose false => ⟨src, .needMore, .untilClose false, []⟩

theorem scan_chunked (limits : Chunked.Limits) (phase : Chunked.Phase) (src : Bytes) :
    scan (.chunked limits phase) src = (phase.scan limits src).map (chunked limits) := rfl

theorem scan_length {bytes : Bytes} {left : Nat} (h : bytes.length = left) (received : Nat)
    (rest : Bytes) :
    scan (.length received left) (bytes ++ rest)
      = ⟨bytes, .endOfBody, .length (received + left) 0, rest⟩ := by
  have hle : left ≤ (bytes ++ rest).length := by rw [List.length_append]; omega
  rw [scan, if_pos hle, List.take_left' h, List.drop_left' h, h, Nat.sub_eq_zero_of_le hle]

theorem scan_length_short {src : Bytes} {left : Nat} (h : src.length < left) (received : Nat) :
    scan (.length received left) src
      = ⟨src, .needMore, .length (received + src.length) (left - src.length), []⟩ := by
  rw [scan, if_neg (Nat.not_le.2 h), List.take_of_length_le (Nat.le_of_lt h),
    List.drop_eq_nil_of_le (Nat.le_of_lt h)]

theorem scan_append (decoder : BodyDecoder) (src more : Bytes) :
    decoder.scan (src ++ more) = (decoder.scan src).resume scan more := by
  cases decoder with
  | length received left =>
    by_cases h : left ≤ src.length
    · have hm : left ≤ (src ++ more).length := by rw [List.length_append]; omega
      simp only [scan, h, hm, if_true, Scan.resume, List.take_append_of_le_length h,
        List.drop_append_of_le_length h, Nat.sub_eq_zero_of_le h, Nat.sub_eq_zero_of_le hm]
    · have ht : src.take left = src := List.take_of_length_le (by omega)
      have hd : src.drop left = [] := List.drop_eq_nil_of_le (by omega)
      have hc : left ≤ src.length + more.length ↔ left - src.length ≤ more.length := by omega
      simp only [scan, h, if_false, Scan.resume, ht, hd, List.take_append, List.drop_append,
        List.length_append, Scan.prepend, List.nil_append, hc, Nat.add_assoc, Nat.sub_add_eq]
  | chunked limits phase =>
    rw [scan_chunked, scan_chunked, Chunked.Phase.scan_append,
      Scan.resume_map _ _ (scan_chunked limits)]
  | untilClose ended =>
    cases ended with
    | true => rfl
    | false => rfl

theorem scan_decode (decoder : BodyDecoder) (src : Bytes) :
    decoder.scan src = Scan.behind (decoder.decode src) scan := by
  cases decoder with
  | length received left =>
    by_cases hl : left = 0
    · simp [scan, decode, decodeLength, Scan.behind, hl]
    by_cases hs : src = []
    · simp [scan, decode, decodeLength, Scan.behind, hl, hs]
    by_cases h : left ≤ src.length
    · simp [scan, decode, decodeLength, Scan.behind, Scan.prepend, hl, hs, h]
    · have ht : src.take left = src := List.take_of_length_le (by omega)
      have hd : src.drop left = [] := List.drop_eq_nil_of_le (by omega)
      have hpos : left - src.length ≠ 0 := by omega
      simp [scan, decode, decodeLength, Scan.behind, Scan.prepend, hl, hs, h, ht, hd, hpos]
  | chunked limits phase =>
    rw [scan_chunked, Chunked.Phase.scan_decode, decode, Scan.behind_map _ (scan_chunked limits)]
  | untilClose ended =>
    cases ended with
    | true => rfl
    | false =>
      by_cases hs : src = [] <;>
        simp [scan, decode, decodeUntilClose, Scan.behind, hs, Scan.prepend]

theorem scan_of_data {decoder : BodyDecoder} {src bytes : Bytes}
    (h : (decoder.decode src).item = .data bytes) :
    decoder.scan src
      = ((decoder.decode src).decoder.scan (decoder.decode src).rest).prepend bytes := by
  rw [scan_decode, Scan.behind, h]

theorem scan_of_ne_data {decoder : BodyDecoder} {src : Bytes}
    (h : ∀ bytes, (decoder.decode src).item ≠ .data bytes) :
    decoder.scan src = ⟨[], decoder.decode src⟩ := by
  rw [scan_decode, Scan.behind]
  split
  · next bytes hb => exact absurd hb (h bytes)
  · rfl

theorem scan_needMore {decoder : BodyDecoder} {src : Bytes}
    (h : (decoder.scan src).last.item = .needMore) : (decoder.scan src).last.rest = [] := by
  cases decoder with
  | length received left =>
    have hl : ¬ left ≤ src.length := fun hl => by simp [scan, hl] at h
    exact List.drop_eq_nil_of_le (by omega)
  | chunked limits phase => exact (Chunked.Phase.scan_needMore h).1
  | untilClose ended =>
    cases ended with
    | true => cases h
    | false => rfl

theorem drainFrom_eq_scan (done : List Bytes) (decoder : BodyDecoder) (src : Bytes) :
    (drainFrom done decoder src).1.reverse.flatten
        = done.reverse.flatten ++ (decoder.scan src).data
      ∧ (drainFrom done decoder src).2 = (decoder.scan src).last := by
  fun_induction drainFrom done decoder src with
  | case1 done decoder src found bytes hi ih =>
    rw [scan_of_data hi, ih.1, ih.2]
    simp [found]
  | case2 done decoder src found hi =>
    rw [scan_of_ne_data hi]
    simp [found]

/-- Draining a buffer is scanning it, whatever the pieces are. -/
theorem drain_eq_scan (decoder : BodyDecoder) (src : Bytes) :
    (decoder.drain src).1.flatten = (decoder.scan src).data
      ∧ (decoder.drain src).2 = (decoder.scan src).last :=
  drainFrom_eq_scan [] decoder src

end BodyDecoder
end Http1
