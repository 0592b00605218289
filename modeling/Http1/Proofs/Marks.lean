import Http1.Proofs.Scan

/-! Bytes of a chunked body marked as framing or data, and the paths they take through the phases.
A path says at once that no byte on it is refused, which of them are delivered and where the decoder
stands behind the last one; every front part of a path is a path too (`Passes.split`). -/

namespace Http1

/-- Each byte with whether it is data. -/
abbrev Marked := List (UInt8 × Bool)

namespace Marked

def framing (bytes : Bytes) : Marked := bytes.map fun b => (b, false)

def content (bytes : Bytes) : Marked := bytes.map fun b => (b, true)

def bytes (marked : Marked) : Bytes := marked.map Prod.fst

def data (marked : Marked) : Bytes := (marked.filter Prod.snd).map Prod.fst

@[simp] theorem bytes_nil : bytes [] = [] := rfl

@[simp] theorem data_nil : data [] = [] := rfl

@[simp] theorem bytes_cons (b : UInt8) (mark : Bool) (marked : Marked) :
    bytes ((b, mark) :: marked) = b :: bytes marked := rfl

@[simp] theorem data_cons_framing (b : UInt8) (marked : Marked) :
    data ((b, false) :: marked) = data marked := rfl

@[simp] theorem data_cons_content (b : UInt8) (marked : Marked) :
    data ((b, true) :: marked) = b :: data marked := rfl

@[simp] theorem bytes_append (front back : Marked) :
    bytes (front ++ back) = front.bytes ++ back.bytes := List.map_append

@[simp] theorem data_append (front back : Marked) :
    data (front ++ back) = front.data ++ back.data := by
  rw [data, List.filter_append, List.map_append]; rfl

@[simp] theorem bytes_framing (bytes : Bytes) : (framing bytes).bytes = bytes := by
  rw [Marked.bytes, framing, List.map_map]
  exact List.map_id bytes

@[simp] theorem bytes_content (bytes : Bytes) : (content bytes).bytes = bytes := by
  rw [Marked.bytes, content, List.map_map]
  exact List.map_id bytes

@[simp] theorem data_framing (bytes : Bytes) : (framing bytes).data = [] := by
  simp [data, framing, List.filter_eq_nil_iff]

@[simp] theorem data_content (bytes : Bytes) : (content bytes).data = bytes := by
  induction bytes with
  | nil => rfl
  | cons b rest ih => exact congrArg (b :: ·) ih

@[simp] theorem bytes_take (n : Nat) (marked : Marked) :
    bytes (marked.take n) = marked.bytes.take n := List.map_take

theorem framing_append (front back : Bytes) :
    framing (front ++ back) = framing front ++ framing back := List.map_append

theorem framing_snoc (front : Bytes) (b : UInt8) :
    framing front ++ [(b, false)] = framing (front ++ [b]) := (framing_append front [b]).symm

theorem content_append (front back : Bytes) :
    content (front ++ back) = content front ++ content back := List.map_append

theorem content_snoc (front : Bytes) (b : UInt8) :
    content front ++ [(b, true)] = content (front ++ [b]) := (content_append front [b]).symm

end Marked

namespace Chunked.Phase

/-- The way of marked bytes from one phase to another. -/
inductive Passes (limits : Limits) : Phase → Marked → Phase → Prop
  | here (phase : Phase) : Passes limits phase [] phase
  | moved {phase between last : Phase} {b : UInt8} {marked : Marked} (hd : phase.isDone = false)
      (hs : phase.step limits b = .moved between) (rest : Passes limits between marked last) :
      Passes limits phase ((b, false) :: marked) last
  | delivered {phase between last : Phase} {b : UInt8} {marked : Marked}
      (hd : phase.isDone = false) (hs : phase.step limits b = .delivered between)
      (rest : Passes limits between marked last) : Passes limits phase ((b, true) :: marked) last

namespace Passes

variable {limits : Limits} {phase between last : Phase} {front back marked : Marked} {b : UInt8}

theorem move (hd : phase.isDone = false) (hs : phase.step limits b = .moved last) :
    Passes limits phase (Marked.framing [b]) last :=
  .moved hd hs (.here last)

theorem trans (h1 : Passes limits phase front between) (h2 : Passes limits between back last) :
    Passes limits phase (front ++ back) last := by
  induction h1 with
  | here => exact h2
  | moved hd hs _ ih => exact .moved hd hs (ih h2)
  | delivered hd hs _ ih => exact .delivered hd hs (ih h2)

theorem split (h : Passes limits phase (front ++ back) last) :
    ∃ between, Passes limits phase front between ∧ Passes limits between back last := by
  induction front generalizing phase with
  | nil => exact ⟨phase, .here phase, h⟩
  | cons mark front ih =>
    cases h with
    | moved hd hs rest =>
      obtain ⟨between, h1, h2⟩ := ih rest
      exact ⟨between, .moved hd hs h1, h2⟩
    | delivered hd hs rest =>
      obtain ⟨between, h1, h2⟩ := ih rest
      exact ⟨between, .delivered hd hs h1, h2⟩

/-- A path goes on from a phase only when the body has not ended there. -/
theorem isDone_eq_false (h : Passes limits phase marked last) (hm : marked ≠ []) :
    phase.isDone = false := by
  cases h with
  | here => exact absurd rfl hm
  | moved hd => exact hd
  | delivered hd => exact hd

/-- A front part of the bytes leads to a phase where the body has not ended, unless it is all of
them. -/
theorem within (h : Passes limits phase marked last) {text : Bytes} (ht : text <+: marked.bytes) :
    ∃ between, Passes limits phase (marked.take text.length) between
      ∧ Marked.bytes (marked.take text.length) = text
      ∧ (text ≠ marked.bytes → between.isDone = false) := by
  have hsplit := List.take_append_drop text.length marked
  have hbytes : Marked.bytes (marked.take text.length) = text := by
    rw [Marked.bytes_take]
    exact (List.prefix_iff_eq_take.1 ht).symm
  rw [← hsplit] at h
  obtain ⟨between, h1, h2⟩ := h.split
  refine ⟨between, h1, hbytes, ?_⟩
  intro hne
  apply h2.isDone_eq_false
  intro hnil
  apply hne
  rw [hnil, List.append_nil] at hsplit
  rw [← hbytes, hsplit]

theorem scan_append (h : Passes limits phase marked last) (more : Bytes) :
    phase.scan limits (marked.bytes ++ more) = (last.scan limits more).prepend marked.data := by
  induction h with
  | here => rfl
  | moved hd hs _ ih =>
    rw [Marked.bytes_cons, List.cons_append, scan_moved hd hs, ih, Marked.data_cons_framing]
  | delivered hd hs _ ih =>
    rw [Marked.bytes_cons, List.cons_append, scan_delivered hd hs, ih, Scan.prepend_prepend,
      Marked.data_cons_content]
    rfl

theorem scan_eq (h : Passes limits phase marked last) (hd : last.isDone = false) :
    phase.scan limits marked.bytes = ⟨marked.data, .needMore, last, []⟩ := by
  have hs := h.scan_append []
  rw [List.append_nil, scan, hd] at hs
  rw [hs]
  simp [Scan.prepend]

/-- The bytes alone decide which of them are delivered and where they lead. -/
theorem unique {other : Marked} {after : Phase} (h1 : Passes limits phase marked last)
    (h2 : Passes limits phase other after) (hb : marked.bytes = other.bytes) :
    marked.data = other.data ∧ last = after := by
  have hs1 := h1.scan_append []
  have hs2 := h2.scan_append []
  rw [hb, hs2] at hs1
  have hdata := congrArg Scan.data hs1
  have hlast := congrArg (fun found => found.last.decoder) hs1
  exact ⟨by simpa [scan] using hdata.symm, by simpa [scan] using hlast.symm⟩

end Passes

/-- How a scan stops in a phase that it has reached with some data, and with what bytes before. -/
inductive Stops (limits : Limits) (phase : Phase) (data : Bytes) : Bytes → Scan Phase → Prop
  | needMore (hd : phase.isDone = false) :
      Stops limits phase data [] ⟨data, .needMore, phase, []⟩
  | ended (hd : phase.isDone = true) (rest : Bytes) :
      Stops limits phase data rest ⟨data, .endOfBody, phase, rest⟩
  | refused (hd : phase.isDone = false) {b : UInt8} {here : Phase} {failure : Failure ParseError}
      (hs : phase.step limits b = .refused here failure) (rest : Bytes) :
      Stops limits phase data (b :: rest) ⟨data, .failed failure, here, rest⟩

theorem Stops.prepend {limits : Limits} {phase : Phase} {data rest : Bytes} {found : Scan Phase}
    (h : Stops limits phase data rest found) (front : Bytes) :
    Stops limits phase (front ++ data) rest (found.prepend front) := by
  cases h with
  | needMore hd => exact .needMore hd
  | ended hd => exact .ended hd rest
  | refused hd hs rest => exact .refused hd hs rest

/-- Every scan goes along a path and stops behind it. -/
theorem exists_passes (limits : Limits) (phase : Phase) (src : Bytes) :
    ∃ (marked : Marked) (last : Phase) (rest : Bytes), Passes limits phase marked last
      ∧ src = marked.bytes ++ rest
      ∧ Stops limits last marked.data rest (phase.scan limits src) := by
  induction src generalizing phase with
  | nil =>
    refine ⟨[], phase, [], .here phase, rfl, ?_⟩
    cases hd : phase.isDone with
    | true => rw [scan_done hd]; exact .ended hd []
    | false => simp only [scan, hd]; exact .needMore hd
  | cons b rest ih =>
    cases hd : phase.isDone with
    | true =>
      rw [scan_done hd]
      exact ⟨[], phase, b :: rest, .here phase, rfl, .ended hd _⟩
    | false =>
      cases hs : phase.step limits b with
      | moved next =>
        obtain ⟨marked, last, left, hp, hsrc, hstop⟩ := ih next
        rw [scan_moved hd hs]
        exact ⟨(b, false) :: marked, last, left, .moved hd hs hp, by simp [hsrc], hstop⟩
      | delivered next =>
        obtain ⟨marked, last, left, hp, hsrc, hstop⟩ := ih next
        rw [scan_delivered hd hs]
        exact ⟨(b, true) :: marked, last, left, .delivered hd hs hp, by simp [hsrc],
          hstop.prepend [b]⟩
      | refused here failure =>
        rw [scan_refused hd hs]
        exact ⟨[], phase, b :: rest, .here phase, rfl, .refused hd hs rest⟩

end Chunked.Phase
end Http1
