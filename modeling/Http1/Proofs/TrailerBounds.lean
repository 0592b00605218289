import Http1.Proofs.LineLimit
import Http1.Proofs.Standing

/-! How much of a trailer section a decoder can be made to hold. What is collected stays within the
lines that were counted and the line that is being read (`Phase.Bounded`), so both limits together
bound it. A section that keeps to them is the same to a decoder with both limits as to one that only
looks at the length of lines (`Phase.scan_counted`), and one line too many is refused
(`feed_trailerLimits`). -/

namespace Http1.Chunked

open Byte

namespace Limits

def both (max count : Nat) : Limits := ⟨some max, some count⟩

end Limits

namespace Section

variable {collected : Section} {b : UInt8}

@[simp] theorem size_push : (collected.push b).text.size = collected.text.size + 1 :=
  Array.size_push _

@[simp] theorem lines_push : (collected.push b).lines = collected.lines := rfl

@[simp] theorem size_endLine : collected.endLine.text.size = collected.text.size + 2 := by
  rw [endLine, Array.size_push, Array.size_push]

@[simp] theorem lines_endLine : collected.endLine.lines = collected.lines + 1 := rfl

end Section

namespace Phase

/-- The trailer section as far as it has been collected. -/
def collected : Phase → Section
  | endCr collected | trailer collected _ | trailerLf collected | endLf collected => collected
  | size _ _ | sizeBlank _ _ | extension _ _ | sizeLf _ | data _ | dataLf | done _ => .empty

/-- The bytes that are held for the trailers. -/
def held (phase : Phase) : Nat := phase.collected.text.size

def beforeSection : Phase → Bool
  | size _ _ | sizeBlank _ _ | extension _ _ | sizeLf _ | data _ | dataLf => true
  | endCr _ | trailer _ _ | trailerLf _ | endLf _ | done _ => false

/-- What the section becomes when a byte is let in. -/
inductive Gathers (limits : Limits) (b : UInt8) : Phase → Phase → Prop
  | before {phase next : Phase} (hp : phase.beforeSection = true)
      (hn : next.beforeSection = true) : Gathers limits b phase next
  | entered {phase : Phase} (hp : phase.beforeSection = true) :
      Gathers limits b phase (.endCr .empty)
  | begun (collected : Section) (hl : limits.lineFault? 1 = none) :
      Gathers limits b (.endCr collected) (.trailer (collected.push b) 1)
  | more (collected : Section) (line : Nat) (hl : limits.lineFault? (line + 1) = none) :
      Gathers limits b (.trailer collected line) (.trailer (collected.push b) (line + 1))
  | lineCr (collected : Section) (line : Nat) :
      Gathers limits b (.trailer collected line) (.trailerLf collected)
  | counted (collected : Section) (hc : ∀ max ∈ limits.fieldCount, collected.lines + 1 ≤ max) :
      Gathers limits b (.trailerLf collected) (.endCr collected.endLine)
  | lastCr (collected : Section) : Gathers limits b (.endCr collected) (.endLf collected)
  | ended (collected : Section) {trailers : Option Headers} (hb : b = lf)
      (ht : collected.trailers = .ok trailers) :
      Gathers limits b (.endLf collected) (.done trailers)

variable {max count : Nat} {limits : Limits} {phase next here last : Phase} {b : UInt8}
  {failure : Failure ParseError} {marked : Marked}

theorem step_gathers (hd : phase.isDone = false) (hs : phase.step limits b = .moved next) :
    Gathers limits b phase next := by
  cases phase with
  | size value line =>
    refine .before rfl ?_
    simp only [step, stepSize] at hs
    grind [beforeSection]
  | sizeBlank value line =>
    refine .before rfl ?_
    simp only [step, stepSizeBlank] at hs
    grind [beforeSection]
  | extension value line =>
    refine .before rfl ?_
    simp only [step, stepExtension] at hs
    grind [beforeSection]
  | sizeLf value =>
    simp only [step] at hs
    split at hs
    · cases hs
      split
      · exact .entered rfl
      · exact .before rfl rfl
    · cases hs
  | data left =>
    refine .before rfl ?_
    cases left with
    | zero => simp only [step] at hs; grind [beforeSection]
    | succ left => cases hs
  | dataLf =>
    refine .before rfl ?_
    simp only [step] at hs
    grind [beforeSection]
  | endCr collected =>
    simp only [step] at hs
    split at hs
    · cases hs; exact .lastCr collected
    · split at hs
      · cases hs
      · next hl => cases hs; exact .begun collected hl
  | trailer collected line =>
    simp only [step] at hs
    split at hs
    · cases hs; exact .lineCr collected line
    · split at hs
      · cases hs
      · next hl => cases hs; exact .more collected line hl
  | trailerLf collected =>
    simp only [step, stepTrailerLf] at hs
    split at hs
    · split at hs
      · next hc => cases hs; exact .counted collected (by simp [hc])
      · next most hc =>
        split at hs
        · next hle => cases hs; exact .counted collected (by simpa [hc] using hle)
        · cases hs
    · cases hs
  | endLf collected =>
    simp only [step, stepEndLf] at hs
    split at hs
    · next hb =>
      split at hs
      · next ht => cases hs; exact .ended collected hb ht
      · cases hs
    · cases hs
  | done trailers => cases hd

/-- What becomes of the section when a byte is refused: it stays as it is, but a line too many has
been ended. -/
inductive Stays : Phase → Phase → Prop
  | before {phase here : Phase} (hp : phase.beforeSection = true)
      (hh : here.beforeSection = true) : Stays phase here
  | endCr (collected : Section) : Stays (.endCr collected) (.endCr collected)
  | trailer (collected : Section) (line after : Nat) :
      Stays (.trailer collected line) (.trailer collected after)
  | trailerLf (collected : Section) : Stays (.trailerLf collected) (.trailerLf collected)
  | tooMany (collected : Section) : Stays (.trailerLf collected) (.trailerLf collected.endLine)
  | endLf (collected : Section) : Stays (.endLf collected) (.endLf collected)

theorem step_stays (hs : phase.step limits b = .refused here failure) : Stays phase here := by
  cases phase with
  | size value line =>
    refine .before rfl ?_
    simp only [step, stepSize] at hs
    grind [beforeSection]
  | sizeBlank value line =>
    refine .before rfl ?_
    simp only [step, stepSizeBlank] at hs
    grind [beforeSection]
  | extension value line =>
    refine .before rfl ?_
    simp only [step, stepExtension] at hs
    grind [beforeSection]
  | sizeLf value =>
    refine .before rfl ?_
    simp only [step] at hs
    grind [beforeSection]
  | data left =>
    refine .before rfl ?_
    cases left with
    | zero => simp only [step] at hs; grind [beforeSection]
    | succ left => cases hs
  | dataLf =>
    refine .before rfl ?_
    simp only [step] at hs
    grind [beforeSection]
  | endCr collected =>
    simp only [step] at hs
    split at hs
    · cases hs
    · split at hs <;> cases hs
      exact .endCr collected
  | trailer collected line =>
    simp only [step] at hs
    split at hs
    · cases hs
    · split at hs <;> cases hs
      exact .trailer collected line _
  | trailerLf collected =>
    simp only [step, stepTrailerLf] at hs
    split at hs
    · split at hs
      · cases hs
      · split at hs <;> cases hs
        exact .tooMany collected
    · cases hs
      exact .trailerLf collected
  | endLf collected =>
    simp only [step, stepEndLf] at hs
    split at hs
    · split at hs <;> cases hs
      exact .endLf collected
    · cases hs
      exact .endLf collected
  | done trailers => cases hs

theorem collected_before (h : phase.beforeSection = true) : phase.collected = .empty := by
  cases phase <;> first | rfl | cases h

theorem Stays.isDone (h : Stays phase here) : here.isDone = false := by
  cases h with
  | before hp hh => cases here <;> first | rfl | cases hh
  | _ => rfl

/-! ### The bound -/

/-- What is collected are the counted lines with their line ends, and the line being read. -/
def Bounded (max count : Nat) : Phase → Prop
  | endCr collected | endLf collected =>
    collected.lines ≤ count ∧ collected.text.size ≤ collected.lines * (max + 2)
  | trailer collected line => collected.lines ≤ count ∧ line ≤ max
      ∧ collected.text.size ≤ collected.lines * (max + 2) + line
  | trailerLf collected =>
    collected.lines ≤ count ∧ collected.text.size ≤ collected.lines * (max + 2) + max
  | size _ _ | sizeBlank _ _ | extension _ _ | sizeLf _ | data _ | dataLf | done _ => True

theorem start_bounded : start.Bounded max count := trivial

theorem lineFault?_both {line : Nat} (h : (Limits.both max count).lineFault? line = none) :
    line ≤ max := by
  by_contra hlt
  have hfault : (Limits.both max count).lineFault? line = some (.tooLongLine max) := if_neg hlt
  rw [hfault] at h
  cases h

theorem step_bounded (h : phase.Bounded max count) (hd : phase.isDone = false)
    (hs : phase.step (.both max count) b = .moved next) : next.Bounded max count := by
  cases step_gathers hd hs with
  | before hp hn => cases next <;> trivial
  | entered hp => exact ⟨Nat.zero_le _, Nat.zero_le _⟩
  | begun collected hl =>
    obtain ⟨hlines, hsize⟩ := h
    refine ⟨hlines, lineFault?_both hl, ?_⟩
    simp only [Section.size_push, Section.lines_push]
    omega
  | more collected line hl =>
    obtain ⟨hlines, -, hsize⟩ := h
    refine ⟨hlines, lineFault?_both hl, ?_⟩
    simp only [Section.size_push, Section.lines_push]
    omega
  | lineCr collected line =>
    obtain ⟨hlines, hline, hsize⟩ := h
    exact ⟨hlines, by omega⟩
  | counted collected hc =>
    obtain ⟨-, hsize⟩ := h
    refine ⟨hc count rfl, ?_⟩
    simp only [Section.size_endLine, Section.lines_endLine, Nat.add_one_mul]
    omega
  | lastCr collected => exact h
  | ended collected => trivial

theorem passes_bounded (h : phase.Bounded max count)
    (hp : Passes (.both max count) phase marked last) : last.Bounded max count := by
  induction hp with
  | here => exact h
  | moved hd hs _ ih => exact ih (step_bounded h hd hs)
  | delivered hd hs _ ih =>
    obtain ⟨left, -, rfl⟩ := step_delivered hs
    exact ih trivial

/-- The line that is being read does not count yet, and it is not longer than the others may be. -/
theorem Bounded.collected_le (h : phase.Bounded max count) :
    phase.collected.lines ≤ count
      ∧ phase.held ≤ phase.collected.lines * (max + 2) + max := by
  cases phase with
  | endCr collected | endLf collected | trailerLf collected =>
    obtain ⟨hlines, hsize⟩ := h
    exact ⟨hlines, by simp only [held, Phase.collected]; omega⟩
  | trailer collected line =>
    obtain ⟨hlines, hline, hsize⟩ := h
    exact ⟨hlines, by simp only [held, Phase.collected]; omega⟩
  | _ => exact ⟨Nat.zero_le _, Nat.zero_le _⟩

theorem Bounded.held_le (h : phase.Bounded max count) :
    phase.held + 2 ≤ (count + 1) * (max + 2) := by
  obtain ⟨hlines, hheld⟩ := h.collected_le
  have hmul := Nat.mul_le_mul_right (max + 2) hlines
  rw [Nat.add_one_mul]
  omega

theorem Bounded.held_refused (h : phase.Bounded max count) (hs : Stays phase here) :
    here.held ≤ (count + 1) * (max + 2) := by
  have hle := h.held_le
  cases hs with
  | before hp hh => rw [held, collected_before hh]; exact Nat.zero_le _
  | tooMany collected =>
    simpa only [held, Phase.collected, Section.size_endLine] using hle
  | _ => exact Nat.le_trans (Nat.le_add_right _ 2) hle

/-! ### Lines too many -/

theorem Passes.isDone_of_last (hp : Passes limits phase marked last)
    (hd : last.isDone = false) : phase.isDone = false := by
  cases hp with
  | here => exact hd
  | moved hd => exact hd
  | delivered hd => exact hd

/-- Lines are only ever added to a section. -/
theorem passes_lines (hp : Passes limits phase marked last) (hd : last.isDone = false) :
    phase.collected.lines ≤ last.collected.lines := by
  induction hp with
  | here => exact Nat.le_refl _
  | @moved phase between last b marked hd' hs hp ih =>
    refine Nat.le_trans ?_ (ih hd)
    have hbetween := hp.isDone_of_last hd
    cases step_gathers hd' hs with
    | before hpre hn => rw [collected_before hpre]; exact Nat.zero_le _
    | entered hpre => rw [collected_before hpre]; exact Nat.zero_le _
    | begun => exact Nat.le_refl _
    | more => exact Nat.le_refl _
    | lineCr => exact Nat.le_refl _
    | counted => exact Nat.le_succ _
    | lastCr => exact Nat.le_refl _
    | ended => cases hbetween
  | delivered hd' hs _ ih =>
    obtain ⟨left, rfl, rfl⟩ := step_delivered hs
    exact ih hd

/-- The limit on the number of lines says nothing as long as it is kept. -/
theorem step_counted {length : Option Nat}
    (h : ∀ next, phase.step ⟨length, none⟩ b = .moved next → next.collected.lines ≤ count) :
    phase.step ⟨length, some count⟩ b = phase.step ⟨length, none⟩ b := by
  cases phase with
  | trailerLf collected =>
    by_cases hb : b = lf
    · have hle : collected.endLine.lines ≤ count :=
        h (.endCr collected.endLine) (by simp [step, stepTrailerLf, hb])
      simp only [step, hb, if_true, stepTrailerLf, hle]
    · simp only [step, hb, if_false]
  | data left => cases left <;> rfl
  | _ => rfl

/-- On its way to a phase with not too many lines, a decoder does what it does without a limit on
their number, and may be refused as it is then. -/
theorem scan_counted (length : Option Nat) (hp : Passes .none phase marked last)
    (hd : last.isDone = false) (hl : last.collected.lines ≤ count) :
    phase.scan ⟨length, some count⟩ marked.bytes = phase.scan ⟨length, none⟩ marked.bytes := by
  induction hp with
  | here => rfl
  | @moved phase between last b marked hd' hs hp ih =>
    rw [Marked.bytes_cons]
    have hstep : phase.step ⟨length, some count⟩ b = phase.step ⟨length, none⟩ b := by
      refine step_counted fun next hnext => ?_
      rw [step_unlimited hnext] at hs
      cases hs
      exact Nat.le_trans (passes_lines hp hd) hl
    cases hn : phase.step ⟨length, none⟩ b with
    | moved next =>
      have hsame := step_unlimited hn
      rw [hs] at hsame
      cases hsame
      rw [scan_moved hd' (hstep.trans hn), scan_moved hd' hn, ih hd hl]
    | delivered next =>
      obtain ⟨left, rfl, -⟩ := step_delivered hn
      cases hs
    | refused here failure => rw [scan_refused hd' (hstep.trans hn), scan_refused hd' hn]
  | @delivered phase between last b marked hd' hs hp ih =>
    obtain ⟨left, rfl, rfl⟩ := step_delivered hs
    rw [Marked.bytes_cons, scan_delivered rfl rfl, scan_delivered rfl rfl, ih hd hl]

end Phase

open Phase

theorem resume_failed {State : Type} {found : Scan State} {failure : Failure ParseError}
    (h : found.last.item = .failed failure) (next : State → Bytes → Scan State) (more : Bytes) :
    (found.resume next more).last.item = .failed failure := by
  rw [Scan.resume, h]
  exact h

/-- The lines up to the first one that is too many, without the LF of that one. -/
theorem RawLines.passes_snoc (part : ChunkPart) (lines : RawLines) (line : RawLine) :
    Passes .none .start
      (part.marked ++ .framing (lines.wire ++ line.bytes ++ [cr]))
      (.trailerLf ⟨(lines.wire ++ line.bytes).toArray, lines.length⟩) := by
  obtain ⟨n, hbytes⟩ := line.passes_bytes lines
  have hcr : Passes .none (.trailer ⟨(lines.wire ++ line.bytes).toArray, lines.length⟩ n)
      (.framing [cr]) (.trailerLf ⟨(lines.wire ++ line.bytes).toArray, lines.length⟩) :=
    .move rfl rfl
  have hlines := lines.passes []
  rw [List.nil_append] at hlines
  rw [Marked.framing_append, Marked.framing_append]
  exact part.passes.trans ((hlines.trans hbytes).trans hcr)

/-- The size lines and these trailer lines keep to the limit on their length. -/
def LinesFit (max : Nat) (part : ChunkPart) (lines : RawLines) : Prop :=
  (∀ line ∈ part.sizeLines, line.text.length < max) ∧ ∀ line ∈ lines, line.bytes.length ≤ max

instance (max : Nat) (part : ChunkPart) (lines : RawLines) : Decidable (LinesFit max part lines) :=
  inferInstanceAs (Decidable (_ ∧ _))

theorem RawLines.meets_part (part : ChunkPart) (lines : RawLines) (max : Nat) :
    Meets max .start (part.marked ++ .framing lines.wire) (.endCr (.collected lines))
      (LinesFit max part lines) :=
  (part.meets max).trans fun _ => lines.meets [] max

/-- The line behind the last one that is allowed is refused when it ends, if nothing was too long
before. -/
theorem scan_tooMany (part : ChunkPart) (lines : RawLines) (line : RawLine) (max : Nat)
    (rest : Bytes) :
    (Phase.start.scan (.both max lines.length)
        (part.wire ++ (lines.wire ++ line.wire) ++ rest)).last.item
      = .failed (.error (if LinesFit max part (lines ++ [line]) then .tooManyTrailers lines.length
        else .tooLongLine max)) := by
  have hpath := RawLines.passes_snoc part lines line
  have hmeets := RawLines.meets_part part (lines ++ [line]) max
  generalize hmarked : part.marked ++ Marked.framing (lines.wire ++ line.bytes ++ [cr]) = marked
    at hpath
  have hbytes : marked.bytes = part.wire ++ (lines.wire ++ line.bytes ++ [cr]) := by
    rw [← hmarked, Marked.bytes_append, part.bytes_marked, Marked.bytes_framing]
  have hwhole : part.marked ++ Marked.framing (RawLines.wire (lines ++ [line]))
      = marked ++ Marked.framing [lf] := by
    rw [← hmarked, List.append_assoc, ← Marked.framing_append, RawLines.wire_snoc, RawLine.wire,
      Bytes.crlf]
    simp
  have hsrc : part.wire ++ (lines.wire ++ line.wire) ++ rest = marked.bytes ++ (lf :: rest) := by
    rw [hbytes, RawLine.wire, Bytes.crlf]
    simp
  have hcounted : Phase.start.scan (.both max lines.length) marked.bytes
      = Phase.start.scan (.ofLine max) marked.bytes :=
    scan_counted (some max) hpath rfl (Nat.le_refl _)
  rw [hwhole] at hmeets
  rw [hsrc, scan_append, hcounted]
  split
  · next hfits =>
    obtain ⟨between, hfront, hlf⟩ := (hmeets.passes hfits).split
    obtain ⟨-, rfl⟩ := hfront.unlimited.unique hpath rfl
    have hstep : Phase.step (.both max lines.length) lf
        (.trailerLf ⟨(lines.wire ++ line.bytes).toArray, lines.length⟩)
        = .refused (.trailerLf (.collected (lines ++ [line])))
          (.error (.tooManyTrailers lines.length)) := by
      rw [← Section.endLine_toArray]
      simp [step, stepTrailerLf, Limits.both]
    rw [hfront.scan_eq rfl]
    simp only [Scan.resume, scan_refused rfl hstep, Scan.prepend_last]
  · next hfits =>
    have hfails := hmeets.fails hfits []
    rw [List.append_nil, Marked.bytes_append, scan_append] at hfails
    obtain ⟨path, last, left, hp, hleft, hstop⟩ := exists_passes (.ofLine max) .start marked.bytes
    generalize Phase.start.scan (.ofLine max) marked.bytes = found at hfails hstop ⊢
    cases hstop with
    | needMore hd =>
      -- the LF would be let in
      rw [List.append_nil] at hleft
      obtain ⟨-, rfl⟩ := hp.unlimited.unique hpath hleft.symm
      cases hfails
    | ended hd => cases hfails
    | refused hd hs =>
      rw [resume_failed rfl] at hfails ⊢
      exact hfails

/-! ### The end of a section -/

/-- The last byte of a body is the LF behind its section, whose fields have been read. -/
theorem Phase.Passes.to_done {limits : Limits} {phase : Phase} {marked : Marked}
    {trailers : Option Headers} (hp : Passes limits phase marked (.done trailers))
    (hd : phase.isDone = false) :
    ∃ front collected, marked = front ++ Marked.framing [lf]
      ∧ Passes limits phase front (.endLf collected) ∧ collected.trailers = .ok trailers := by
  generalize hlast : Phase.done trailers = last at hp
  induction hp with
  | here => subst hlast; cases hd
  | @moved phase between last b marked hd' hs hp ih =>
    cases hbetween : between.isDone with
    | false =>
      obtain ⟨front, collected, rfl, hfront, ht⟩ := ih hbetween hlast
      exact ⟨(b, false) :: front, collected, rfl, .moved hd' hs hfront, ht⟩
    | true =>
      cases hp with
      | here =>
        subst hlast
        cases step_gathers hd' hs with
        | before hpre hn => cases hn
        | ended collected hb ht => exact ⟨[], collected, by rw [hb]; rfl, .here _, ht⟩
      | moved hd'' => rw [hbetween] at hd''; cases hd''
      | delivered hd'' => rw [hbetween] at hd''; cases hd''
  | @delivered phase between last b marked hd' hs hp ih =>
    obtain ⟨left, rfl, rfl⟩ := step_delivered hs
    obtain ⟨front, collected, rfl, hfront, ht⟩ := ih rfl hlast
    exact ⟨(b, true) :: front, collected, rfl, .delivered rfl rfl hfront, ht⟩

theorem Begun.beforeSection {phase : Phase} {tail : Marked} (h : Begun phase tail) :
    phase.beforeSection = true := by
  cases h with
  | text line count =>
    unfold SizeLine.standing
    split
    · rfl
    · split <;> rfl
  | _ => rfl

/-- What has passed on the way to the end of a section is a chunk part and the lines that have been
collected. -/
theorem path_of_endLf {marked : Marked} {collected : Section}
    (hp : Passes .none .start marked (.endLf collected)) :
    ∃ (part : ChunkPart) (lines : RawLines),
      marked.bytes = part.wire ++ lines.wire ++ [cr] ∧ collected = .collected lines := by
  cases stands_of_passes hp with
  | within chunks h => cases h.beforeSection
  | beyond part more h =>
    obtain ⟨between, hpart, hmore⟩ := hp.split
    obtain ⟨-, rfl⟩ := hpart.unique part.passes rfl
    obtain ⟨hsection, -⟩ := (Collects.between []).passes hmore
    generalize hbytes : RawLines.wire [] ++ more.bytes = text at hsection
    cases hsection with
    | lastCr lines =>
      refine ⟨part, lines, ?_, rfl⟩
      rw [Marked.bytes_append, ChunkPart.bytes_marked, List.append_assoc, ← hbytes]
      rfl

theorem RawLines.ReadAs.size_le {lines : RawLines} {trailers : Option Headers}
    (h : lines.ReadAs trailers) : ∀ headers ∈ trailers, headers.size ≤ lines.length := by
  obtain ⟨fields, -, hlen, -, rfl⟩ := h
  intro headers hh
  split at hh
  · cases hh
  · cases hh
    rwa [Headers.size, List.length_map]

theorem path_of_done_both {max count : Nat} {marked : Marked} {trailers : Option Headers}
    (hp : Passes (.both max count) .start marked (.done trailers)) :
    ∃ (part : ChunkPart) (lines : RawLines),
      marked.bytes = part.wire ++ lines.wire ++ Bytes.crlf ∧ lines.length ≤ count
        ∧ ∀ headers ∈ trailers, headers.size ≤ lines.length := by
  obtain ⟨front, collected, rfl, hfront, ht⟩ := hp.to_done rfl
  obtain ⟨part, lines, hbytes, rfl⟩ := path_of_endLf hfront.unlimited
  have hbounded : (Phase.endLf (.collected lines)).Bounded max count :=
    passes_bounded start_bounded hfront
  refine ⟨part, lines, ?_, hbounded.1, ((Section.trailers_collected lines trailers).1 ht).size_le⟩
  rw [Marked.bytes_append, hbytes, Bytes.crlf, Marked.bytes_framing]
  simp

theorem Phase.trailers_isSome {phase : Phase} (h : phase.trailers.isSome) :
    phase.isDone = true := by
  cases phase with
  | done => rfl
  | _ => cases h

/-- What a scan can leave of a section. -/
theorem scan_bounded {max count : Nat} {src : Bytes} {found : Scan Phase}
    (hf : Phase.start.scan (.both max count) src = found) :
    found.last.decoder.held ≤ (count + 1) * (max + 2)
      ∧ (found.last.decoder.trailers.isSome → found.last.item = .endOfBody)
      ∧ (found.last.item = .endOfBody → ∃ (part : ChunkPart) (lines : RawLines),
        src = part.wire ++ lines.wire ++ Bytes.crlf ++ found.last.rest
          ∧ lines.length ≤ count
          ∧ ∀ headers ∈ found.last.decoder.trailers, headers.size ≤ lines.length) := by
  obtain ⟨marked, last, rest, hp, hsrc, hstop⟩ := exists_passes (.both max count) .start src
  rw [hf] at hstop
  have hbounded : last.Bounded max count := passes_bounded start_bounded hp
  have hheld : last.held ≤ (count + 1) * (max + 2) :=
    Nat.le_trans (Nat.le_add_right _ 2) hbounded.held_le
  cases hstop with
  | needMore hd =>
    refine ⟨hheld, fun ht => ?_, nofun⟩
    rw [trailers_isSome ht] at hd
    cases hd
  | ended hd rest =>
    refine ⟨hheld, fun _ => rfl, fun _ => ?_⟩
    cases last with
    | done trailers =>
      obtain ⟨part, lines, hbytes, hlines, hsize⟩ := path_of_done_both hp
      exact ⟨part, lines, by rw [hsrc, hbytes], hlines, hsize⟩
    | _ => cases hd
  | refused hd hs rest =>
    refine ⟨hbounded.held_refused (step_stays hs), fun ht => ?_, nofun⟩
    have hdone := (step_stays hs).isDone
    rw [trailers_isSome ht] at hdone
    cases hdone

end Http1.Chunked

namespace Http1.BodyDecoder

open Chunked Chunked.Phase

/-- The bytes of a trailer section that are held until it ends. -/
def held : BodyDecoder → Nat
  | chunked _ phase => phase.held
  | length _ _ | untilClose _ => 0

/-- With a limit on the length of lines and one on the number of trailer lines, however a text is
cut: the bytes held for the trailers stay within what the limits allow, a failure included; there
are trailers only at the end of the body; and a body that comes to its end had no more trailer lines
than allowed, and no more fields than lines. A section with more lines than that is refused for
their number, whatever follows it, unless one of the lines up to the first that is too many is too
long. -/
theorem feed_trailerLimits (max count : Nat) (first : Bytes) (others : List Bytes) :
    let found := (start (.both max count) .chunked).feed [] first others
    found.last.decoder.held ≤ (count + 1) * (max + 2)
      ∧ (found.last.decoder.trailers.isSome → found.last.item = .endOfBody)
      ∧ (found.last.item = .endOfBody → ∃ (part : ChunkPart) (lines : RawLines),
        (first ++ others.flatten).take found.consumed = part.wire ++ lines.wire ++ Bytes.crlf
          ∧ lines.length ≤ count
          ∧ ∀ headers ∈ found.last.decoder.trailers, headers.size ≤ lines.length)
      ∧ ∀ (part : ChunkPart) (lines : RawLines) (rest : Bytes),
        first ++ others.flatten = part.wire ++ lines.wire ++ rest → count < lines.length →
        found.last.item = .failed (.error (if LinesFit max part (lines.take (count + 1))
          then .tooManyTrailers count else .tooLongLine max)) := by
  intro found
  have hfed := feed_cut (start (.both max count) .chunked) (Eq.refl (first ++ others.flatten))
  have hconsumed := hfed.consumed
  rw [hfed.item, hfed.decoder, hconsumed, start, scan_chunked]
  generalize first ++ others.flatten = text
  have hbounded := scan_bounded (Eq.refl (Phase.start.scan (.both max count) text))
  obtain ⟨hheld, htrailers, hended⟩ := hbounded
  refine ⟨hheld, htrailers, fun hitem => ?_, ?_⟩
  · obtain ⟨part, lines, hsrc, hlines, hsize⟩ := hended hitem
    refine ⟨part, lines, ?_, hlines, hsize⟩
    change text.take (text.length - (Phase.start.scan (.both max count) text).last.rest.length) = _
    generalize (Phase.start.scan (.both max count) text).last.rest = rest at hsrc ⊢
    rw [hsrc, List.length_append, Nat.add_sub_cancel]
    exact List.take_left
  · rintro part lines rest rfl hlt
    have hlength : (lines.take count).length = count := List.length_take_of_le (Nat.le_of_lt hlt)
    have hlines : lines.take (count + 1) = lines.take count ++ [lines[count]] :=
      List.take_succ_eq_append_getElem hlt
    have hwire : lines.wire = RawLines.wire (lines.take count) ++ lines[count].wire
        ++ RawLines.wire (lines.drop (count + 1)) := by
      rw [← RawLines.wire_snoc, ← hlines, RawLines.wire, RawLines.wire, RawLines.wire,
        ← List.flatMap_append, List.take_append_drop]
    have hscan := scan_tooMany part (lines.take count) lines[count] max
      (RawLines.wire (lines.drop (count + 1)) ++ rest)
    rw [hlength, ← hlines] at hscan
    change (Phase.start.scan (.both max count) _).last.item = _
    rw [hwire]
    simpa only [List.append_assoc] using hscan

end Http1.BodyDecoder
