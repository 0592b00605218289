import Http1.Proofs.TrailerSection

/-! What a limit on the length of lines lets pass. The CR of a size line counts and that of a
trailer line does not, so a size line has to be shorter than the limit where a trailer line may be
as long. A piece of a body either fits and takes the path that it takes without a limit, or it is
refused somewhere inside (`Phase.Meets`). The pieces together give the verdict on a whole body,
however it is cut (`feed_lineLimit`). -/

namespace Http1.Chunked

open Byte

namespace Limits

/-- A limit on the length of lines and on nothing else. -/
def ofLine (max : Nat) : Limits := ⟨some max, .none⟩

theorem lineFault?_of_le {max line : Nat} (h : line ≤ max) :
    (ofLine max).lineFault? line = .none := if_pos h

theorem lineFault?_of_lt {max line : Nat} (h : max < line) :
    (ofLine max).lineFault? line = some (.tooLongLine max) := if_neg (Nat.not_le_of_lt h)

end Limits

namespace Phase

/-- How much of a line has come in, where one is being read. -/
def line? : Phase → Option Nat
  | size _ line | sizeBlank _ line | extension _ line | trailer _ line => some line
  | endCr _ => some 0
  | sizeLf _ | data _ | dataLf | trailerLf _ | endLf _ | done _ => none

def inSizeLine : Phase → Bool
  | size _ _ | sizeBlank _ _ | extension _ _ => true
  | _ => false

/-- The length that the limit is held against when this byte comes. -/
def counted? (phase : Phase) (b : UInt8) : Option Nat :=
  if b = cr ∧ phase.inSizeLine = false then none else phase.line?.map (· + 1)

variable {max n : Nat} {phase between next last : Phase} {b : UInt8} {front back marked : Marked}

theorem counted?_of_ne (hl : phase.line? = some n) (hb : b ≠ cr) :
    phase.counted? b = some (n + 1) := by
  simp [counted?, hl, hb]

theorem counted?_sizeLine (hl : phase.line? = some n) (hsize : phase.inSizeLine = true) :
    phase.counted? b = some (n + 1) := by
  simp [counted?, hl, hsize]

/-- A byte with which the line is within the limit does what it does without one. -/
theorem step_fitting (h : ∀ n ∈ phase.counted? b, n ≤ max) :
    phase.step (.ofLine max) b = phase.step .none b := by
  cases phase with
  | size value line =>
    have hline : line + 1 ≤ max := by simpa [counted?, inSizeLine, line?] using h
    simp only [step, Limits.lineFault?_of_le hline]
    rfl
  | sizeBlank value line =>
    have hline : line + 1 ≤ max := by simpa [counted?, inSizeLine, line?] using h
    simp only [step, Limits.lineFault?_of_le hline]
    rfl
  | extension value line =>
    have hline : line + 1 ≤ max := by simpa [counted?, inSizeLine, line?] using h
    simp only [step, Limits.lineFault?_of_le hline]
    rfl
  | endCr collected =>
    by_cases hb : b = cr
    · simp [step, hb]
    · have hline : 1 ≤ max := by simpa [counted?, inSizeLine, line?, hb] using h
      simp only [step, hb, if_false, Limits.lineFault?_of_le hline]
      rfl
  | trailer collected line =>
    by_cases hb : b = cr
    · simp [step, hb]
    · have hline : line + 1 ≤ max := by simpa [counted?, inSizeLine, line?, hb] using h
      simp only [step, hb, if_false, Limits.lineFault?_of_le hline]
      rfl
  | data left => cases left <;> rfl
  | _ => rfl

theorem step_outgrown (h : phase.counted? b = some n) (hn : max < n) :
    ∃ here, phase.step (.ofLine max) b = .refused here (.error (.tooLongLine max)) := by
  have hfault := Limits.lineFault?_of_lt hn
  cases phase with
  | size value line =>
    obtain rfl : line + 1 = n := by simpa [counted?, inSizeLine, line?] using h
    simp only [step, hfault]
    exact ⟨_, rfl⟩
  | sizeBlank value line =>
    obtain rfl : line + 1 = n := by simpa [counted?, inSizeLine, line?] using h
    simp only [step, hfault]
    exact ⟨_, rfl⟩
  | extension value line =>
    obtain rfl : line + 1 = n := by simpa [counted?, inSizeLine, line?] using h
    simp only [step, hfault]
    exact ⟨_, rfl⟩
  | endCr collected =>
    obtain ⟨hb, rfl⟩ : b ≠ cr ∧ 1 = n := by simpa [counted?, inSizeLine, line?] using h
    simp only [step, hb, if_false, hfault]
    exact ⟨_, rfl⟩
  | trailer collected line =>
    obtain ⟨hb, rfl⟩ : b ≠ cr ∧ line + 1 = n := by simpa [counted?, inSizeLine, line?] using h
    simp only [step, hb, if_false, hfault]
    exact ⟨_, rfl⟩
  | _ => simp [counted?, line?] at h

/-- Only a CR ends a line. -/
theorem line?_moved (hl : phase.line? = some n) (hb : b ≠ cr)
    (hs : phase.step .none b = .moved next) : next.line? = some (n + 1) := by
  cases phase with
  | size value line =>
    cases hl
    simp only [step, Limits.lineFault?, Limits.none, stepSize, hb, if_false] at hs
    grind [line?]
  | sizeBlank value line =>
    cases hl
    simp only [step, Limits.lineFault?, Limits.none, stepSizeBlank, hb, if_false] at hs
    grind [line?]
  | extension value line =>
    cases hl
    simp only [step, Limits.lineFault?, Limits.none, stepExtension, hb, if_false] at hs
    grind [line?]
  | endCr collected =>
    cases hl
    simp only [step, hb, if_false] at hs
    cases hs
    rfl
  | trailer collected line =>
    cases hl
    simp only [step, hb, if_false] at hs
    cases hs
    rfl
  | _ => cases hl

/-- What the limit makes of a path without limits: the bytes pass when they fit, and otherwise one
of them is refused. -/
structure Meets (max : Nat) (phase : Phase) (marked : Marked) (last : Phase) (fits : Prop) :
    Prop where
  passes : fits → Passes (.ofLine max) phase marked last
  fails : ¬ fits → ∀ rest,
    (phase.scan (.ofLine max) (marked.bytes ++ rest)).last.item
      = .failed (.error (.tooLongLine max))

namespace Meets

variable {fits other : Prop}

theorem always (h : Passes (.ofLine max) phase marked last) : Meets max phase marked last True :=
  ⟨fun _ => h, fun hf => absurd trivial hf⟩

theorem congr (h : Meets max phase marked last fits) (hf : fits ↔ other) :
    Meets max phase marked last other :=
  ⟨fun ho => h.passes (hf.2 ho), fun ho => h.fails fun hfits => ho (hf.1 hfits)⟩

/-- A piece that fits is followed by the next one. -/
theorem trans (h1 : Meets max phase front between fits)
    (h2 : fits → Meets max between back last other) :
    Meets max phase (front ++ back) last (fits ∧ other) := by
  constructor
  · rintro ⟨hfits, hother⟩
    exact (h1.passes hfits).trans ((h2 hfits).passes hother)
  · intro hn rest
    rw [Marked.bytes_append, List.append_assoc]
    by_cases hfits : fits
    · rw [(h1.passes hfits).scan_append, Scan.prepend_last]
      exact (h2 hfits).fails (fun hother => hn ⟨hfits, hother⟩) rest
    · exact h1.fails hfits _

/-- A byte that counts is let in as long as the line with it is within the limit. -/
theorem counted (hd : phase.isDone = false) (hc : phase.counted? b = some n)
    (hs : phase.step .none b = .moved next) :
    Meets max phase (.framing [b]) next (n ≤ max) := by
  constructor
  · intro hn
    apply Passes.move hd
    rw [step_fitting (by simpa [hc] using hn), hs]
  · intro hn rest
    obtain ⟨here, hstep⟩ := step_outgrown hc (Nat.lt_of_not_le hn)
    rw [Marked.bytes_framing, List.singleton_append, scan_refused hd hstep]

theorem uncounted (hd : phase.isDone = false) (hc : phase.counted? b = none)
    (hs : phase.step .none b = .moved next) : Meets max phase (.framing [b]) next True := by
  apply always
  apply Passes.move hd
  rw [step_fitting (by simp [hc]), hs]

/-- Bytes of one line, of which `n` have come in before. -/
theorem line {text : Bytes} (hp : Passes .none phase (.framing text) last)
    (hl : phase.line? = some n) (hfree : ∀ b ∈ text, b ≠ cr) (hn : n ≤ max) :
    Meets max phase (.framing text) last (n + text.length ≤ max) := by
  induction text generalizing phase n with
  | nil =>
    cases hp
    exact (always (.here _)).congr (by simpa using hn)
  | cons b rest ih =>
    cases hp with
    | moved hd hs hrest =>
      have hb : b ≠ cr := hfree b List.mem_cons_self
      have hfirst : Meets max phase (.framing [b]) _ (n + 1 ≤ max) :=
        counted hd (counted?_of_ne hl hb) hs
      have hothers := hfirst.trans fun hfits =>
        ih hrest (line?_moved hl hb hs) (fun c hc => hfree c (List.mem_cons_of_mem _ hc)) hfits
      exact hothers.congr (by rw [List.length_cons]; omega)

end Meets

theorem line?_passes {text : Bytes} (hp : Passes .none phase (.framing text) last)
    (hl : phase.line? = some n) (hfree : ∀ b ∈ text, b ≠ cr) :
    last.line? = some (n + text.length) := by
  induction text generalizing phase n with
  | nil =>
    cases hp
    exact hl
  | cons b rest ih =>
    cases hp with
    | moved hd hs hrest =>
      have hnext := line?_moved hl (hfree b List.mem_cons_self) hs
      have hlast := ih hrest hnext fun c hc => hfree c (List.mem_cons_of_mem _ hc)
      rw [hlast, List.length_cons]
      congr 1
      omega

end Phase

open Phase

variable {max : Nat}

namespace SizeLine

theorem text_free (line : SizeLine) : ∀ b ∈ line.text, b ≠ cr := by
  intro b hb
  rcases List.mem_append.1 hb with hb | hb
  · rcases List.mem_append.1 hb with hb | hb
    · rintro rfl
      exact absurd (line.digits_hex cr hb) (by decide)
    · rintro rfl
      exact absurd (line.blanks_blank cr hb) (by decide)
  · cases he : line.extension with
    | none =>
      rw [he] at hb
      exact absurd hb List.not_mem_nil
    | some ext =>
      rw [he] at hb
      rcases List.mem_cons.1 hb with rfl | hb
      · decide
      · exact (line.extension_free ext he b hb).1

/-- A size line has to be shorter than the limit, for its CR counts. -/
theorem meets (line : SizeLine) (max : Nat) :
    Meets max .start (.framing line.wire) (opened line.value) (line.text.length < max) := by
  obtain ⟨n, hpath⟩ := line.passes_text 0
  have hline := line?_passes hpath rfl line.text_free
  have htext := Meets.line hpath rfl line.text_free (Nat.zero_le max)
  have hsize : (line.standing n).inSizeLine = true := by
    unfold standing
    split
    · rfl
    · split <;> rfl
  have hcr : Meets max (line.standing n) (.framing [cr]) (.sizeLf line.value)
      (0 + line.text.length + 1 ≤ max) :=
    .counted (line.standing_isDone n) (counted?_sizeLine hline hsize) (line.step_cr n)
  have hlf : Meets max (.sizeLf line.value) (.framing [lf]) (opened line.value) True :=
    .uncounted rfl rfl rfl
  have hwire := (htext.trans fun _ => hcr).trans fun _ => hlf
  rw [← Marked.framing_append, ← Marked.framing_append, List.append_assoc] at hwire
  refine hwire.congr ⟨fun h => ?_, fun h => ⟨⟨?_, ?_⟩, trivial⟩⟩
  · have := h.1.2
    omega
  · omega
  · omega

end SizeLine

theorem Chunk.meets (chunk : Chunk) (max : Nat) :
    Meets max .start chunk.marked .start (chunk.line.text.length < max) := by
  have hline := chunk.line.meets max
  have hpos := chunk.value_pos
  rw [opened, if_neg (by omega), ← chunk.length_data, ← Nat.zero_add chunk.data.length] at hline
  have hdata : Meets max (.data (0 + chunk.data.length)) (.content chunk.data) (.data 0) True :=
    .always (passes_content chunk.data 0)
  have hcr : Meets max (.data 0) (.framing [cr]) .dataLf True := .uncounted rfl rfl rfl
  have hlf : Meets max .dataLf (.framing [lf]) .start True := .uncounted rfl rfl rfl
  have hchunk := (hline.trans fun _ => hdata).trans fun _ => hcr.trans fun _ => hlf
  exact hchunk.congr (by simp)

theorem Chunks.meets (chunks : Chunks) (max : Nat) :
    Meets max .start chunks.marked .start (∀ chunk ∈ chunks, chunk.line.text.length < max) := by
  induction chunks with
  | nil => exact (Meets.always (.here _)).congr (by simp)
  | cons chunk rest ih =>
    exact ((chunk.meets max).trans fun _ => ih).congr (by simp)

/-- The size lines of a body, the last one included. -/
def ChunkPart.sizeLines (part : ChunkPart) : List SizeLine :=
  part.chunks.map Chunk.line ++ [part.last]

theorem ChunkPart.meets (part : ChunkPart) (max : Nat) :
    Meets max .start part.marked (.endCr .empty)
      (∀ line ∈ part.sizeLines, line.text.length < max) := by
  have hlast := part.last.meets max
  rw [opened, if_pos part.last_value] at hlast
  have hpart := (part.chunks.meets max).trans fun _ => hlast
  exact hpart.congr (by simp [sizeLines, or_imp, forall_and])

/-- A trailer line may be as long as the limit. -/
theorem RawLine.meets (line : RawLine) (before : RawLines) (max : Nat) :
    Meets max (.endCr (.collected before)) (.framing line.wire)
      (.endCr (.collected (before ++ [line]))) (line.bytes.length ≤ max) := by
  obtain ⟨n, hpath⟩ := line.passes_bytes before
  have hbytes := Meets.line hpath rfl line.free (Nat.zero_le max)
  have hcr : Meets max (.trailer ⟨(before.wire ++ line.bytes).toArray, before.length⟩ n)
      (.framing [cr]) (.trailerLf ⟨(before.wire ++ line.bytes).toArray, before.length⟩) True :=
    .uncounted rfl rfl rfl
  have hlf : Meets max (.trailerLf ⟨(before.wire ++ line.bytes).toArray, before.length⟩)
      (.framing [lf]) (.endCr (.collected (before ++ [line]))) True := by
    apply Meets.uncounted rfl rfl
    rw [← Section.endLine_toArray]
    rfl
  have hwire := hbytes.trans fun _ => hcr.trans fun _ => hlf
  rw [← Marked.framing_append, ← Marked.framing_append] at hwire
  exact hwire.congr (by simp)

theorem RawLines.meets (lines before : RawLines) (max : Nat) :
    Meets max (.endCr (.collected before)) (.framing lines.wire)
      (.endCr (.collected (before ++ lines))) (∀ line ∈ lines, line.bytes.length ≤ max) := by
  induction lines generalizing before with
  | nil =>
    rw [List.append_nil]
    exact (Meets.always (.here _)).congr (by simp)
  | cons line rest ih =>
    have hlines := (line.meets before max).trans fun _ => ih (before ++ [line])
    rw [← Marked.framing_append, List.append_assoc] at hlines
    exact hlines.congr (by simp)

namespace WholeBody

/-- Every size line is shorter than the limit, and no trailer line is longer. -/
def Fits (body : WholeBody) (max : Nat) : Prop :=
  (∀ line ∈ body.part.sizeLines, line.text.length < max)
    ∧ ∀ line ∈ body.lines, line.text.length ≤ max

instance (body : WholeBody) (max : Nat) : Decidable (body.Fits max) :=
  inferInstanceAs (Decidable (_ ∧ _))

theorem meets_front (body : WholeBody) (max : Nat) :
    Meets max .start body.front (.endLf (.ofLines body.lines)) (body.Fits max) := by
  have hlines := RawLines.meets (body.lines.map FieldLine.raw) [] max
  rw [List.nil_append, RawLines.wire, List.flatMap_map, Section.collected_raw] at hlines
  have hcr : Meets max (.endCr (.ofLines body.lines)) (.framing [cr])
      (.endLf (.ofLines body.lines)) True := .uncounted rfl rfl rfl
  have hbody := ((body.part.meets max).trans fun _ => hlines).trans fun _ => hcr
  exact hbody.congr (by simp [Fits, FieldLine.raw])

open BodyDecoder

variable {body : WholeBody} {first : Bytes} {others : List Bytes}

/-- A body that does not fit is refused, however it is cut. -/
theorem feed_outgrown (hf : ¬ body.Fits max) (h : first ++ others.flatten = body.wire) :
    ((BodyDecoder.start (.ofLine max) .chunked).feed [] first others).last.item
      = .failed (.error (.tooLongLine max)) := by
  have hfed := (BodyDecoder.start (.ofLine max) .chunked).feed_cut h
  have hscan := (body.meets_front max).fails hf [lf]
  rw [bytes_front] at hscan
  rw [hfed.item, BodyDecoder.start, scan_chunked]
  exact hscan

/-- Under a limit on the length of lines a body is refused for a size line that is as long as the
limit, its CR being one byte too many, or for a trailer line that is longer. Any other body gives
all of its data and is used up. It has come to its end then, unless it has more than 24576 fields:
there is no map for them, and the program ends. -/
theorem feed_lineLimit (body : WholeBody) (max : Nat) {first : Bytes} {others : List Bytes}
    (h : first ++ others.flatten = body.wire) :
    let found := (BodyDecoder.start (.ofLine max) .chunked).feed [] first others
    (found.last.item = .failed (.error (.tooLongLine max))
        ↔ (∃ line ∈ body.part.sizeLines, max ≤ line.text.length)
          ∨ ∃ line ∈ body.lines, max < line.text.length)
      ∧ (found.last.item ≠ .failed (.error (.tooLongLine max)) →
        found.data = body.data ∧ found.consumed = body.wire.length
          ∧ (body.lines.length ≤ 24576 →
            found.last.item = .endOfBody ∧ found.last.decoder.trailers = body.trailers)
          ∧ (24576 < body.lines.length → found.last.item = .failed .overrun)) := by
  intro found
  by_cases hf : body.Fits max
  · have hfound := feed_front ((body.meets_front max).passes hf) h
    have hitem : found.last.item ≠ .failed (.error (.tooLongLine max)) := by
      by_cases hroom : body.HasRoom
      · rw [(hfound.2.2.1 hroom).1]
        exact Item.noConfusion
      · rw [hfound.2.2.2 hroom]
        simp
    refine ⟨⟨fun hi => absurd hi hitem, ?_⟩, fun _ => ?_⟩
    · rintro (⟨line, hl, hlong⟩ | ⟨line, hl, hlong⟩)
      · exact absurd (hf.1 line hl) (Nat.not_lt_of_le hlong)
      · exact absurd (hf.2 line hl) (Nat.not_le_of_lt hlong)
    · exact ⟨hfound.1, hfound.2.1, hfound.2.2.1,
        fun hmany => hfound.2.2.2 (Nat.not_le_of_lt hmany)⟩
  · have hfound := feed_outgrown hf h
    refine ⟨⟨fun _ => ?_, fun _ => hfound⟩, fun hi => absurd hfound hi⟩
    simpa [Fits, or_iff_not_imp_left] using hf

end WholeBody

/-! A limit of two bytes, and a size line and a trailer line of two bytes each. -/

namespace AtLimit

def sizeLine : SizeLine := { SizeLine.zero with blanks := [space], blanks_blank := by simp }

def fieldLine : FieldLine := .bare

def sized : WholeBody := ⟨⟨[], sizeLine, rfl⟩, []⟩

def trailed : WholeBody := ⟨⟨[], .zero, SizeLine.value_zero⟩, [fieldLine]⟩

theorem feed_lineLimit_cut :
    let first : Bytes := [48, 13, 10, 97]
    let others : List Bytes := [[58, 13], [], [10, 13, 10]]
    let found := (BodyDecoder.start (.ofLine 2) .chunked).feed [] first others
    first ++ others.flatten = trailed.wire ∧ found.last.item = .endOfBody
      ∧ found.consumed = trailed.wire.length := by
  intro first others found
  have h : first ++ others.flatten = trailed.wire := rfl
  obtain ⟨hiff, hend⟩ := WholeBody.feed_lineLimit trailed 2 h
  have hne : found.last.item ≠ .failed (.error (.tooLongLine 2)) := by
    rw [Ne, hiff]
    decide
  obtain ⟨-, hconsumed, hroom, -⟩ := hend hne
  exact ⟨h, (hroom (by decide)).1, hconsumed⟩

/-- No line of either body is longer than the limit, and the one with the size line is refused. -/
theorem feed_verdicts :
    (∀ line ∈ sized.part.sizeLines, line.text.length ≤ 2) ∧ sized.lines = []
      ∧ sizeLine ∈ sized.part.sizeLines ∧ fieldLine ∈ trailed.lines
      ∧ sizeLine.text.length = 2 ∧ fieldLine.text.length = 2
      ∧ ((BodyDecoder.start (.ofLine 2) .chunked).feed [] sized.wire []).last.item
        = .failed (.error (.tooLongLine 2))
      ∧ ((BodyDecoder.start (.ofLine 2) .chunked).feed [] trailed.wire []).last.item
        = .endOfBody := by
  refine ⟨by decide, rfl, List.mem_cons_self, List.mem_cons_self, rfl, rfl, ?_, ?_⟩
  · exact WholeBody.feed_outgrown (by decide) (List.append_nil _)
  · have hcut : trailed.wire ++ [].flatten = trailed.wire := List.append_nil _
    have hfound := WholeBody.feed_front ((trailed.meets_front 2).passes (by decide)) hcut
    exact (hfound.2.2.1 (by decide)).1

end AtLimit
end Http1.Chunked
