import Http1.Proofs.Grammar

/-! Which texts a decoder takes for the chunk part of a body. `Stands` says what the bytes before a
phase are by the grammar; every byte that passes keeps it (`Stands.passes`), and what stands before
the trailer section can always be completed (`Begun.completion`), so a byte is refused exactly when
no completion is left. -/

namespace Http1.Chunked

open Phase Byte

/-- A chunk or last size line that has begun, with the phase that its bytes lead to. -/
inductive Begun : Phase → Marked → Prop
  | fresh (count : Nat) : Begun (.size none count) []
  | text (line : SizeLine) (count : Nat) : Begun (line.standing count) (.framing line.text)
  | textCr (line : SizeLine) : Begun (.sizeLf line.value) (.framing (line.text ++ [cr]))
  | data (line : SizeLine) (data : Bytes) (left : Nat) (hpos : 0 < line.value)
      (h : data.length + left = line.value) :
      Begun (.data left) (.framing line.wire ++ .content data)
  | dataCr (line : SizeLine) (data : Bytes) (hpos : 0 < line.value)
      (h : data.length = line.value) :
      Begun .dataLf (.framing line.wire ++ .content data ++ .framing [cr])

/-- Phases that come after the first byte of a trailer section. -/
def Phase.isBeyond : Phase → Prop
  | .endCr collected => 0 < collected.text.size
  | .trailer _ _ | .trailerLf _ | .endLf _ | .done _ => True
  | _ => False

/-- The bytes that a fresh decoder has taken on its way to a phase. -/
inductive Stands : Phase → Marked → Prop
  | within {phase : Phase} {tail : Marked} (chunks : Chunks) (h : Begun phase tail) :
      Stands phase (chunks.marked ++ tail)
  | entered (part : ChunkPart) : Stands (.endCr .empty) part.marked
  | beyond {phase : Phase} (part : ChunkPart) (marked : Marked) (h : phase.isBeyond) :
      Stands phase (part.marked ++ marked)

/-- What a step before the trailer section comes to: the byte passes and leads to a phase that is
as `goal` says, with the byte delivered or not, or the chunk is refused. -/
inductive Leads (goal : Phase → Bool → Prop) : Step → Prop
  | moved {next : Phase} (h : goal next false) : Leads goal (.moved next)
  | delivered {next : Phase} (h : goal next true) : Leads goal (.delivered next)
  | refused (here : Phase) (fault : ChunkFault) : Leads goal (.refused here (.error fault.error))

theorem Leads.mono {goal weaker : Phase → Bool → Prop} {result : Step} (h : Leads goal result)
    (hw : ∀ next given, goal next given → weaker next given) : Leads weaker result := by
  cases h with
  | moved h => exact .moved (hw _ _ h)
  | delivered h => exact .delivered (hw _ _ h)
  | refused here fault => exact .refused here fault

namespace SizeLine

/-- The line that consists of its first digit. -/
theorem exists_digit {b : UInt8} {digit : Nat} (h : digit? b = some digit) :
    ∃ line : SizeLine, line.text = [b]
      ∧ ∀ count, line.standing count = .size (some digit) count := by
  have hvalue : Bytes.hexNumber 0 [b] = digit := by simp [Bytes.hexNumber, h]
  exact ⟨.ofDigit b (by rw [h]; rfl), rfl,
    fun count => congrArg (fun n => Phase.size (some n) count) hvalue⟩

theorem exists_longer (line : SizeLine) (hb : line.blanks = []) (he : line.extension = none)
    {b : UInt8} {digit : Nat} (h : digit? b = some digit)
    (hsmall : 16 * line.value + digit < 2 ^ 64) :
    ∃ more : SizeLine, more.text = line.text ++ [b]
      ∧ ∀ count, more.standing count = .size (some (16 * line.value + digit)) count := by
  have hvalue := Bytes.hexNumber_snoc 0 line.digits b
  rw [h, Option.getD_some] at hvalue
  have hhex : ∀ c ∈ line.digits ++ [b], (digit? c).isSome := by
    intro c hc
    rcases List.mem_append.1 hc with hc | hc
    · exact line.digits_hex c hc
    · rw [List.mem_singleton.1 hc, h]; rfl
  refine ⟨.plain (line.digits ++ [b]) (by simp) hhex (by rw [hvalue]; exact hsmall), ?_,
    fun count => congrArg (fun n => Phase.size (some n) count) hvalue⟩
  simp [text, plain, hb, he, extensionText]

theorem exists_blank (line : SizeLine) (he : line.extension = none) {b : UInt8} (h : isBlank b) :
    ∃ more : SizeLine, more.text = line.text ++ [b]
      ∧ ∀ count, more.standing count = .sizeBlank line.value count := by
  obtain ⟨digits, blanks, extension, hne, hhex, hsmall, hblank, hfree⟩ := line
  subst he
  refine ⟨⟨digits, blanks ++ [b], none, hne, hhex, hsmall, ?_, hfree⟩, ?_, fun count => ?_⟩
  · intro c hc
    rcases List.mem_append.1 hc with hc | hc
    · exact hblank c hc
    · rw [List.mem_singleton.1 hc]; exact isBlank_iff.1 h
  · simp [text, extensionText]
  · simp [standing, value]

theorem exists_opened (line : SizeLine) (he : line.extension = none) :
    ∃ more : SizeLine, more.text = line.text ++ [semicolon]
      ∧ ∀ count, more.standing count = .extension line.value count := by
  obtain ⟨digits, blanks, extension, hne, hhex, hsmall, hblank, hfree⟩ := line
  subst he
  refine ⟨⟨digits, blanks, some [], hne, hhex, hsmall, hblank, by simp⟩, ?_, fun count => rfl⟩
  simp [text, extensionText]

theorem exists_extended (line : SizeLine) {ext : Bytes} (he : line.extension = some ext) {b : UInt8}
    (hcr : b ≠ cr) (hlf : b ≠ lf) :
    ∃ more : SizeLine, more.text = line.text ++ [b]
      ∧ ∀ count, more.standing count = .extension line.value count := by
  obtain ⟨digits, blanks, extension, hne, hhex, hsmall, hblank, hfree⟩ := line
  subst he
  refine ⟨⟨digits, blanks, some (ext ++ [b]), hne, hhex, hsmall, hblank, ?_⟩, ?_, fun count => rfl⟩
  · intro text ht c hc
    cases ht
    rcases List.mem_append.1 hc with hc | hc
    · exact hfree ext rfl c hc
    · rw [List.mem_singleton.1 hc]; exact ⟨hcr, hlf⟩
  · simp [text, extensionText]

/-- A byte that may stand behind the text of a size line is its CR or gives a longer text. -/
def Next (line : SizeLine) (b : UInt8) (next : Phase) (given : Bool) : Prop :=
  given = false ∧ ((b = cr ∧ next = .sizeLf line.value)
    ∨ ∃ (more : SizeLine) (n : Nat), more.text = line.text ++ [b] ∧ next = more.standing n)

theorem standing_leads (line : SizeLine) (count : Nat) (b : UInt8) :
    Leads (line.Next b) (Phase.step .none b (line.standing count)) := by
  cases he : line.extension with
  | some ext =>
    simp only [standing, he, step, Limits.lineFault?, Limits.none, stepExtension]
    split
    · next hcr => exact .moved ⟨rfl, .inl ⟨hcr, rfl⟩⟩
    split
    · exact .refused _ _
    · next hcr hlf =>
      obtain ⟨more, ht, hm⟩ := line.exists_extended he hcr hlf
      exact .moved ⟨rfl, .inr ⟨more, count + 1, ht, (hm _).symm⟩⟩
  | none =>
    have hopened (hb : b = semicolon) :
        Leads (line.Next b) (.moved (.extension line.value (count + 1))) := by
      obtain ⟨more, ht, hm⟩ := line.exists_opened he
      exact .moved ⟨rfl, .inr ⟨more, count + 1, by rw [ht, hb], (hm _).symm⟩⟩
    have hblank (hb : isBlank b) :
        Leads (line.Next b) (.moved (.sizeBlank line.value (count + 1))) := by
      obtain ⟨more, ht, hm⟩ := line.exists_blank he hb
      exact .moved ⟨rfl, .inr ⟨more, count + 1, ht, (hm _).symm⟩⟩
    -- a digit only as long as no blank is there
    by_cases hb : line.blanks = []
    · simp only [standing, he, hb, if_true, step, Limits.lineFault?, Limits.none, stepSize,
        hexValue?_eq]
      cases hx : digit? b with
      | some digit =>
        simp only [Option.getD_some]
        split
        · next hsmall =>
          obtain ⟨more, ht, hm⟩ := line.exists_longer hb he hx hsmall
          exact .moved ⟨rfl, .inr ⟨more, count + 1, ht, (hm _).symm⟩⟩
        · exact .refused _ _
      | none =>
        simp only
        split
        · next h => exact hblank h
        split
        · next h => exact hopened h
        split
        · next h => exact .moved ⟨rfl, .inl ⟨h, rfl⟩⟩
        · exact .refused _ _
    · simp only [standing, he, hb, if_false, step, Limits.lineFault?, Limits.none, stepSizeBlank]
      split
      · next h => exact hblank h
      split
      · next h => exact hopened h
      split
      · next h => exact .moved ⟨rfl, .inl ⟨h, rfl⟩⟩
      · exact .refused _ _

end SizeLine

variable {phase next : Phase} {tail marked : Marked} {b : UInt8}

/-- The bytes of what has begun stand where the next byte leads, or that byte is refused. -/
theorem Begun.leads (h : Begun phase tail) (chunks : Chunks) (b : UInt8) :
    Leads (fun next given => Stands next (chunks.marked ++ (tail ++ [(b, given)])))
      (phase.step .none b) := by
  cases h with
  | fresh count =>
    simp only [step, Limits.lineFault?, Limits.none, stepSize, hexValue?_eq]
    cases hx : digit? b with
    | some digit =>
      obtain ⟨line, ht, hl⟩ := SizeLine.exists_digit hx
      have hlt := digit?_lt hx
      have hb : [(b, false)] = Marked.framing line.text := by rw [ht]; rfl
      simp only [Option.getD_none, Nat.mul_zero, Nat.zero_add]
      rw [if_pos (by simp only [UInt64.size]; omega), ← hl (count + 1)]
      refine .moved ?_
      rw [List.nil_append, hb]
      exact .within chunks (.text line (count + 1))
    | none =>
      simp only
      split
      · exact .refused _ _
      · exact .refused _ _
  | text line count =>
    refine (line.standing_leads count b).mono ?_
    rintro next given ⟨rfl, ⟨rfl, rfl⟩ | ⟨more, n, ht, rfl⟩⟩
    · rw [Marked.framing_snoc]
      exact .within chunks (.textCr line)
    · rw [Marked.framing_snoc, ← ht]
      exact .within chunks (.text more n)
  | textCr line =>
    simp only [step]
    split
    · next hlf =>
      have hw : line.text ++ [cr] ++ [b] = line.wire := by
        rw [hlf, List.append_assoc]; rfl
      refine .moved ?_
      rw [Marked.framing_snoc, hw]
      split
      · next hv => exact .entered ⟨chunks, line, hv⟩
      · next hv =>
        have hdata : Begun (.data line.value) (.framing line.wire ++ .content []) :=
          .data line [] line.value (Nat.pos_of_ne_zero hv) (Nat.zero_add _)
        exact .within chunks (by simpa [Marked.content] using hdata)
    · exact .refused _ _
  | data line data left hpos hlen =>
    cases left with
    | succ left =>
      refine .delivered ?_
      rw [List.append_assoc, Marked.content_snoc]
      exact .within chunks (.data line (data ++ [b]) left hpos (by simp; omega))
    | zero =>
      simp only [step]
      split
      · next hcr =>
        rw [hcr]
        exact .moved (.within chunks (.dataCr line data hpos hlen))
      · exact .refused _ _
  | dataCr line data hpos hlen =>
    simp only [step]
    split
    · next hlf =>
      have hw : Marked.framing line.wire ++ Marked.content data ++ Marked.framing [cr]
          ++ [(b, false)] = (⟨line, data, hpos, hlen⟩ : Chunk).marked := by
        rw [List.append_assoc, Marked.framing_snoc, hlf]; rfl
      refine .moved ?_
      rw [hw, ← Chunks.marked_snoc, ← List.append_nil (Chunks.marked _)]
      exact .within _ (.fresh 0)
    · exact .refused _ _

/-- Only the section that is not begun yet has no text. -/
theorem step_endCr (collected : Section)
    (hs : Phase.step .none b (.endCr collected) = .moved next) : next.isBeyond := by
  simp only [step] at hs
  split at hs
  · cases hs; trivial
  · cases hs; trivial

theorem Phase.isBeyond.moved (h : phase.isBeyond) (hs : phase.step .none b = .moved next) :
    next.isBeyond := by
  cases phase with
  | endCr collected => exact step_endCr collected hs
  | trailer collected line =>
    simp only [step] at hs
    split at hs
    · cases hs; trivial
    · cases hs; trivial
  | trailerLf collected =>
    simp only [step] at hs
    split at hs
    · cases hs
      simp [isBeyond, Section.endLine]
    · cases hs
  | endLf collected =>
    simp only [step, stepEndLf] at hs
    split at hs
    · split at hs
      · cases hs; trivial
      · cases hs
    · cases hs
  | done trailers => cases hs; trivial
  | _ => exact h.elim

theorem Stands.moved (h : Stands phase marked) (hs : phase.step .none b = .moved next) :
    Stands next (marked ++ [(b, false)]) := by
  cases h with
  | within chunks h =>
    have hleads := h.leads chunks b
    rw [hs] at hleads
    cases hleads with
    | moved hnext => rwa [List.append_assoc]
  | entered part => exact .beyond part _ (step_endCr .empty hs)
  | beyond part marked h => rw [List.append_assoc]; exact .beyond part _ (h.moved hs)

theorem Stands.delivered (h : Stands phase marked) (hs : phase.step .none b = .delivered next) :
    Stands next (marked ++ [(b, true)]) := by
  cases h with
  | within chunks h =>
    have hleads := h.leads chunks b
    rw [hs] at hleads
    cases hleads with
    | delivered hnext => rwa [List.append_assoc]
  | entered part =>
    obtain ⟨left, hphase, -⟩ := step_delivered hs
    cases hphase
  | beyond part marked h =>
    obtain ⟨left, rfl, -⟩ := step_delivered hs
    exact h.elim

theorem Stands.passes (h : Stands phase marked) {more : Marked}
    (hp : Passes .none phase more next) : Stands next (marked ++ more) := by
  induction hp generalizing marked with
  | here => rw [List.append_nil]; exact h
  | moved hd hs _ ih =>
    rw [List.append_cons]
    exact ih (h.moved hs)
  | delivered hd hs _ ih =>
    rw [List.append_cons]
    exact ih (h.delivered hs)

theorem stands_of_passes (hp : Passes .none .start marked phase) : Stands phase marked := by
  have h : Stands .start [] := .within [] (.fresh 0)
  exact h.passes hp

theorem Chunk.completion (chunk : Chunk) (chunks : Chunks) :
    ∃ part : ChunkPart, chunks.marked ++ chunk.marked <+: part.marked := by
  refine ⟨⟨chunks ++ [chunk], .zero, SizeLine.value_zero⟩, ?_⟩
  rw [← Chunks.marked_snoc]
  exact List.prefix_append _ _

theorem SizeLine.completion (line : SizeLine) (chunks : Chunks) :
    ∃ part : ChunkPart, chunks.marked ++ .framing line.wire <+: part.marked := by
  by_cases hv : line.value = 0
  · exact ⟨⟨chunks, line, hv⟩, List.prefix_refl _⟩
  · have hpos : 0 < line.value := Nat.pos_of_ne_zero hv
    obtain ⟨part, hp⟩ := Chunk.completion
      ⟨line, List.replicate line.value 0, hpos, List.length_replicate⟩ chunks
    refine ⟨part, List.IsPrefix.trans ?_ hp⟩
    rw [Chunk.marked, List.append_assoc, ← List.append_assoc]
    exact List.prefix_append _ _

/-- What has begun can be completed. -/
theorem Begun.completion (h : Begun phase tail) (chunks : Chunks) :
    ∃ part : ChunkPart, chunks.marked ++ tail <+: part.marked := by
  cases h with
  | fresh count =>
    refine ⟨⟨chunks, .zero, SizeLine.value_zero⟩, ?_⟩
    rw [List.append_nil]
    exact List.prefix_append _ _
  | text line count =>
    obtain ⟨part, hp⟩ := line.completion chunks
    refine ⟨part, List.IsPrefix.trans ?_ hp⟩
    rw [SizeLine.wire, Marked.framing_append, ← List.append_assoc]
    exact List.prefix_append _ _
  | textCr line =>
    obtain ⟨part, hp⟩ := line.completion chunks
    refine ⟨part, List.IsPrefix.trans ?_ hp⟩
    have hw : line.wire = line.text ++ [cr] ++ [lf] := by rw [List.append_assoc]; rfl
    rw [hw, Marked.framing_append (line.text ++ [cr]), ← List.append_assoc]
    exact List.prefix_append _ _
  | data line data left hpos hlen =>
    -- the bytes that are still missing from the chunk may be any
    obtain ⟨part, hp⟩ := Chunk.completion
      ⟨line, data ++ List.replicate left 0, hpos, by simpa using hlen⟩ chunks
    refine ⟨part, List.IsPrefix.trans ?_ hp⟩
    rw [Chunk.marked, Marked.content_append]
    exact ⟨Marked.content (List.replicate left 0) ++ Marked.framing Bytes.crlf, by simp⟩
  | dataCr line data hpos hlen =>
    obtain ⟨part, hp⟩ := Chunk.completion ⟨line, data, hpos, hlen⟩ chunks
    refine ⟨part, List.IsPrefix.trans ?_ hp⟩
    exact ⟨Marked.framing [lf], by simp [Chunk.marked, Marked.framing, Bytes.crlf]⟩

theorem Begun.refused {here : Phase} {failure : Failure ParseError} (h : Begun phase tail)
    (hs : phase.step .none b = .refused here failure) :
    ∃ reason, failure = .error (.invalidChunk reason) := by
  have hleads := h.leads [] b
  rw [hs] at hleads
  cases hleads with
  | refused here fault => exact ⟨fault.text, rfl⟩

theorem Begun.isDone_eq_false (h : Begun phase tail) : phase.isDone = false := by
  cases h with
  | text line count => exact line.standing_isDone count
  | _ => rfl

theorem Begun.ne_endCr (h : Begun phase tail) (collected : Section) : phase ≠ .endCr collected := by
  intro he
  cases h with
  | text line count =>
    unfold SizeLine.standing at he
    split at he
    · cases he
    · split at he <;> cases he
  | _ => cases he

/-- The trailer section has no data. -/
theorem scan_beyond (h : phase.isBeyond) (src : Bytes) : (phase.scan .none src).data = [] := by
  induction src generalizing phase with
  | nil => rfl
  | cons b rest ih =>
    cases hd : phase.isDone with
    | true => rw [scan_done hd]
    | false =>
      cases hs : phase.step .none b with
      | moved next => rw [scan_moved hd hs]; exact ih (h.moved hs)
      | delivered next =>
        obtain ⟨left, rfl, -⟩ := step_delivered hs
        exact h.elim
      | refused here failure => rw [scan_refused hd hs]

theorem scan_endCr (collected : Section) (src : Bytes) :
    (Phase.scan .none (.endCr collected) src).data = [] := by
  cases src with
  | nil => rfl
  | cons b rest =>
    cases hs : Phase.step .none b (.endCr collected) with
    | moved next => rw [scan_moved rfl hs]; exact scan_beyond (step_endCr collected hs) rest
    | delivered next =>
      obtain ⟨left, hphase, -⟩ := step_delivered hs
      cases hphase
    | refused here failure => rw [scan_refused rfl hs]

/-- The decoder of a body whose first byte is still to come. -/
def fresh : BodyDecoder := .start .none .chunked

/-- The data that draining a text gives. -/
def delivered (text : Bytes) : Bytes := (fresh.drain text).1.flatten

/-- Draining a text uses it up and leaves the decoder in front of the trailer section, which it has
not been in before: there it has no section text. -/
def Enters (text : Bytes) : Prop :=
  (fresh.drain text).2 = ⟨.needMore, .chunked .none (.endCr .empty), []⟩

theorem drain_fresh (text : Bytes) :
    delivered text = (Phase.start.scan .none text).data
      ∧ (fresh.drain text).2 = (Phase.start.scan .none text).last.map (.chunked .none) :=
  BodyDecoder.drain_eq_scan fresh text

theorem enters_iff (text : Bytes) : Enters text ↔ ∃ part : ChunkPart, part.wire = text := by
  obtain ⟨-, hlast⟩ := drain_fresh text
  constructor
  · intro h
    rw [Enters, hlast] at h
    obtain ⟨marked, last, rest, hp, htext, hstop⟩ := exists_passes .none .start text
    generalize Phase.start.scan .none text = found at h hstop
    cases hstop with
    | needMore hd =>
      have hphase : last = .endCr .empty := by cases h; rfl
      rw [List.append_nil] at htext
      generalize hat : Phase.endCr Section.empty = phase at hphase
      subst hphase
      cases stands_of_passes hp with
      | within chunks hb => exact absurd hat.symm (hb.ne_endCr _)
      | entered part => exact ⟨part, by rw [htext, ChunkPart.bytes_marked]⟩
      | beyond part marked hb => subst hat; exact absurd hb (Nat.lt_irrefl 0)
    | ended hd => cases h
    | refused hd hs => cases h
  · rintro ⟨part, rfl⟩
    have hscan := part.passes.scan_eq rfl
    rw [ChunkPart.bytes_marked] at hscan
    rw [Enters, hlast, hscan]
    rfl

/-- A text that some chunk part begins with. -/
def Begins (text : Bytes) : Prop := ∃ part : ChunkPart, text <+: part.wire

theorem delivered_chunkPart (part : ChunkPart) (rest : Bytes) :
    delivered (part.wire ++ rest) = part.data
      ∧ (fresh.drain (part.wire ++ rest)).2
        = ((BodyDecoder.chunked .none (.endCr .empty)).drain rest).2 := by
  obtain ⟨hdata, hlast⟩ := drain_fresh (part.wire ++ rest)
  obtain ⟨-, hrest⟩ := (BodyDecoder.chunked .none (.endCr .empty)).drain_eq_scan rest
  have hscan := part.passes.scan_append rest
  rw [ChunkPart.bytes_marked, ChunkPart.data_marked] at hscan
  rw [hdata, hlast, hrest, hscan, Scan.prepend_data, scan_endCr, List.append_nil]
  exact ⟨rfl, rfl⟩

/-- The beginning of a chunk part passes, and gives the data in it. -/
theorem ChunkPart.passes_within (part : ChunkPart) {text : Bytes} (h : text <+: part.wire) :
    ∃ last, Passes .none .start (part.marked.take text.length) last
      ∧ Marked.bytes (part.marked.take text.length) = text
      ∧ (text ≠ part.wire → last.isDone = false) := by
  rw [← part.bytes_marked] at h ⊢
  exact part.passes.within h

theorem drain_begins (part : ChunkPart) {text : Bytes} (h : text <+: part.wire)
    (hne : text ≠ part.wire) :
    (fresh.drain text).2.item = .needMore ∧ (fresh.drain text).2.rest = []
      ∧ delivered text = part.dataWithin text.length := by
  obtain ⟨hdata, hlast⟩ := drain_fresh text
  obtain ⟨last, hp, hbytes, hd⟩ := part.passes_within h
  have hscan := hp.scan_eq (hd hne)
  rw [hbytes] at hscan
  rw [hdata, hlast, hscan]
  exact ⟨rfl, rfl, rfl⟩

/-- A byte that is refused is one with which no chunk part goes on. -/
theorem not_begins_refused {last here : Phase} {failure : Failure ParseError}
    (hp : Passes .none .start marked last) (hd : last.isDone = false)
    (hs : last.step .none b = .refused here failure) : ¬ Begins (marked.bytes ++ [b]) := by
  rintro ⟨part, hpart⟩
  obtain ⟨last', hp', hbytes, -⟩ := part.passes_within hpart
  have hscan := hp.scan_append [b]
  have hscan' := hp'.scan_append []
  rw [List.append_nil, hbytes, hscan, scan_refused hd hs] at hscan'
  have hitem := congrArg (fun found => found.last.item) hscan'
  simp only [Scan.prepend_last, scan] at hitem
  split at hitem <;> cases hitem

theorem prefix_bytes {front all : Marked} (h : front <+: all) : front.bytes <+: all.bytes := by
  obtain ⟨more, rfl⟩ := h
  rw [Marked.bytes_append]
  exact List.prefix_append _ _

/-- Bytes that a fresh decoder takes have a whole chunk part in front, or they begin one. -/
theorem Stands.part_or_begins (h : Stands phase marked) :
    (∃ part : ChunkPart, part.wire <+: marked.bytes) ∨ (Begins marked.bytes ∧ phase.isDone = false
      ∧ ∀ b here failure, phase.step .none b = .refused here failure
        → ∃ reason, failure = .error (.invalidChunk reason)) := by
  cases h with
  | within chunks hb =>
    obtain ⟨part, hp⟩ := hb.completion chunks
    right
    refine ⟨⟨part, ?_⟩, hb.isDone_eq_false, fun b here failure hs => hb.refused hs⟩
    rw [← part.bytes_marked]
    exact prefix_bytes hp
  | entered part => exact Or.inl ⟨part, part.bytes_marked ▸ List.prefix_refl _⟩
  | beyond part more hb =>
    left
    refine ⟨part, ?_⟩
    rw [← part.bytes_marked]
    exact prefix_bytes (List.prefix_append _ _)

theorem drain_refused (text : Bytes) (hpart : ¬ ∃ part : ChunkPart, part.wire <+: text)
    (hbegins : ¬ Begins text) :
    ∃ k < text.length, Begins (text.take k) ∧ ¬ Begins (text.take (k + 1))
      ∧ (∃ reason, (fresh.drain text).2.item = .failed (.error (.invalidChunk reason)))
      ∧ (fresh.drain text).2.rest = text.drop (k + 1)
      ∧ ∀ part : ChunkPart, text.take k <+: part.wire → delivered text = part.dataWithin k := by
  obtain ⟨hdata, hlast⟩ := drain_fresh text
  obtain ⟨marked, last, rest, hp, htext, hstop⟩ := exists_passes .none .start text
  rcases (stands_of_passes hp).part_or_begins with ⟨part, h⟩ | ⟨hfront, hd, hrefused⟩
  · exact absurd ⟨part, h.trans ⟨rest, htext.symm⟩⟩ hpart
  rw [hdata, hlast]
  generalize Phase.start.scan .none text = found at hstop
  cases hstop with
  | needMore => exact absurd (by rwa [htext, List.append_nil]) hbegins
  | ended hdone => rw [hdone] at hd; cases hd
  | refused hd hs rest =>
    rename_i b here failure
    have htake : text.take marked.bytes.length = marked.bytes := by rw [htext, List.take_left]
    have htake' : text.take (marked.bytes.length + 1) = marked.bytes ++ [b] := by
      rw [htext, List.take_length_add_append]; rfl
    refine ⟨marked.bytes.length, by simp [htext], ?_, ?_, ?_, ?_, ?_⟩
    · rwa [htake]
    · rw [htake']
      exact not_begins_refused hp hd hs
    · obtain ⟨reason, rfl⟩ := hrefused b here failure hs
      exact ⟨reason, rfl⟩
    · rw [htext, List.drop_length_add_append]
      rfl
    · intro part hprefix
      rw [htake] at hprefix
      obtain ⟨last', hp', hbytes, -⟩ := part.passes_within hprefix
      exact (hp.unique hp' hbytes.symm).1

/-- The decoder accepts the chunk part of a body exactly as the grammar has it. It enters the
trailer section behind a whole chunk part and nowhere else, with the data of its chunks delivered
and none after it; the beginning of one wants more, with the data in it delivered; and everything
else fails right behind the first byte with which no chunk part goes on. -/
theorem drain_by_grammar (text : Bytes) :
    (∀ k ≤ text.length, Enters (text.take k) ↔ ∃ part : ChunkPart, part.wire = text.take k)
      ∧ (∀ (part : ChunkPart) (rest : Bytes), text = part.wire ++ rest →
          delivered part.wire = part.data ∧ delivered text = part.data
            ∧ (fresh.drain text).2 = ((BodyDecoder.chunked .none (.endCr .empty)).drain rest).2)
      ∧ (∀ part : ChunkPart, text <+: part.wire → text ≠ part.wire →
          (fresh.drain text).2.item = .needMore ∧ (fresh.drain text).2.rest = []
            ∧ delivered text = part.dataWithin text.length)
      ∧ ((¬ ∃ part : ChunkPart, part.wire <+: text) → ¬ Begins text →
          ∃ k < text.length, Begins (text.take k) ∧ ¬ Begins (text.take (k + 1))
            ∧ (∃ reason, (fresh.drain text).2.item = .failed (.error (.invalidChunk reason)))
            ∧ (fresh.drain text).2.rest = text.drop (k + 1)
            ∧ ∀ part : ChunkPart, text.take k <+: part.wire
              → delivered text = part.dataWithin k) := by
  refine ⟨fun k _ => enters_iff _, ?_, fun part => drain_begins part, drain_refused text⟩
  rintro part rest rfl
  have hwhole := (delivered_chunkPart part []).1
  rw [List.append_nil] at hwhole
  exact ⟨hwhole, delivered_chunkPart part rest⟩

end Http1.Chunked
