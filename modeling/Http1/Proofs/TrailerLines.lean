import Http1.Proofs.Acceptance
import Http1.Proofs.Written

/-! Trailer sections of lines that may hold anything. The decoder collects a section in lines that
end with CR LF and has room for as many fields, but the fields are then read from the text, where a
lone LF ends a line too and an empty line ends the section. `Section.trailers_collected` says which
fields that gives, and `RawLines.byLine_iff` that they are one for each line exactly when no line
holds an LF. A section with more fields than any map has room for ends the program, before the first
of its names is checked (`Section.trailers_overrun`). -/

namespace Http1.Trailers

open Byte Chunked

theorem Parts.push {parts : List Bytes} {text : Bytes} (h : Parts parts text) (hne : parts ≠ [])
    (b : UInt8) : Parts (parts.modifyHead (b :: ·)) (b :: text) := by
  cases h with
  | none => exact absurd rfl hne
  | cons he rest => exact .cons he rest

/-- A text divided at its lone LFs. -/
theorem parts_splitOn (text : Bytes) : Parts (text.splitOn lf) (text ++ Bytes.crlf) := by
  induction text with
  | nil =>
    have hlast : Parts [[]] ([] ++ Bytes.crlf ++ []) := .cons (.inr rfl) .none
    exact hlast
  | cons b rest ih =>
    rw [List.splitOn, List.splitOnP_cons_eq_if_modifyHead, ← List.splitOn]
    split
    · next hlf =>
      have hfirst : Parts ([] :: rest.splitOn lf) ([] ++ [lf] ++ (rest ++ Bytes.crlf)) :=
        .cons (.inl rfl) ih
      rw [beq_iff_eq.1 hlf]
      exact hfirst
    · exact ih.push (List.splitOnP_ne_nil _ _) b

/-- A piece of a line, free of line ends. -/
def IsPlain (part : Bytes) : Prop := ∀ b ∈ part, b ≠ cr ∧ b ≠ lf

theorem isPlain_splitOn {text part : Bytes} (hcr : ∀ b ∈ text, b ≠ cr)
    (hpart : part ∈ text.splitOn lf) : IsPlain part := by
  induction text generalizing part with
  | nil =>
    rw [List.splitOn_nil, List.mem_singleton] at hpart
    subst hpart
    exact fun b hb => absurd hb List.not_mem_nil
  | cons b rest ih =>
    have hrest : ∀ {part}, part ∈ rest.splitOn lf → IsPlain part :=
      ih fun c hc => hcr c (List.mem_cons_of_mem _ hc)
    rw [List.splitOn, List.splitOnP_cons_eq_if_modifyHead, ← List.splitOn] at hpart
    split at hpart
    · rcases List.mem_cons.1 hpart with rfl | hpart
      · exact fun b hb => absurd hb List.not_mem_nil
      · exact hrest hpart
    · next hlf =>
      obtain ⟨first, more, hsplit⟩ := List.exists_cons_of_ne_nil
        (List.splitOnP_ne_nil (fun c => c == lf) rest)
      rw [← List.splitOn] at hsplit
      rw [hsplit, List.modifyHead_cons] at hpart
      rw [hsplit] at hrest
      rcases List.mem_cons.1 hpart with rfl | hpart
      · intro c hc
        rcases List.mem_cons.1 hc with rfl | hc
        · exact ⟨hcr c List.mem_cons_self, by simpa using hlf⟩
        · exact hrest List.mem_cons_self c hc
      · exact hrest (List.mem_cons_of_mem _ hpart)

/-- A pair that was read from this part. -/
def Names (part : Bytes) (pair : Bytes × Bytes) : Prop :=
  ∃ line : FieldText, line.text = part ∧ (line.name, line.value) = pair

/-- The field line with this name and all that stands behind its colon. -/
def fieldText (name behind : Bytes) (hne : name ≠ []) (htoken : ∀ b ∈ name, isToken b)
    (hcontent : ∀ b ∈ behind.trim, isFieldContent b) : FieldText where
  name := name
  lead := behind.takeWhile isBlank
  value := behind.trim
  trail := Bytes.trail (behind.dropWhile isBlank)
  name_ne := hne
  name_token := htoken
  lead_blank := fun _ hb => Bytes.blank_takeWhile hb
  value_content := hcontent
  value_head := fun _ hb => Bytes.trim_head hb
  value_last := fun _ hb => Bytes.trim_last hb
  trail_blank := fun _ hb => Bytes.blank_takeWhile (List.mem_reverse.1 hb)

theorem text_fieldText (name behind : Bytes) (hne : name ≠ []) (htoken : ∀ b ∈ name, isToken b)
    (hcontent : ∀ b ∈ behind.trim, isFieldContent b) :
    (fieldText name behind hne htoken hcontent).text = name ++ colon :: behind := by
  rw [FieldText.text, fieldText]
  simp only [Bytes.trim_parts]

variable {part ending rest : Bytes}

/-- A byte behind the content of a value would have to be a line end. -/
theorem content_of_afterLineEnd (hplain : IsPlain part) {after : Bytes}
    (h : afterLineEnd? (part.dropWhile isFieldContent ++ ending ++ rest) = some after) :
    ∀ b ∈ part, isFieldContent b := by
  refine List.dropWhile_eq_nil_iff.1 ?_
  cases hleft : part.dropWhile isFieldContent with
  | nil => rfl
  | cons b left =>
    have hmem : b ∈ part := by
      refine (List.dropWhile_sublist isFieldContent).subset ?_
      rw [hleft]
      exact List.mem_cons_self
    obtain ⟨hcr, hlf⟩ := hplain b hmem
    rw [hleft, List.cons_append, List.cons_append, afterLineEnd_none hcr hlf] at h
    cases h

theorem parseLine_ok {text after : Bytes} {pair : Bytes × Bytes}
    (h : parseLine text = .ok (pair, after)) :
    ∃ more, text.takeWhile isToken ≠ [] ∧ text.dropWhile isToken = colon :: more
      ∧ afterLineEnd? ((more.dropWhile isBlank).dropWhile isFieldContent) = some after
      ∧ pair = (text.takeWhile isToken,
        Bytes.trimEnd ((more.dropWhile isBlank).takeWhile isFieldContent)) := by
  unfold parseLine at h
  split at h
  · cases h
  · cases h
  · next htail hne =>
    split at h
    · cases h
    next hcolon =>
    rw [htail, Decidable.not_not.1 hcolon]
    simp only at h
    split at h
    · cases h
    next hend =>
    cases h
    exact ⟨_, hne, rfl, hend, rfl⟩

/-- A line is read to its end or not at all. -/
theorem parseLine_sound (he : IsLineEnd ending) (hplain : IsPlain part) {pair : Bytes × Bytes}
    {after : Bytes} (h : parseLine (part ++ ending ++ rest) = .ok (pair, after)) :
    after = rest ∧ Names part pair := by
  obtain ⟨more, hname, htail, hend, rfl⟩ := parseLine_ok h
  rw [he.takeWhile rfl rfl] at hname ⊢
  rw [he.dropWhile rfl rfl] at htail
  have hsplit : part.takeWhile isToken ++ part.dropWhile isToken = part :=
    List.takeWhile_append_dropWhile
  -- the colon stands in the part, for a line end does not begin with one
  obtain ⟨behind, hbehind, rfl⟩ : ∃ behind, part.dropWhile isToken = colon :: behind
      ∧ more = behind ++ ending ++ rest := by
    cases hdrop : part.dropWhile isToken with
    | nil =>
      rw [hdrop] at htail
      rcases he with rfl | rfl <;> cases htail
    | cons b behind =>
      rw [hdrop, List.cons_append, List.cons_append, List.cons.injEq] at htail
      exact ⟨behind, by rw [htail.1], htail.2.symm⟩
  rw [hbehind] at hsplit
  rw [he.dropWhile (p := isBlank) rfl rfl, he.dropWhile (p := isFieldContent) rfl rfl] at hend
  rw [he.dropWhile (p := isBlank) rfl rfl, he.takeWhile (p := isFieldContent) rfl rfl]
  have hcontent : ∀ b ∈ behind.dropWhile isBlank, isFieldContent b := by
    refine content_of_afterLineEnd (fun b hb => hplain b ?_) hend
    rw [← hsplit]
    have hmem := (List.dropWhile_sublist isBlank).subset hb
    exact List.mem_append_right _ (List.mem_cons_of_mem _ hmem)
  rw [List.dropWhile_eq_nil_iff.2 hcontent, List.nil_append, he.after, Option.some.injEq] at hend
  rw [List.takeWhile_eq_self_iff.2 hcontent]
  refine ⟨hend.symm, ?_⟩
  have htoken : ∀ b ∈ part.takeWhile isToken, isToken b :=
    List.all_eq_true.1 List.all_takeWhile
  have hvalue : ∀ b ∈ Bytes.trim behind, isFieldContent b := by
    intro b hb
    refine hcontent b ?_
    rw [← Bytes.trimEnd_trail (behind.dropWhile isBlank)]
    exact List.mem_append_left _ hb
  exact ⟨fieldText _ behind hname htoken hvalue,
    (text_fieldText _ behind hname htoken hvalue).trans hsplit, rfl⟩

/-- Lines are read one by one up to the first empty one. -/
theorem parseLines_sound {parts : List Bytes} {text : Bytes} (h : Parts parts text)
    (hplain : ∀ part ∈ parts, IsPlain part) {done pairs : List (Bytes × Bytes)} {room : Nat}
    (hp : parseLines done room text = .ok pairs) :
    ∃ read, pairs = done.reverse ++ read ∧ read.length ≤ room
      ∧ List.Forall₂ Names (parts.takeWhile (· ≠ [])) read := by
  induction h generalizing done room with
  | none =>
    rw [parseLines, if_pos (by simp)] at hp
    cases hp
    exact ⟨[], by simp, Nat.zero_le _, .nil⟩
  | @cons part ending text parts he _ ih =>
    rw [parseLines] at hp
    by_cases hpart : part = []
    · subst hpart
      rw [List.nil_append, he.after, if_pos (by simp)] at hp
      cases hp
      exact ⟨[], by simp, Nat.zero_le _, .nil⟩
    split at hp
    · next hend =>
      obtain ⟨b, more, rfl⟩ := List.exists_cons_of_ne_nil hpart
      obtain ⟨hcr, hlf⟩ := hplain _ List.mem_cons_self b List.mem_cons_self
      rw [List.cons_append, List.cons_append, afterLineEnd_none hcr hlf] at hend
      simp at hend
    split at hp
    · cases hp
    next line rest hline =>
    obtain ⟨rfl, hnames⟩ := parseLine_sound he (hplain part List.mem_cons_self) hline
    cases room with
    | zero => cases hp
    | succ room =>
      obtain ⟨read, hpairs, hlen, hread⟩ :=
        ih (fun part hpart => hplain part (List.mem_cons_of_mem _ hpart)) hp
      refine ⟨line :: read, by rw [hpairs]; simp, by simpa using hlen, ?_⟩
      rw [List.takeWhile_cons_of_pos (by simpa using hpart)]
      exact .cons hnames hread

theorem ofBytes_short {name value : Bytes} {field : Field}
    (h : Field.ofBytes name value = .ok field) : name.length ≤ 65535 := by
  rw [Field.ofBytes] at h
  split at h
  · cases h
  next checked hname =>
  rw [FieldName.ofBytes?] at hname
  split at hname
  · next hvalid => simpa [Bytes.toLower] using hvalid.2.1
  · cases hname

theorem ofPairs_cons {name value : Bytes} {pairs : List (Bytes × Bytes)} {headers : Headers}
    (h : Headers.ofPairs ((name, value) :: pairs) = .ok headers) :
    ∃ field more, Field.ofBytes name value = .ok field ∧ Headers.ofPairs pairs = .ok more
      ∧ headers = ⟨field :: more.fields⟩ := by
  have hpairs (pairs : List (Bytes × Bytes)) : Headers.ofPairs pairs
      = (pairs.mapM fun pair => Field.ofBytes pair.1 pair.2).map Headers.mk := rfl
  rw [hpairs, List.mapM_cons] at h
  cases hfield : Field.ofBytes name value with
  | error fault => simp only [hfield] at h; cases h
  | ok field =>
    simp only [hfield] at h
    cases hmore : pairs.mapM fun pair => Field.ofBytes pair.1 pair.2 with
    | error fault => simp only [hmore] at h; cases h
    | ok more =>
      simp only [hmore] at h
      cases h
      exact ⟨field, ⟨more⟩, rfl, by rw [hpairs, hmore]; rfl, rfl⟩

/-- Pairs that make headers have names that are short enough for their lines. -/
theorem ofPairs_sound {parts : List Bytes} {pairs : List (Bytes × Bytes)}
    (h : List.Forall₂ Names parts pairs) {headers : Headers}
    (ho : Headers.ofPairs pairs = .ok headers) :
    ∃ fields : FieldLines, fields.map FieldLine.text = parts ∧ fields.length = pairs.length
      ∧ headers = ⟨fields.map FieldLine.field⟩ := by
  induction h generalizing headers with
  | nil => cases ho; exact ⟨[], rfl, rfl, rfl⟩
  | @cons part pair parts pairs hname _ ih =>
    obtain ⟨field, more, hfield, hmore, rfl⟩ := ofPairs_cons ho
    obtain ⟨line, htext, hpair⟩ := hname
    obtain ⟨fields, hfields, hlen, rfl⟩ := ih hmore
    cases hpair
    have hshort := ofBytes_short hfield
    have hline := FieldLine.ofBytes_eq_field ⟨line, hshort⟩
    rw [hline, Except.ok.injEq] at hfield
    refine ⟨⟨line, hshort⟩ :: fields, ?_, ?_, ?_⟩
    · rw [List.map_cons, hfields]
      exact congrArg (· :: parts) htext
    · rw [List.length_cons, List.length_cons, hlen]
    · rw [List.map_cons, hfield]

theorem exists_texts {parts : List Bytes} {pairs : List (Bytes × Bytes)}
    (h : List.Forall₂ Names parts pairs) :
    ∃ lines : List FieldText, lines.map FieldText.text = parts ∧ lines.length = pairs.length := by
  induction h with
  | nil => exact ⟨[], rfl, rfl⟩
  | @cons part pair parts pairs hname _ ih =>
    obtain ⟨line, rfl, -⟩ := hname
    obtain ⟨lines, rfl, hlen⟩ := ih
    exact ⟨line :: lines, rfl, congrArg (· + 1) hlen⟩

/-- What was read of a section, whatever came of it behind that. -/
theorem parseLines_parse {parts : List Bytes} {text : Bytes} (h : Parts parts text)
    (hplain : ∀ part ∈ parts, IsPlain part) {room : Nat} {pairs : List (Bytes × Bytes)}
    (hp : parseLines [] room text = .ok pairs) :
    pairs.length ≤ room ∧ List.Forall₂ Names (parts.takeWhile (· ≠ [])) pairs := by
  obtain ⟨read, hread, hlen, hnames⟩ := parseLines_sound h hplain hp
  rw [List.reverse_nil, List.nil_append] at hread
  subst hread
  exact ⟨hlen, hnames⟩

theorem parse_sound {parts : List Bytes} {text : Bytes} (h : Parts parts text)
    (hplain : ∀ part ∈ parts, IsPlain part) {room : Nat} {headers : Headers}
    (hp : parse room text = .ok headers) :
    ∃ fields : FieldLines, fields.map FieldLine.text = parts.takeWhile (· ≠ [])
      ∧ fields.length ≤ room ∧ fields.length ≤ 24576
      ∧ headers = ⟨fields.map FieldLine.field⟩ := by
  rw [parse] at hp
  split at hp
  · cases hp
  next pairs hpairs =>
  obtain ⟨hlen, hnames⟩ := parseLines_parse h hplain hpairs
  split at hp
  · next hroom =>
    cases hof : Headers.ofPairs pairs with
    | error fault => rw [hof] at hp; cases hp
    | ok found =>
      rw [hof] at hp
      cases hp
      obtain ⟨fields, htext, hfields, rfl⟩ := ofPairs_sound hnames hof
      rw [Headers.hasRoom_iff, ← hfields] at hroom
      exact ⟨fields, htext, hfields ▸ hlen, hroom, rfl⟩
  · cases hp

theorem parse_overrun {parts : List Bytes} {text : Bytes} (h : Parts parts text)
    (hplain : ∀ part ∈ parts, IsPlain part) {room : Nat} (hp : parse room text = .error .overrun) :
    ∃ lines : List FieldText, lines.map FieldText.text = parts.takeWhile (· ≠ [])
      ∧ lines.length ≤ room ∧ 24576 < lines.length := by
  rw [parse] at hp
  split at hp
  · cases hp
  next pairs hpairs =>
  obtain ⟨hlen, hnames⟩ := parseLines_parse h hplain hpairs
  obtain ⟨lines, htext, hlines⟩ := exists_texts hnames
  split at hp
  · cases hof : Headers.ofPairs pairs with
    | error fault => rw [hof] at hp; cases hp
    | ok found => rw [hof] at hp; cases hp
  · next hroom =>
    rw [Headers.hasRoom_iff, ← hlines] at hroom
    exact ⟨lines, htext, hlines ▸ hlen, Nat.lt_of_not_le hroom⟩

end Http1.Trailers

namespace Http1.Chunked

open Phase Byte

/-- What the fields of a line are read from. -/
def RawLine.parts (line : RawLine) : List Bytes := line.bytes.splitOn lf

namespace RawLines

/-- These are the trailers that a section of such lines is read as. -/
def ReadAs (lines : RawLines) (trailers : Option Headers) : Prop :=
  ∃ fields : FieldLines,
    fields.map FieldLine.text = (lines.flatMap RawLine.parts).takeWhile (· ≠ [])
    ∧ fields.length ≤ lines.length ∧ fields.length ≤ 24576
    ∧ trailers = if lines = [] then none else some ⟨fields.map FieldLine.field⟩

/-- A section of such lines is read as more fields than any map has room for, were their names short
enough or not. -/
def Overrun (lines : RawLines) : Prop :=
  ∃ fields : List FieldText,
    fields.map FieldText.text = (lines.flatMap RawLine.parts).takeWhile (· ≠ [])
    ∧ fields.length ≤ lines.length ∧ 24576 < fields.length

/-- Every line is a field line, and the trailers have its field and nothing else. -/
def ByLine (lines : RawLines) (trailers : Option Headers) : Prop :=
  ∃ fields : FieldLines, fields.map FieldLine.text = lines.map RawLine.bytes
    ∧ trailers = fields.trailers

theorem parts_wire (lines : RawLines) :
    Trailers.Parts (lines.flatMap RawLine.parts) lines.wire := by
  induction lines with
  | nil => exact .none
  | cons line rest ih =>
    rw [List.flatMap_cons, wire, List.flatMap_cons]
    exact (Trailers.parts_splitOn line.bytes).append ih

theorem isPlain_parts (lines : RawLines) :
    ∀ part ∈ lines.flatMap RawLine.parts, Trailers.IsPlain part := by
  intro part hpart
  obtain ⟨line, -, hmem⟩ := List.mem_flatMap.1 hpart
  exact Trailers.isPlain_splitOn line.free hmem

theorem parts_of_free {lines : RawLines} (h : ∀ line ∈ lines, lf ∉ line.bytes) :
    (lines.flatMap RawLine.parts).takeWhile (· ≠ []) = lines.map RawLine.bytes := by
  induction lines with
  | nil => rfl
  | cons line rest ih =>
    have hparts : line.parts = [line.bytes] :=
      List.splitOn_eq_singleton (h line List.mem_cons_self)
    rw [List.flatMap_cons, hparts, List.singleton_append,
      List.takeWhile_cons_of_pos (by simpa using line.ne),
      ih fun line hline => h line (List.mem_cons_of_mem _ hline), List.map_cons]

/-- The fields are those of the lines, one for each, exactly when no line holds an LF. -/
theorem byLine_iff (lines : RawLines) (trailers : Option Headers) :
    (lines.ByLine trailers ∧ lines.length ≤ 24576)
      ↔ lines.ReadAs trailers ∧ ∀ line ∈ lines, lf ∉ line.bytes := by
  have hnil {fields : FieldLines} (htext : fields.map FieldLine.text = lines.map RawLine.bytes) :
      fields = [] ↔ lines = [] := by
    rw [← List.map_eq_nil_iff (f := FieldLine.text), htext, List.map_eq_nil_iff]
  constructor
  · rintro ⟨⟨fields, htext, rfl⟩, hroom⟩
    have hfree : ∀ line ∈ lines, lf ∉ line.bytes := by
      intro line hline hlf
      obtain ⟨field, -, hfield⟩ := List.mem_map.1 (htext ▸ List.mem_map_of_mem hline)
      rw [← hfield] at hlf
      exact (field.text_free lf hlf).2 rfl
    have hlen := congrArg List.length htext
    rw [List.length_map, List.length_map] at hlen
    refine ⟨⟨fields, ?_, Nat.le_of_eq hlen, hlen ▸ hroom, ?_⟩, hfree⟩
    · rw [parts_of_free hfree, htext]
    · simp only [FieldLines.trailers, hnil htext]
  · rintro ⟨⟨fields, htext, -, hroom, rfl⟩, hfree⟩
    rw [parts_of_free hfree] at htext
    have hlen := congrArg List.length htext
    rw [List.length_map, List.length_map] at hlen
    exact ⟨⟨fields, htext, by simp only [FieldLines.trailers, hnil htext]⟩, hlen ▸ hroom⟩

end RawLines

theorem Section.isEmpty_collected (lines : RawLines) :
    (Section.collected lines).text.isEmpty = decide (lines = []) := by
  cases lines with
  | nil => rfl
  | cons line rest => simp [collected, RawLines.wire, RawLine.wire, line.ne]

theorem Section.trailers_collected (lines : RawLines) (trailers : Option Headers) :
    (Section.collected lines).trailers = .ok trailers ↔ lines.ReadAs trailers := by
  rw [Section.trailers, isEmpty_collected]
  by_cases hnil : lines = []
  · subst hnil
    constructor
    · intro h
      cases h
      exact ⟨[], rfl, Nat.le_refl _, Nat.zero_le _, rfl⟩
    · rintro ⟨fields, -, -, -, rfl⟩
      rfl
  · simp only [decide_eq_false hnil, Bool.false_eq_true, if_false, collected]
    constructor
    · intro h
      cases hparse : Trailers.parse lines.length lines.wire with
      | error fault => rw [hparse] at h; cases h
      | ok headers =>
        rw [hparse] at h
        cases h
        obtain ⟨fields, htext, hlen, hroom, rfl⟩ :=
          Trailers.parse_sound lines.parts_wire lines.isPlain_parts hparse
        exact ⟨fields, htext, hlen, hroom, by rw [if_neg hnil]⟩
    · rintro ⟨fields, htext, hlen, hroom, rfl⟩
      rw [FieldLines.parse_parts lines.parts_wire htext hlen, if_pos hroom, if_neg hnil]
      rfl

theorem Section.trailers_overrun (lines : RawLines) :
    (Section.collected lines).trailers = .error .overrun ↔ lines.Overrun := by
  rw [Section.trailers, isEmpty_collected]
  by_cases hnil : lines = []
  · subst hnil
    constructor
    · intro h
      cases h
    · rintro ⟨fields, -, hlen, hmany⟩
      exact absurd hmany (by rw [Nat.le_zero.1 hlen]; decide)
  · simp only [decide_eq_false hnil, Bool.false_eq_true, if_false, collected]
    constructor
    · intro h
      cases hparse : Trailers.parse lines.length lines.wire with
      | error failure =>
        rw [hparse] at h
        cases h
        exact Trailers.parse_overrun lines.parts_wire lines.isPlain_parts hparse
      | ok headers => rw [hparse] at h; cases h
    · rintro ⟨fields, htext, hlen, hmany⟩
      rw [FieldText.parse_parts lines.parts_wire htext hlen, if_neg (Nat.not_le_of_lt hmany)]
      rfl

/-- Where the decoder stands behind the bytes of a section. -/
inductive Collects : Phase → Bytes → Prop
  | between (lines : RawLines) : Collects (.endCr (.collected lines)) lines.wire
  | within (lines : RawLines) (line : RawLine) (count : Nat) :
      Collects (.trailer ⟨(lines.wire ++ line.bytes).toArray, lines.length⟩ count)
        (lines.wire ++ line.bytes)
  | lineCr (lines : RawLines) (line : RawLine) :
      Collects (.trailerLf ⟨(lines.wire ++ line.bytes).toArray, lines.length⟩)
        (lines.wire ++ line.bytes ++ [cr])
  | lastCr (lines : RawLines) : Collects (.endLf (.collected lines)) (lines.wire ++ [cr])
  | ended {trailers : Option Headers} (lines : RawLines) (h : lines.ReadAs trailers) :
      Collects (.done trailers) (lines.wire ++ Bytes.crlf)

variable {phase next last : Phase} {text : Bytes} {b : UInt8} {marked : Marked}

theorem Collects.moved (h : Collects phase text) (hd : phase.isDone = false)
    (hs : phase.step .none b = .moved next) : Collects next (text ++ [b]) := by
  cases h with
  | between lines =>
    simp only [step] at hs
    split at hs
    · next hcr =>
      cases hs
      rw [hcr]
      exact .lastCr lines
    · next hcr =>
      cases hs
      have hline := Collects.within lines ⟨[b], List.cons_ne_nil _ _, by simpa using hcr⟩ 1
      rwa [Section.collected, Section.push_toArray]
  | within lines line count =>
    simp only [step] at hs
    split at hs
    · next hcr =>
      cases hs
      rw [hcr]
      exact .lineCr lines line
    · next hcr =>
      cases hs
      have hfree : ∀ c ∈ line.bytes ++ [b], c ≠ cr := by
        intro c hc
        rcases List.mem_append.1 hc with hc | hc
        · exact line.free c hc
        · rw [List.mem_singleton.1 hc]
          exact hcr
      have hline := Collects.within lines
        ⟨line.bytes ++ [b], List.append_ne_nil_of_right_ne_nil _ (List.cons_ne_nil _ _), hfree⟩
        (count + 1)
      rwa [Section.push_toArray, List.append_assoc]
  | lineCr lines line =>
    simp only [step] at hs
    split at hs
    · next hlf =>
      rw [Section.endLine_toArray] at hs
      cases hs
      have hlines := Collects.between (lines ++ [line])
      rw [RawLines.wire_snoc, RawLine.wire, Bytes.crlf] at hlines
      rw [hlf]
      simpa using hlines
    · cases hs
  | lastCr lines =>
    simp only [step, stepEndLf] at hs
    split at hs
    · next hlf =>
      split at hs
      · next trailers htrailers =>
        cases hs
        rw [hlf, List.append_assoc]
        exact .ended lines ((Section.trailers_collected lines trailers).1 htrailers)
      · cases hs
    · cases hs
  | ended lines => cases hd

/-- A section has no data. -/
theorem Collects.passes (h : Collects phase text) (hp : Passes .none phase marked last) :
    Collects last (text ++ marked.bytes) ∧ marked.data = [] := by
  induction hp generalizing text with
  | here => rw [Marked.bytes_nil, List.append_nil]; exact ⟨h, rfl⟩
  | moved hd hs _ ih =>
    rw [Marked.bytes_cons, List.append_cons]
    exact ih (h.moved hd hs)
  | delivered hd hs _ ih =>
    obtain ⟨left, rfl, -⟩ := step_delivered hs
    cases h

/-- What has passed on the way to the end of a body is its chunk part and its section. -/
theorem path_of_done {trailers : Option Headers}
    (hp : Passes .none .start marked (.done trailers)) :
    ∃ (part : ChunkPart) (lines : RawLines),
      marked.bytes = part.wire ++ lines.wire ++ Bytes.crlf ∧ marked.data = part.data
        ∧ lines.ReadAs trailers := by
  cases stands_of_passes hp with
  | within chunks h => cases h.isDone_eq_false
  | beyond part more h =>
    obtain ⟨between, hpart, hmore⟩ := hp.split
    obtain ⟨-, rfl⟩ := hpart.unique part.passes rfl
    obtain ⟨hsection, hdata⟩ := (Collects.between []).passes hmore
    generalize hbytes : RawLines.wire [] ++ more.bytes = collected at hsection
    cases hsection with
    | ended lines hread =>
      refine ⟨part, lines, ?_, ?_, hread⟩
      · rw [Marked.bytes_append, ChunkPart.bytes_marked, List.append_assoc, ← hbytes]
        rfl
      · rw [Marked.data_append, ChunkPart.data_marked, hdata, List.append_nil]

theorem drain_lines (part : ChunkPart) (lines : RawLines) (rest : Bytes) :
    (fresh.drain (part.wire ++ lines.wire ++ rest)).2
      = (Phase.scan .none (.endCr (.collected lines)) rest).last.map (.chunked .none) := by
  have hlines := part.passes.trans (lines.passes [])
  have hscan := hlines.scan_append rest
  rw [Marked.bytes_append, ChunkPart.bytes_marked, Marked.bytes_framing, List.nil_append] at hscan
  rw [(drain_fresh _).2, hscan, Scan.prepend_last]

/-- The empty line that ends a section has its fields read. -/
theorem drain_section (part : ChunkPart) (lines : RawLines) (rest : Bytes) :
    (fresh.drain (part.wire ++ lines.wire ++ Bytes.crlf ++ rest)).2
      = match (Section.collected lines).trailers with
        | .ok trailers => ⟨.endOfBody, .chunked .none (.done trailers), rest⟩
        | .error failure =>
          ⟨.failed (failure.map Trailers.Fault.error),
            .chunked .none (.endLf (.collected lines)), rest⟩ := by
  have hcr : Phase.step .none cr (.endCr (.collected lines)) = .moved (.endLf (.collected lines)) :=
    rfl
  have hlf : Phase.step .none lf (.endLf (.collected lines)) = stepEndLf (.collected lines) := rfl
  rw [List.append_assoc _ Bytes.crlf, drain_lines, Bytes.crlf, List.cons_append,
    scan_moved rfl hcr, List.singleton_append]
  cases htrailers : (Section.collected lines).trailers with
  | ok trailers =>
    rw [stepEndLf, htrailers] at hlf
    rw [scan_moved rfl hlf, scan_done rfl]
    rfl
  | error failure =>
    rw [stepEndLf, htrailers] at hlf
    rw [scan_refused rfl hlf]
    rfl

/-- A CR in a section has its LF behind it. -/
theorem drain_lone_cr (part : ChunkPart) (lines : RawLines) {bytes : Bytes} {b : UInt8}
    (hfree : ∀ c ∈ bytes, c ≠ cr) (hb : b ≠ lf) (rest : Bytes) :
    let found := (fresh.drain (part.wire ++ lines.wire ++ (bytes ++ [cr, b] ++ rest))).2
    found.rest = rest ∧ found.item = .failed (.error
      (if bytes = [] then ChunkFault.endLf.error else Trailers.Fault.lineEnd.error)) := by
  intro found
  have hfound : found = _ := drain_lines part lines (bytes ++ [cr, b] ++ rest)
  by_cases hbytes : bytes = []
  · subst hbytes
    have hcr : Phase.step .none cr (.endCr (.collected lines))
        = .moved (.endLf (.collected lines)) := rfl
    have hrefused : Phase.step .none b (.endLf (.collected lines))
        = .refused (.endLf (.collected lines)) (.error ChunkFault.endLf.error) := if_neg hb
    rw [List.nil_append, List.cons_append, List.cons_append, scan_moved rfl hcr,
      scan_refused rfl hrefused] at hfound
    rw [hfound]
    exact ⟨rfl, rfl⟩
  · obtain ⟨count, hline⟩ := RawLine.passes_bytes ⟨bytes, hbytes, hfree⟩ lines
    have hcr := hline.trans (.move rfl rfl : Passes .none (.trailer _ count) (.framing [cr])
      (.trailerLf ⟨(lines.wire ++ bytes).toArray, lines.length⟩))
    have hrefused : Phase.step .none b (.trailerLf ⟨(lines.wire ++ bytes).toArray, lines.length⟩)
        = .refused (.trailerLf ⟨(lines.wire ++ bytes).toArray, lines.length⟩)
          (.error Trailers.Fault.lineEnd.error) := if_neg hb
    have hscan := hcr.scan_append (b :: rest)
    rw [scan_refused rfl hrefused, ← Marked.framing_append, Marked.bytes_framing] at hscan
    have htext : bytes ++ [cr, b] ++ rest = bytes ++ [cr] ++ b :: rest := by simp
    rw [htext, hscan] at hfound
    rw [hfound, if_neg hbytes]
    exact ⟨rfl, rfl⟩

theorem drain_ended {text rest : Bytes} {trailers : Option Headers}
    (hitem : (fresh.drain text).2.item = .endOfBody)
    (htrailers : (fresh.drain text).2.decoder.trailers = trailers)
    (hrest : (fresh.drain text).2.rest = rest) :
    ∃ (part : ChunkPart) (lines : RawLines),
      text = part.wire ++ lines.wire ++ Bytes.crlf ++ rest ∧ delivered text = part.data
        ∧ lines.ReadAs trailers := by
  obtain ⟨hdata, hlast⟩ := drain_fresh text
  obtain ⟨marked, last, left, hp, htext, hstop⟩ := exists_passes .none .start text
  rw [hlast] at hitem htrailers hrest
  rw [hdata]
  generalize Phase.start.scan .none text = found at hitem htrailers hrest hstop
  cases hstop with
  | needMore hd => cases hitem
  | refused hd hs rest => cases hitem
  | ended hd =>
    obtain rfl : left = rest := hrest
    cases last with
    | done found =>
      obtain rfl : found = trailers := htrailers
      obtain ⟨part, lines, hbytes, hgiven, hread⟩ := path_of_done hp
      exact ⟨part, lines, by rw [htext, hbytes], hgiven, hread⟩
    | _ => cases hd

/-- How trailers come about. A body ends exactly with a section whose lines read as its trailers,
and any other section is refused: lines that read as nothing with their empty line, and a lone CR
with the byte behind it. Lines that read as more fields than any map has room for end the program.
The trailers have one field for each line exactly when no line holds an LF. -/
theorem drain_trailers (text : Bytes) :
    (∀ (rest : Bytes) (trailers : Option Headers),
        ((fresh.drain text).2.item = .endOfBody ∧ (fresh.drain text).2.decoder.trailers = trailers
          ∧ (fresh.drain text).2.rest = rest)
        ↔ ∃ (part : ChunkPart) (lines : RawLines),
          text = part.wire ++ lines.wire ++ Bytes.crlf ++ rest ∧ delivered text = part.data
            ∧ lines.ReadAs trailers)
      ∧ (∀ (part : ChunkPart) (lines : RawLines) (rest : Bytes),
          text = part.wire ++ lines.wire ++ Bytes.crlf ++ rest →
            ((fresh.drain text).2.item = .failed .overrun ↔ lines.Overrun)
              ∧ ((∀ trailers, ¬ lines.ReadAs trailers) → ¬ lines.Overrun →
                ∃ reason, (fresh.drain text).2.item = .failed (.error (.invalidTrailer reason)))
              ∧ (fresh.drain text).2.rest = rest)
      ∧ (∀ (part : ChunkPart) (lines : RawLines) (bytes : Bytes) (b : UInt8) (rest : Bytes),
          text = part.wire ++ lines.wire ++ (bytes ++ [cr, b] ++ rest) →
          (∀ c ∈ bytes, c ≠ cr) → b ≠ lf →
            (∃ error, (fresh.drain text).2.item = .failed (.error error))
              ∧ (fresh.drain text).2.rest = rest)
      ∧ ∀ (lines : RawLines) (trailers : Option Headers),
          (lines.ByLine trailers ∧ lines.length ≤ 24576)
            ↔ lines.ReadAs trailers ∧ ∀ line ∈ lines, lf ∉ line.bytes := by
  refine ⟨fun rest trailers => ⟨?_, ?_⟩, ?_, ?_, RawLines.byLine_iff⟩
  · rintro ⟨hitem, htrailers, hrest⟩
    exact drain_ended hitem htrailers hrest
  · rintro ⟨part, lines, rfl, -, hread⟩
    rw [drain_section, (Section.trailers_collected lines trailers).2 hread]
    exact ⟨rfl, rfl, rfl⟩
  · rintro part lines rest rfl
    have hfound := drain_section part lines rest
    rw [← Section.trailers_overrun]
    cases htrailers : (Section.collected lines).trailers with
    | ok trailers =>
      have hread := (Section.trailers_collected lines trailers).1 htrailers
      rw [htrailers] at hfound
      rw [hfound]
      exact ⟨⟨nofun, nofun⟩, fun hnone => absurd hread (hnone trailers), rfl⟩
    | error failure =>
      rw [htrailers] at hfound
      rw [hfound]
      cases failure with
      | error fault => exact ⟨⟨nofun, nofun⟩, fun _ _ => ⟨fault.text, rfl⟩, rfl⟩
      | overrun => exact ⟨⟨fun _ => rfl, fun _ => rfl⟩, fun _ hno => absurd rfl hno, rfl⟩
  · rintro part lines bytes b rest rfl hfree hb
    obtain ⟨hrest, hitem⟩ := drain_lone_cr part lines hfree hb rest
    exact ⟨⟨_, hitem⟩, hrest⟩

/-! Two lines with a lone LF in them: the first is read as two fields, and the second begins with
an LF, which ends the section, so that what stands behind it is dropped. -/

namespace Divided

/-- `A: 1`, LF, `B: 2`. -/
def first : RawLine := ⟨[65, 58, 32, 49, 10, 66, 58, 32, 50], by simp, by simp [cr]⟩

/-- LF, `C: 3`. -/
def second : RawLine := ⟨[10, 67, 58, 32, 51], by simp, by simp [cr]⟩

def part : ChunkPart := ⟨[], .zero, SizeLine.value_zero⟩

def field (name value : UInt8) (hname : isToken name && !isUpper name)
    (hvalue : isFieldContent value) : Field :=
  ⟨⟨[name], by simp, by simp, by simpa using hname⟩, ⟨[value], by simpa using hvalue⟩⟩

def trailers : Headers := ⟨[field 97 49 rfl rfl, field 98 50 rfl rfl]⟩

theorem drain_divided :
    let found := (fresh.drain (part.wire ++ RawLines.wire [first, second] ++ Bytes.crlf)).2
    found.item = .endOfBody ∧ found.decoder.trailers = some trailers ∧ found.rest = []
      ∧ ∀ trailers, ¬ RawLines.ByLine [first, second] trailers := by
  have htrailers : (Section.collected [first, second]).trailers = .ok (some trailers) := by
    cbv
  have hdrain := drain_section part [first, second] []
  rw [htrailers, List.append_nil] at hdrain
  intro found
  have hfound : found = _ := hdrain
  rw [hfound]
  refine ⟨rfl, rfl, rfl, fun trailers hby => ?_⟩
  obtain ⟨-, hfree⟩ := (RawLines.byLine_iff _ _).1 ⟨hby, by decide⟩
  exact hfree first List.mem_cons_self (by decide)

end Divided
end Http1.Chunked
