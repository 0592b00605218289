import Http1.Proofs.Cuts
import Http1.Proofs.Grammar

/-! A trailer section of field lines, and with it the whole of a chunked body. What was collected of
such a section is read as exactly its fields (`FieldLines.parseLines_parts`), so all bytes of a body
in front of its last LF pass (`WholeBody.passes_front`). At the LF the decoder has the trailers and
the body its end, as long as there are no more of them than a map has room for: with more the
program ends there (`WholeBody.scan_front`). -/

namespace Http1.Trailers

open Byte

/-- What a field line can end with: a lone LF will do as well. -/
def IsLineEnd (ending : Bytes) : Prop := ending = [lf] ∨ ending = Bytes.crlf

namespace IsLineEnd

variable {ending : Bytes}

theorem after (h : IsLineEnd ending) (rest : Bytes) :
    afterLineEnd? (ending ++ rest) = some rest := by
  rcases h with rfl | rfl <;> rfl

theorem takeWhile (h : IsLineEnd ending) {p : UInt8 → Bool} (hcr : p cr = false)
    (hlf : p lf = false) (part rest : Bytes) :
    (part ++ ending ++ rest).takeWhile p = part.takeWhile p := by
  induction part with
  | nil => rcases h with rfl | rfl <;> simp [Bytes.crlf, hcr, hlf]
  | cons b more ih =>
    rw [List.cons_append, List.cons_append, List.takeWhile_cons, ih, List.takeWhile_cons]

theorem dropWhile (h : IsLineEnd ending) {p : UInt8 → Bool} (hcr : p cr = false)
    (hlf : p lf = false) (part rest : Bytes) :
    (part ++ ending ++ rest).dropWhile p = part.dropWhile p ++ ending ++ rest := by
  induction part with
  | nil => rcases h with rfl | rfl <;> simp [Bytes.crlf, hcr, hlf]
  | cons b more ih =>
    rw [List.cons_append, List.cons_append, List.dropWhile_cons, List.dropWhile_cons]
    split
    · exact ih
    · rfl

end IsLineEnd

/-- A line end stands at the start or there is none. -/
theorem afterLineEnd_none {b : UInt8} (hcr : b ≠ cr) (hlf : b ≠ lf) (rest : Bytes) :
    afterLineEnd? (b :: rest) = none := by
  unfold afterLineEnd?
  simp only [hlf, hcr, false_and, if_false]
  split <;> rfl

/-- The text consists of these parts, each with a line end behind it. -/
inductive Parts : List Bytes → Bytes → Prop
  | none : Parts [] []
  | cons {part ending text : Bytes} {parts : List Bytes} (he : IsLineEnd ending)
      (rest : Parts parts text) : Parts (part :: parts) (part ++ ending ++ text)

theorem Parts.append {front back : List Bytes} {text more : Bytes} (hf : Parts front text)
    (hb : Parts back more) : Parts (front ++ back) (text ++ more) := by
  induction hf with
  | none => exact hb
  | cons he _ ih =>
    rw [List.append_assoc]
    exact .cons he ih

end Http1.Trailers

namespace Http1.Chunked

open Phase Byte

/-- The text of a field line: the name as it is spelled, a colon, and a value with blanks around
it. -/
structure FieldText where
  name : Bytes
  lead : Bytes
  value : Bytes
  trail : Bytes
  name_ne : name ≠ []
  name_token : ∀ b ∈ name, isToken b
  lead_blank : ∀ b ∈ lead, isBlank b
  value_content : ∀ b ∈ value, isFieldContent b
  value_head : ∀ b ∈ value.head?, ¬ isBlank b
  value_last : ∀ b ∈ value.getLast?, ¬ isBlank b
  trail_blank : ∀ b ∈ trail, isBlank b

/-- A field line has a name that is short enough for a field. -/
structure FieldLine extends FieldText where
  name_short : name.length ≤ 65535

theorem lower_token {b : UInt8} (h : isToken b) :
    (isToken (lower b) && !isUpper (lower b)) = true := by
  have hall : ∀ n : Fin 256, isToken (UInt8.ofNat n.val) = true →
      (isToken (lower (UInt8.ofNat n.val)) && !isUpper (lower (UInt8.ofNat n.val))) = true := by
    decide +kernel
  have := hall ⟨b.toNat, b.toNat_lt⟩
  simpa using this (by simpa using h)

theorem token_ne {b : UInt8} (h : isToken b) : b ≠ cr ∧ b ≠ lf ∧ b ≠ colon := by
  refine ⟨?_, ?_, ?_⟩ <;> rintro rfl <;> revert h <;> decide

theorem content_of_blank {b : UInt8} (h : isBlank b) : isFieldContent b := by
  rcases isBlank_iff.1 h with rfl | rfl <;> decide

theorem content_ne {b : UInt8} (h : isFieldContent b) : b ≠ cr ∧ b ≠ lf := by
  refine ⟨?_, ?_⟩ <;> rintro rfl <;> revert h <;> decide

namespace FieldText

def text (line : FieldText) : Bytes :=
  line.name ++ colon :: (line.lead ++ line.value ++ line.trail)

theorem content_free (line : FieldText) :
    ∀ b ∈ line.lead ++ line.value ++ line.trail, isFieldContent b := by
  intro b hb
  rcases List.mem_append.1 hb with hb | hb
  · rcases List.mem_append.1 hb with hb | hb
    · exact content_of_blank (line.lead_blank b hb)
    · exact line.value_content b hb
  · exact content_of_blank (line.trail_blank b hb)

theorem text_ne (line : FieldText) : line.text ≠ [] :=
  List.append_ne_nil_of_right_ne_nil _ (List.cons_ne_nil _ _)

theorem text_free (line : FieldText) : ∀ b ∈ line.text, b ≠ cr ∧ b ≠ lf := by
  intro b hb
  rcases List.mem_append.1 hb with hb | hb
  · obtain ⟨hcr, hlf, -⟩ := token_ne (line.name_token b hb)
    exact ⟨hcr, hlf⟩
  · rcases List.mem_cons.1 hb with rfl | hb
    · decide
    · exact content_ne (line.content_free b hb)

theorem dropWhile_of_head {p : UInt8 → Bool} {text : Bytes} (h : ∀ b ∈ text.head?, ¬ p b) :
    text.dropWhile p = text := by
  cases text with
  | nil => rfl
  | cons b rest => exact List.dropWhile_cons_of_neg (h b rfl)

theorem trimEnd_value (line : FieldText) :
    Bytes.trimEnd (line.value ++ line.trail) = line.value := by
  have hblank : ∀ b ∈ line.trail.reverse, isBlank b :=
    fun b hb => line.trail_blank b (List.mem_reverse.1 hb)
  have hlast : ∀ b ∈ line.value.reverse.head?, ¬ isBlank b := by
    rw [List.head?_reverse]
    exact line.value_last
  rw [Bytes.trimEnd, List.reverse_append, List.dropWhile_append_of_pos hblank,
    dropWhile_of_head hlast, List.reverse_reverse]

/-- Behind the colon the blanks are dropped, and then the value goes on to the end. -/
theorem parse_behind (line : FieldText) :
    let behind := (line.lead ++ line.value ++ line.trail).dropWhile isBlank
    Bytes.trimEnd (behind.takeWhile isFieldContent) = line.value
      ∧ behind.dropWhile isFieldContent = [] := by
  intro behind
  have hlead : behind = (line.value ++ line.trail).dropWhile isBlank := by
    simp only [behind, List.append_assoc]
    exact List.dropWhile_append_of_pos line.lead_blank
  by_cases hv : line.value = []
  · have hb : behind = [] := by
      rw [hlead, hv, List.nil_append]
      exact List.dropWhile_eq_nil_iff.2 line.trail_blank
    rw [hb, hv]
    exact ⟨rfl, rfl⟩
  · have hcontent : ∀ b ∈ line.value ++ line.trail, isFieldContent b := fun b hb =>
      line.content_free b (by rw [List.append_assoc]; exact List.mem_append_right _ hb)
    have hb : behind = line.value ++ line.trail := by
      rw [hlead]
      refine dropWhile_of_head fun b hmem => line.value_head b ?_
      obtain ⟨c, more, hc⟩ := List.exists_cons_of_ne_nil hv
      rw [hc] at hmem ⊢
      exact hmem
    rw [hb, List.takeWhile_eq_self_iff.2 hcontent, line.trimEnd_value]
    exact ⟨rfl, List.dropWhile_eq_nil_iff.2 hcontent⟩

theorem parseLine_text (line : FieldText) {ending : Bytes} (he : Trailers.IsLineEnd ending)
    (rest : Bytes) :
    Trailers.parseLine (line.text ++ ending ++ rest) = .ok ((line.name, line.value), rest) := by
  obtain ⟨hvalue, hbehind⟩ := line.parse_behind
  have htake : (line.text ++ ending ++ rest).takeWhile isToken = line.name := by
    rw [he.takeWhile rfl rfl, text, List.takeWhile_append_of_pos line.name_token]
    exact List.append_nil _
  have hdrop : (line.text ++ ending ++ rest).dropWhile isToken
      = colon :: (line.lead ++ line.value ++ line.trail ++ ending ++ rest) := by
    rw [he.dropWhile rfl rfl, text, List.dropWhile_append_of_pos line.name_token]
    rfl
  obtain ⟨b, more, hname⟩ := List.exists_cons_of_ne_nil line.name_ne
  rw [Trailers.parseLine, htake, hdrop, hname]
  simp only [ne_eq, not_true_eq_false, if_false, he.dropWhile (p := isBlank) rfl rfl,
    he.dropWhile (p := isFieldContent) rfl rfl, he.takeWhile (p := isFieldContent) rfl rfl,
    hvalue, hbehind, List.nil_append, he.after rest]

/-- A field line cannot be taken for the end of its section. -/
theorem afterLineEnd_text (line : FieldText) (rest : Bytes) :
    (line.text ++ rest).isEmpty = false ∧ Trailers.afterLineEnd? (line.text ++ rest) = none := by
  obtain ⟨b, more, hname⟩ := List.exists_cons_of_ne_nil line.name_ne
  obtain ⟨hcr, hlf, -⟩ := token_ne (line.name_token b (hname ▸ List.mem_cons_self))
  have hcons : line.text ++ rest
      = b :: (more ++ colon :: (line.lead ++ line.value ++ line.trail) ++ rest) := by
    simp [text, hname]
  rw [hcons]
  exact ⟨rfl, Trailers.afterLineEnd_none hcr hlf _⟩

/-- Field lines are read up to the first empty one, whatever they end with. -/
theorem parseLines_parts {parts : List Bytes} {text : Bytes} (h : Trailers.Parts parts text)
    {lines : List FieldText} (hl : lines.map FieldText.text = parts.takeWhile (· ≠ []))
    (done : List (Bytes × Bytes)) {room : Nat} (hroom : lines.length ≤ room) :
    Trailers.parseLines done room text
      = .ok (done.reverse ++ lines.map fun line => (line.name, line.value)) := by
  induction h generalizing lines done room with
  | none =>
    rw [List.map_eq_nil_iff.1 hl]
    simp [Trailers.parseLines]
  | @cons part ending text parts he _ ih =>
    by_cases hpart : part = []
    · subst hpart
      rw [List.takeWhile_cons_of_neg (by simp)] at hl
      rw [List.map_eq_nil_iff.1 hl, Trailers.parseLines, List.nil_append, he.after]
      simp
    · rw [List.takeWhile_cons_of_pos (by simpa using hpart)] at hl
      obtain ⟨line, lines, rfl, rfl, hmore⟩ := List.map_eq_cons_iff.1 hl
      obtain ⟨room, rfl⟩ : ∃ n, room = n + 1 := ⟨room - 1, by simp at hroom; omega⟩
      obtain ⟨hempty, hend⟩ := line.afterLineEnd_text (ending ++ text)
      rw [← List.append_assoc] at hempty hend
      rw [Trailers.parseLines, hempty, hend, line.parseLine_text he]
      simp only [Option.isSome_none, Bool.false_eq_true, or_self, if_false]
      rw [ih hmore _ (by simpa using hroom)]
      simp

/-- The fields go into one map, if there is one with room for all of them. -/
theorem parse_parts {parts : List Bytes} {text : Bytes} (h : Trailers.Parts parts text)
    {lines : List FieldText} (hl : lines.map FieldText.text = parts.takeWhile (· ≠ []))
    {room : Nat} (hroom : lines.length ≤ room) :
    Trailers.parse room text
      = if lines.length ≤ 24576 then
          (Headers.ofPairs (lines.map fun line => (line.name, line.value))).mapError
            fun error => .error (.field error)
        else .error .overrun := by
  rw [Trailers.parse, parseLines_parts h hl [] hroom, List.reverse_nil, List.nil_append]
  simp only [List.length_map, Headers.hasRoom_iff]

end FieldText

namespace FieldLine

abbrev text (line : FieldLine) : Bytes := line.toFieldText.text

def wire (line : FieldLine) : Bytes := line.text ++ Bytes.crlf

theorem toLower_valid (line : FieldLine) : line.name.toLower ≠ []
    ∧ line.name.toLower.length ≤ 65535
    ∧ line.name.toLower.all (fun b => isToken b && !isUpper b) = true := by
  refine ⟨by simpa [Bytes.toLower] using line.name_ne,
    by simpa [Bytes.toLower] using line.name_short, List.all_eq_true.2 ?_⟩
  intro b hb
  obtain ⟨c, hc, rfl⟩ := List.mem_map.1 hb
  exact lower_token (line.name_token c hc)

/-- The field that the line stands for. -/
def field (line : FieldLine) : Field where
  name := ⟨line.name.toLower, line.toLower_valid⟩
  value := ⟨line.value, List.all_eq_true.2 line.value_content⟩

theorem ofBytes_eq_field (line : FieldLine) :
    Field.ofBytes line.name line.value = .ok line.field := by
  have hname : FieldName.ofBytes? line.name = some ⟨line.name.toLower, line.toLower_valid⟩ :=
    dif_pos line.toLower_valid
  have hvalue : FieldValue.ofBytes? line.value
      = some ⟨line.value, List.all_eq_true.2 line.value_content⟩ :=
    dif_pos (List.all_eq_true.2 line.value_content)
  rw [Field.ofBytes, hname, hvalue]
  rfl

/-- The line `a:`. -/
def bare : FieldLine where
  name := [97]
  lead := []
  value := []
  trail := []
  name_ne := by simp
  name_short := by simp
  name_token := by simp; rfl
  lead_blank := by simp
  value_content := by simp
  value_head := by simp
  value_last := by simp
  trail_blank := by simp

end FieldLine

abbrev FieldLines := List FieldLine

namespace FieldLines

def wire (lines : FieldLines) : Bytes := lines.flatMap FieldLine.wire

theorem ofPairs_fields (lines : FieldLines) :
    Headers.ofPairs (lines.map fun line => (line.name, line.value))
      = .ok ⟨lines.map FieldLine.field⟩ := by
  have hmap : (lines.map fun line => (line.name, line.value)).mapM
      (fun (name, value) => Field.ofBytes name value) = .ok (lines.map FieldLine.field) := by
    induction lines with
    | nil => rfl
    | cons line rest ih =>
      simp only [List.map_cons, List.mapM_cons, line.ofBytes_eq_field, ih]
      rfl
  rw [Headers.ofPairs, hmap]
  rfl

theorem parse_parts {parts : List Bytes} {text : Bytes} (h : Trailers.Parts parts text)
    {lines : FieldLines} (hl : lines.map FieldLine.text = parts.takeWhile (· ≠ [])) {room : Nat}
    (hroom : lines.length ≤ room) :
    Trailers.parse room text
      = if lines.length ≤ 24576 then .ok ⟨lines.map FieldLine.field⟩ else .error .overrun := by
  have hlen : (lines.map FieldLine.toFieldText).length ≤ room := by rwa [List.length_map]
  have htext : (lines.map FieldLine.toFieldText).map FieldText.text = parts.takeWhile (· ≠ []) := by
    rwa [List.map_map]
  have hof := lines.ofPairs_fields
  rw [FieldText.parse_parts h htext hlen, List.map_map, List.length_map]
  simp only [Function.comp_def, hof]
  rfl

theorem parts_wire (lines : FieldLines) :
    Trailers.Parts (lines.map FieldLine.text) lines.wire := by
  induction lines with
  | nil => exact .none
  | cons line rest ih => exact .cons (.inr rfl) ih

theorem takeWhile_text (lines : FieldLines) :
    (lines.map FieldLine.text).takeWhile (· ≠ []) = lines.map FieldLine.text := by
  refine List.takeWhile_eq_self_iff.2 fun part hpart => ?_
  obtain ⟨line, -, rfl⟩ := List.mem_map.1 hpart
  exact decide_eq_true line.text_ne

theorem parseLines_wire (lines : FieldLines) :
    Trailers.parseLines [] lines.length lines.wire
      = .ok (lines.map fun line => (line.name, line.value)) := by
  have htext : (lines.map FieldLine.toFieldText).map FieldText.text
      = (lines.map FieldLine.text).takeWhile (· ≠ []) := by
    rw [takeWhile_text, List.map_map]
    rfl
  have hread := FieldText.parseLines_parts lines.parts_wire htext [] (List.length_map _).le
  rwa [List.reverse_nil, List.nil_append, List.map_map] at hread

end FieldLines

/-- The section that holds complete lines. -/
def Section.ofLines (lines : FieldLines) : Section := ⟨lines.wire.toArray, lines.length⟩

/-- The trailers of a section of field lines: none at all when there is no line. -/
def FieldLines.trailers (lines : FieldLines) : Option Headers :=
  if lines = [] then none else some ⟨lines.map FieldLine.field⟩

theorem Section.trailers_ofLines (lines : FieldLines) :
    (Section.ofLines lines).trailers
      = if lines.length ≤ 24576 then .ok lines.trailers else .error .overrun := by
  cases lines with
  | nil => rfl
  | cons line rest =>
    have hne : (Section.ofLines (line :: rest)).text.isEmpty = false := by
      simp [Section.ofLines, FieldLines.wire, FieldLine.wire, line.text_ne]
    have hparse := FieldLines.parse_parts (FieldLines.parts_wire (line :: rest))
      (FieldLines.takeWhile_text _).symm (Nat.le_refl _)
    rw [Section.trailers, hne]
    simp only [Section.ofLines, hparse, Bool.false_eq_true, if_false]
    by_cases hroom : (line :: rest).length ≤ 24576
    · rw [if_pos hroom, if_pos hroom]; rfl
    · rw [if_neg hroom, if_neg hroom]; rfl

theorem Section.push_toArray (front : Bytes) (lines : Nat) (b : UInt8) :
    Section.push ⟨front.toArray, lines⟩ b = ⟨(front ++ [b]).toArray, lines⟩ := by
  rw [push, List.push_toArray]

theorem passes_trailer (front bytes : Bytes) (lines count : Nat) (h : ∀ b ∈ bytes, b ≠ cr) :
    Passes .none (.trailer ⟨front.toArray, lines⟩ count) (.framing bytes)
      (.trailer ⟨(front ++ bytes).toArray, lines⟩ (count + bytes.length)) := by
  induction bytes generalizing front count with
  | nil => rw [List.append_nil]; exact .here _
  | cons b rest ih =>
    have hs : Phase.step .none b (.trailer ⟨front.toArray, lines⟩ count)
        = .moved (.trailer ⟨(front ++ [b]).toArray, lines⟩ (count + 1)) := by
      rw [step, if_neg (h b List.mem_cons_self), Section.push_toArray]
      rfl
    rw [List.append_cons, List.length_cons, Nat.add_comm rest.length, ← Nat.add_assoc]
    exact .moved rfl hs (ih (front ++ [b]) (count + 1) fun c hc => h c (List.mem_cons_of_mem _ hc))

/-- A line of the section as it is collected, whatever it holds: the bytes in front of its CR LF. -/
structure RawLine where
  bytes : Bytes
  ne : bytes ≠ []
  free : ∀ b ∈ bytes, b ≠ cr

def RawLine.wire (line : RawLine) : Bytes := line.bytes ++ Bytes.crlf

abbrev RawLines := List RawLine

def RawLines.wire (lines : RawLines) : Bytes := lines.flatMap RawLine.wire

theorem RawLines.wire_snoc (lines : RawLines) (line : RawLine) :
    wire (lines ++ [line]) = lines.wire ++ line.wire := by
  simp [wire]

/-- The section that has collected these lines. -/
def Section.collected (lines : RawLines) : Section := ⟨lines.wire.toArray, lines.length⟩

theorem Section.endLine_toArray (lines : RawLines) (line : RawLine) :
    Section.endLine ⟨(lines.wire ++ line.bytes).toArray, lines.length⟩
      = .collected (lines ++ [line]) := by
  simp only [endLine, List.push_toArray]
  simp [collected, RawLines.wire_snoc, RawLine.wire, Bytes.crlf]

theorem RawLine.passes_bytes (line : RawLine) (lines : RawLines) :
    ∃ count, Passes .none (.endCr (.collected lines)) (.framing line.bytes)
      (.trailer ⟨(lines.wire ++ line.bytes).toArray, lines.length⟩ count) := by
  have hfree := line.free
  obtain ⟨b, rest, hbytes⟩ := List.exists_cons_of_ne_nil line.ne
  rw [hbytes] at hfree ⊢
  have hfirst : Phase.step .none b (.endCr (.collected lines))
      = .moved (.trailer ⟨(lines.wire ++ [b]).toArray, lines.length⟩ 1) := by
    rw [step, if_neg (hfree b List.mem_cons_self), Section.collected, Section.push_toArray]
    rfl
  have hrest := passes_trailer (lines.wire ++ [b]) rest lines.length 1
    fun c hc => hfree c (List.mem_cons_of_mem _ hc)
  rw [← List.append_cons] at hrest
  exact ⟨_, .moved rfl hfirst hrest⟩

/-- A line is collected with its CR LF, and counts. -/
theorem RawLine.passes (line : RawLine) (lines : RawLines) :
    Passes .none (.endCr (.collected lines)) (.framing line.wire)
      (.endCr (.collected (lines ++ [line]))) := by
  obtain ⟨count, hbytes⟩ := line.passes_bytes lines
  have hcr : Passes .none (.trailer _ count) (.framing [cr])
      (.trailerLf ⟨(lines.wire ++ line.bytes).toArray, lines.length⟩) := .move rfl rfl
  have hlf : Phase.step .none lf (.trailerLf ⟨(lines.wire ++ line.bytes).toArray, lines.length⟩)
      = .moved (.endCr (.collected (lines ++ [line]))) :=
    congrArg (fun collected => Step.moved (.endCr collected)) (Section.endLine_toArray lines line)
  rw [wire, Marked.framing_append]
  exact hbytes.trans (hcr.trans (.move rfl hlf))

theorem RawLines.passes (lines before : RawLines) :
    Passes .none (.endCr (.collected before)) (.framing lines.wire)
      (.endCr (.collected (before ++ lines))) := by
  induction lines generalizing before with
  | nil => rw [List.append_nil]; exact .here _
  | cons line rest ih =>
    have hw : wire (line :: rest) = line.wire ++ wire rest := by simp [wire]
    rw [hw, Marked.framing_append, List.append_cons]
    exact (line.passes before).trans (ih (before ++ [line]))

def FieldLine.raw (line : FieldLine) : RawLine :=
  ⟨line.text, line.text_ne, fun b hb => (line.text_free b hb).1⟩

theorem Section.collected_raw (lines : FieldLines) :
    Section.collected (lines.map FieldLine.raw) = .ofLines lines := by
  rw [collected, RawLines.wire, List.flatMap_map, List.length_map]
  rfl

theorem FieldLines.passes (lines : FieldLines) :
    Passes .none (.endCr .empty) (.framing lines.wire) (.endCr (.ofLines lines)) := by
  have hraw := RawLines.passes (lines.map FieldLine.raw) []
  rwa [List.nil_append, RawLines.wire, List.flatMap_map, Section.collected_raw] at hraw

/-- A chunked body from its first byte to its last. -/
structure WholeBody where
  part : ChunkPart
  lines : FieldLines

namespace WholeBody

def wire (body : WholeBody) : Bytes := body.part.wire ++ body.lines.wire ++ Bytes.crlf

def data (body : WholeBody) : Bytes := body.part.data

def trailers (body : WholeBody) : Option Headers := body.lines.trailers

def marked (body : WholeBody) : Marked :=
  body.part.marked ++ .framing body.lines.wire ++ .framing Bytes.crlf

@[simp] theorem bytes_marked (body : WholeBody) : body.marked.bytes = body.wire := by
  simp [marked, wire]

@[simp] theorem data_marked (body : WholeBody) : body.marked.data = body.data := by
  simp [marked, data]

/-- There is a map that the trailers go into. -/
def HasRoom (body : WholeBody) : Prop := body.lines.length ≤ 24576

instance (body : WholeBody) : Decidable body.HasRoom :=
  inferInstanceAs (Decidable (body.lines.length ≤ 24576))

/-- The body without its last LF. -/
def front (body : WholeBody) : Marked :=
  body.part.marked ++ .framing body.lines.wire ++ .framing [cr]

theorem marked_front (body : WholeBody) : body.marked = body.front ++ .framing [lf] := by
  rw [marked, front, List.append_assoc _ (Marked.framing [cr]), ← Marked.framing_append]
  rfl

theorem bytes_front (body : WholeBody) : body.front.bytes ++ [lf] = body.wire := by
  rw [← bytes_marked, marked_front, Marked.bytes_append, Marked.bytes_framing]

theorem data_front (body : WholeBody) : body.front.data = body.data := by
  rw [← data_marked, marked_front, Marked.data_append, Marked.data_framing, List.append_nil]

theorem passes_front (body : WholeBody) :
    Passes .none .start body.front (.endLf (.ofLines body.lines)) :=
  (body.part.passes.trans body.lines.passes).trans (.move rfl rfl)

/-- At the last LF the fields go into their map. -/
theorem step_last (limits : Limits) (body : WholeBody) :
    Phase.step limits lf (.endLf (.ofLines body.lines))
      = if body.HasRoom then .moved (.done body.trailers)
        else .refused (.endLf (.ofLines body.lines)) .overrun := by
  rw [step, if_pos rfl, stepEndLf, Section.trailers_ofLines]
  by_cases h : body.HasRoom
  · rw [if_pos h, if_pos (show body.lines.length ≤ 24576 from h)]; rfl
  · rw [if_neg h, if_neg (show ¬ body.lines.length ≤ 24576 from h)]; rfl

/-- What becomes of a body is settled at its last LF: it ends there, or the program does. -/
theorem scan_front {body : WholeBody} {limits : Limits}
    (hp : Passes limits .start body.front (.endLf (.ofLines body.lines))) (rest : Bytes) :
    BodyDecoder.scan (.start limits .chunked) (body.wire ++ rest)
      = if body.HasRoom then
          ⟨body.data, .endOfBody, .chunked limits (.done body.trailers), rest⟩
        else
          ⟨body.data, .failed .overrun, .chunked limits (.endLf (.ofLines body.lines)), rest⟩ := by
  have hlf := body.step_last limits
  have hscan := hp.scan_append (lf :: rest)
  rw [List.append_cons, bytes_front, data_front] at hscan
  rw [BodyDecoder.start, BodyDecoder.scan_chunked, hscan]
  by_cases h : body.HasRoom
  · rw [if_pos h] at hlf ⊢
    rw [scan_moved rfl hlf, scan_done rfl]
    simp [Scan.map, Scan.prepend, Decoded.map]
  · rw [if_neg h] at hlf ⊢
    rw [scan_refused rfl hlf]
    simp [Scan.map, Scan.prepend, Decoded.map]

/-- The decoder takes a whole body and nothing behind it. -/
theorem scan {body : WholeBody} (h : body.HasRoom) (rest : Bytes) :
    BodyDecoder.scan (.start .none .chunked) (body.wire ++ rest)
      = ⟨body.data, .endOfBody, .chunked .none (.done body.trailers), rest⟩ :=
  (scan_front body.passes_front rest).trans (if_pos h)

/-- A body with more fields than any map has room for gives its data and no end. -/
theorem scan_overrun {body : WholeBody} (h : ¬ body.HasRoom) (rest : Bytes) :
    BodyDecoder.scan (.start .none .chunked) (body.wire ++ rest)
      = ⟨body.data, .failed .overrun, .chunked .none (.endLf (.ofLines body.lines)), rest⟩ :=
  (scan_front body.passes_front rest).trans (if_neg h)

/-- A body that passes is decoded as far as there is room, however it is cut. -/
theorem feed_front {body : WholeBody} {limits : Limits} {first : Bytes} {others : List Bytes}
    (hp : Passes limits .start body.front (.endLf (.ofLines body.lines)))
    (h : first ++ others.flatten = body.wire) :
    let found := (BodyDecoder.start limits .chunked).feed [] first others
    found.data = body.data ∧ found.consumed = body.wire.length
      ∧ (body.HasRoom →
          found.last.item = .endOfBody ∧ found.last.decoder.trailers = body.trailers)
      ∧ (¬ body.HasRoom → found.last.item = .failed .overrun) := by
  intro found
  have hfed := (BodyDecoder.start limits .chunked).feed_cut h
  have hscan := scan_front hp []
  rw [List.append_nil] at hscan
  by_cases hroom : body.HasRoom
  · rw [hscan, if_pos hroom] at hfed
    exact ⟨hfed.data, hfed.consumed,
      fun _ => ⟨hfed.item, congrArg BodyDecoder.trailers hfed.decoder⟩, fun hn => absurd hroom hn⟩
  · rw [hscan, if_neg hroom] at hfed
    exact ⟨hfed.data, hfed.consumed, fun hn => absurd hn hroom, fun _ => hfed.item⟩

/-- A body without data that has this many lines `a:`. -/
def crowded (n : Nat) : WholeBody := ⟨⟨[], .zero, SizeLine.value_zero⟩, List.replicate n .bare⟩

theorem crowded_wire (n : Nat) : (crowded n).wire
    = [48, cr, lf] ++ (List.replicate n [97, colon, cr, lf]).flatten ++ [cr, lf] := by
  have hlines : (crowded n).lines.wire = (List.replicate n [97, colon, cr, lf]).flatten :=
    List.flatMap_replicate
  rw [wire, hlines]
  rfl

theorem crowded_hasRoom (n : Nat) : (crowded n).HasRoom ↔ n ≤ 24576 := by
  rw [HasRoom, crowded, List.length_replicate]

end WholeBody
end Http1.Chunked
