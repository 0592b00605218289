import Http1.Proofs.Marks

/-! The part of a chunked body up to its trailer section, as a grammar: chunks, then a size line of
value zero. `ChunkPart.passes` says that the phases let all of it pass and deliver the data of the
chunks. The grammar has a table of digits of its own, and `hexValue?_eq` says that the decoder reads
them so. -/

namespace Http1

namespace Byte

/-- The hexadecimal digits and what they stand for. -/
def digits : List (UInt8 × Nat) :=
  [('0', 0), ('1', 1), ('2', 2), ('3', 3), ('4', 4), ('5', 5), ('6', 6), ('7', 7), ('8', 8),
    ('9', 9), ('a', 10), ('b', 11), ('c', 12), ('d', 13), ('e', 14), ('f', 15),
    ('A', 10), ('B', 11), ('C', 12), ('D', 13), ('E', 14), ('F', 15)].map
      fun (digit, value) => (UInt8.ofNat digit.toNat, value)

def digit? (b : UInt8) : Option Nat := digits.lookup b

theorem hexValue?_eq (b : UInt8) : hexValue? b = digit? b := by
  have hall : ∀ n : Fin 256, hexValue? (.ofNat n) = digit? (.ofNat n) := by decide +kernel
  simpa using hall ⟨b.toNat, b.toNat_lt⟩

theorem digit?_hexDigit (n : Nat) (h : n < 16) : digit? (hexDigit n) = some n :=
  (hexValue?_eq _).symm.trans (hexValue?_hexDigit n h)

theorem digit?_lt {b : UInt8} {n : Nat} (h : digit? b = some n) : n < 16 :=
  hexValue?_lt ((hexValue?_eq b).trans h)

end Byte

/-- The number that hexadecimal digits denote, behind those that denote `front`. -/
def Bytes.hexNumber (front : Nat) (digits : Bytes) : Nat :=
  digits.foldl (fun n b => 16 * n + (Byte.digit? b).getD 0) front

theorem Bytes.hexNumber_snoc (front : Nat) (digits : Bytes) (b : UInt8) :
    Bytes.hexNumber front (digits ++ [b])
      = 16 * Bytes.hexNumber front digits + (Byte.digit? b).getD 0 := by
  rw [hexNumber, List.foldl_append]
  rfl

namespace Chunked

/-- A size line: digits, then blanks, then possibly an extension behind a semicolon. -/
structure SizeLine where
  digits : Bytes
  blanks : Bytes
  extension : Option Bytes
  digits_ne : digits ≠ []
  digits_hex : ∀ b ∈ digits, (Byte.digit? b).isSome
  small : digits.hexNumber 0 < 2 ^ 64
  blanks_blank : ∀ b ∈ blanks, b = Byte.space ∨ b = Byte.tab
  extension_free : ∀ text ∈ extension, ∀ b ∈ text, b ≠ Byte.cr ∧ b ≠ Byte.lf

namespace SizeLine

def value (line : SizeLine) : Nat := line.digits.hexNumber 0

def extensionText : Option Bytes → Bytes
  | none => []
  | some text => Byte.semicolon :: text

/-- The line without its CR LF. -/
def text (line : SizeLine) : Bytes := line.digits ++ line.blanks ++ extensionText line.extension

def wire (line : SizeLine) : Bytes := line.text ++ Bytes.crlf

/-- A line of digits only. -/
def plain (digits : Bytes) (hne : digits ≠ []) (hhex : ∀ b ∈ digits, (Byte.digit? b).isSome)
    (hsmall : digits.hexNumber 0 < 2 ^ 64) : SizeLine where
  digits := digits
  blanks := []
  extension := none
  digits_ne := hne
  digits_hex := hhex
  small := hsmall
  blanks_blank := fun _ hb => absurd hb List.not_mem_nil
  extension_free := fun _ ht => absurd ht (Option.not_mem_none _)

def ofDigit (b : UInt8) (h : (Byte.digit? b).isSome) : SizeLine :=
  plain [b] (List.cons_ne_nil _ _) (fun c hc => by rwa [List.mem_singleton.1 hc]) <| by
    obtain ⟨digit, hd⟩ := Option.isSome_iff_exists.1 h
    have := Byte.digit?_lt hd
    simp only [Bytes.hexNumber, List.foldl_cons, List.foldl_nil, hd, Option.getD_some]
    omega

/-- The shortest line of value zero. -/
def zero : SizeLine := ofDigit 48 (by decide)

theorem value_zero : zero.value = 0 := rfl

end SizeLine

/-- A chunk of at least one byte. -/
structure Chunk where
  line : SizeLine
  data : Bytes
  value_pos : 0 < line.value
  length_data : data.length = line.value

namespace Chunk

def wire (chunk : Chunk) : Bytes := chunk.line.wire ++ chunk.data ++ Bytes.crlf

def marked (chunk : Chunk) : Marked :=
  .framing chunk.line.wire ++ .content chunk.data ++ .framing Bytes.crlf

@[simp] theorem bytes_marked (chunk : Chunk) : chunk.marked.bytes = chunk.wire := by
  simp [marked, wire]

@[simp] theorem data_marked (chunk : Chunk) : chunk.marked.data = chunk.data := by
  simp [marked]

end Chunk

/-- Chunks one after the other. -/
abbrev Chunks := List Chunk

namespace Chunks

def wire (chunks : Chunks) : Bytes := chunks.flatMap Chunk.wire

def data (chunks : Chunks) : Bytes := chunks.flatMap Chunk.data

def marked (chunks : Chunks) : Marked := chunks.flatMap Chunk.marked

@[simp] theorem bytes_marked (chunks : Chunks) : chunks.marked.bytes = chunks.wire := by
  induction chunks with
  | nil => rfl
  | cons chunk rest ih =>
    rw [marked, wire, List.flatMap_cons, List.flatMap_cons, Marked.bytes_append,
      Chunk.bytes_marked]
    exact congrArg (chunk.wire ++ ·) ih

@[simp] theorem data_marked (chunks : Chunks) : chunks.marked.data = chunks.data := by
  induction chunks with
  | nil => rfl
  | cons chunk rest ih =>
    rw [marked, data, List.flatMap_cons, List.flatMap_cons, Marked.data_append, Chunk.data_marked]
    exact congrArg (chunk.data ++ ·) ih

theorem marked_snoc (chunks : Chunks) (chunk : Chunk) :
    marked (chunks ++ [chunk]) = chunks.marked ++ chunk.marked := by
  simp [marked]

end Chunks

/-- A body up to and including the size line that announces no data. -/
structure ChunkPart where
  chunks : Chunks
  last : SizeLine
  last_value : last.value = 0

namespace ChunkPart

def wire (part : ChunkPart) : Bytes := part.chunks.wire ++ part.last.wire

def data (part : ChunkPart) : Bytes := part.chunks.data

def marked (part : ChunkPart) : Marked := part.chunks.marked ++ .framing part.last.wire

/-- The data among the first `n` bytes. -/
def dataWithin (part : ChunkPart) (n : Nat) : Bytes := Marked.data (part.marked.take n)

@[simp] theorem bytes_marked (part : ChunkPart) : part.marked.bytes = part.wire := by
  simp [marked, wire]

@[simp] theorem data_marked (part : ChunkPart) : part.marked.data = part.data := by
  simp [marked, data]

end ChunkPart

section Passing

open Phase Byte

theorem le_hexNumber (front : Nat) (digits : Bytes) : front ≤ digits.hexNumber front := by
  induction digits generalizing front with
  | nil => exact Nat.le_refl _
  | cons b rest ih =>
    have := ih (16 * front + (digit? b).getD 0)
    rw [Bytes.hexNumber, List.foldl_cons, ← Bytes.hexNumber]
    omega

/-- A digit is let in as long as the number with it is small enough. -/
theorem step_digit {b : UInt8} (value : Option Nat) (count : Nat) (hb : (digit? b).isSome)
    (hsmall : Bytes.hexNumber (value.getD 0) [b] < 2 ^ 64) :
    Phase.step .none b (.size value count)
      = .moved (.size (some (Bytes.hexNumber (value.getD 0) [b])) (count + 1)) := by
  obtain ⟨digit, hd⟩ := Option.isSome_iff_exists.1 hb
  simp only [Bytes.hexNumber, List.foldl_cons, List.foldl_nil, hd, Option.getD_some] at hsmall ⊢
  have hsize : 16 * value.getD 0 + digit < UInt64.size := hsmall
  simp only [step, Limits.lineFault?, Limits.none, stepSize, hexValue?_eq, hd, hsize, if_true]

theorem passes_digits (digits : Bytes) (value : Nat) (count : Nat)
    (hhex : ∀ b ∈ digits, (digit? b).isSome) (hsmall : digits.hexNumber value < 2 ^ 64) :
    Passes .none (.size (some value) count) (.framing digits)
      (.size (some (digits.hexNumber value)) (count + digits.length)) := by
  induction digits generalizing value count with
  | nil => exact .here _
  | cons b rest ih =>
    have hle := le_hexNumber (Bytes.hexNumber value [b]) rest
    have hb : Bytes.hexNumber value [b] < 2 ^ 64 := Nat.lt_of_le_of_lt hle hsmall
    have hrest := ih (Bytes.hexNumber value [b]) (count + 1)
      (fun c hc => hhex c (List.mem_cons_of_mem _ hc)) hsmall
    rw [List.length_cons, Nat.add_comm rest.length, ← Nat.add_assoc]
    exact .moved rfl (step_digit (some value) count (hhex b List.mem_cons_self) hb) hrest

theorem isBlank_iff {b : UInt8} : isBlank b ↔ b = space ∨ b = tab := by
  simp [isBlank]

theorem digit?_blank {b : UInt8} (hb : b = space ∨ b = tab) : digit? b = none := by
  rcases hb with rfl | rfl <;> decide

/-- Where the decoder stands behind the text of a size line. -/
def SizeLine.standing (line : SizeLine) (count : Nat) : Phase :=
  match line.extension with
  | some _ => .extension line.value count
  | none => if line.blanks = [] then .size (some line.value) count else .sizeBlank line.value count

/-- What a size line opens: the trailer section or the data of a chunk. -/
def opened (value : Nat) : Phase := if value = 0 then .endCr .empty else .data value

theorem passes_blanks (blanks : Bytes) (value count : Nat)
    (hblank : ∀ b ∈ blanks, b = space ∨ b = tab) :
    Passes .none (.sizeBlank value count) (.framing blanks)
      (.sizeBlank value (count + blanks.length)) := by
  induction blanks generalizing count with
  | nil => exact .here _
  | cons b rest ih =>
    have hs : Phase.step .none b (.sizeBlank value count)
        = .moved (.sizeBlank value (count + 1)) := by
      simp [step, Limits.lineFault?, Limits.none, stepSizeBlank,
        isBlank_iff.2 (hblank b List.mem_cons_self)]
    rw [List.length_cons, Nat.add_comm rest.length, ← Nat.add_assoc]
    exact .moved rfl hs (ih (count + 1) fun c hc => hblank c (List.mem_cons_of_mem _ hc))

theorem passes_extension (text : Bytes) (value count : Nat)
    (hfree : ∀ b ∈ text, b ≠ cr ∧ b ≠ lf) :
    Passes .none (.extension value count) (.framing text)
      (.extension value (count + text.length)) := by
  induction text generalizing count with
  | nil => exact .here _
  | cons b rest ih =>
    obtain ⟨hcr, hlf⟩ := hfree b List.mem_cons_self
    have hs : Phase.step .none b (.extension value count)
        = .moved (.extension value (count + 1)) := by
      simp [step, Limits.lineFault?, Limits.none, stepExtension, hcr, hlf]
    rw [List.length_cons, Nat.add_comm rest.length, ← Nat.add_assoc]
    exact .moved rfl hs (ih (count + 1) fun c hc => hfree c (List.mem_cons_of_mem _ hc))

namespace SizeLine

theorem passes_digits_blanks (line : SizeLine) (count : Nat) :
    ∃ after, Passes .none (.size none count) (.framing (line.digits ++ line.blanks))
      (if line.blanks = [] then .size (some line.value) after
        else .sizeBlank line.value after) := by
  obtain ⟨b, rest, hdigits⟩ := List.exists_cons_of_ne_nil line.digits_ne
  have hhex := line.digits_hex
  have hsmall := line.small
  rw [hdigits] at hhex hsmall
  have hle := le_hexNumber (Bytes.hexNumber 0 [b]) rest
  have hfirst : Phase.step .none b (.size none count)
      = .moved (.size (some (Bytes.hexNumber 0 [b])) (count + 1)) :=
    step_digit none count (hhex b List.mem_cons_self) (Nat.lt_of_le_of_lt hle hsmall)
  have hrest := passes_digits rest (Bytes.hexNumber 0 [b]) (count + 1)
    (fun c hc => hhex c (List.mem_cons_of_mem _ hc)) hsmall
  have hvalue : Bytes.hexNumber (Bytes.hexNumber 0 [b]) rest = line.value := by
    rw [value, hdigits]; rfl
  rw [hvalue] at hrest
  have hall : Passes .none (.size none count) (.framing line.digits)
      (.size (some line.value) (count + 1 + rest.length)) := by
    rw [hdigits]
    exact .moved rfl hfirst hrest
  rw [Marked.framing_append]
  cases hb : line.blanks with
  | nil => exact ⟨_, by simpa [Marked.framing] using hall⟩
  | cons c more =>
    have hblank := line.blanks_blank
    rw [hb] at hblank
    have hc := hblank c List.mem_cons_self
    have hs (n : Nat) : Phase.step .none c (.size (some line.value) n)
        = .moved (.sizeBlank line.value (n + 1)) := by
      simp [step, Limits.lineFault?, Limits.none, stepSize, hexValue?_eq, digit?_blank hc,
        isBlank_iff.2 hc]
    have hmore := passes_blanks more line.value (count + 1 + rest.length + 1)
      fun d hd => hblank d (List.mem_cons_of_mem _ hd)
    exact ⟨_, hall.trans (.moved rfl (hs _) hmore)⟩

theorem passes_text (line : SizeLine) (count : Nat) :
    ∃ after, Passes .none (.size none count) (.framing line.text) (line.standing after) := by
  obtain ⟨n, hfront⟩ := line.passes_digits_blanks count
  rw [text, Marked.framing_append]
  cases he : line.extension with
  | none =>
    refine ⟨n, ?_⟩
    simpa [extensionText, Marked.framing, standing, he] using hfront
  | some ext =>
    have hs : Phase.step .none semicolon
        (if line.blanks = [] then .size (some line.value) n else .sizeBlank line.value n)
        = .moved (.extension line.value (n + 1)) := by
      split <;> rfl
    have hd : (if line.blanks = [] then Phase.size (some line.value) n
        else .sizeBlank line.value n).isDone = false := by
      split <;> rfl
    have hext := passes_extension ext line.value (n + 1) (line.extension_free ext he)
    refine ⟨n + 1 + ext.length, ?_⟩
    rw [standing, he]
    exact hfront.trans (.moved hd hs hext)

theorem step_cr (line : SizeLine) (count : Nat) :
    Phase.step .none cr (line.standing count) = .moved (.sizeLf line.value) := by
  unfold standing
  split
  · rfl
  · split <;> rfl

theorem standing_isDone (line : SizeLine) (count : Nat) : (line.standing count).isDone = false := by
  unfold standing
  split
  · rfl
  · split <;> rfl

theorem passes_text_cr (line : SizeLine) (count : Nat) :
    Passes .none (.size none count) (.framing (line.text ++ [cr])) (.sizeLf line.value) := by
  obtain ⟨n, htext⟩ := line.passes_text count
  rw [Marked.framing_append]
  exact htext.trans (.move (line.standing_isDone n) (line.step_cr n))

theorem passes_wire (line : SizeLine) (count : Nat) :
    Passes .none (.size none count) (.framing line.wire) (opened line.value) := by
  have hlf : Phase.step .none lf (.sizeLf line.value) = .moved (opened line.value) := rfl
  have h := (line.passes_text_cr count).trans (.move rfl hlf)
  rwa [← Marked.framing_append, List.append_assoc] at h

end SizeLine

theorem passes_content {limits : Limits} (data : Bytes) (left : Nat) :
    Passes limits (.data (left + data.length)) (.content data) (.data left) := by
  induction data with
  | nil => exact .here _
  | cons b rest ih => exact .delivered rfl rfl ih

/-- A whole chunk leads back to the start of a size line. -/
theorem Chunk.passes (chunk : Chunk) (count : Nat) :
    Passes .none (.size none count) chunk.marked .start := by
  have hline := chunk.line.passes_wire count
  have hpos := chunk.value_pos
  rw [opened, if_neg (by omega), ← chunk.length_data, ← Nat.zero_add chunk.data.length] at hline
  have hcr : Passes .none (.data 0) (.framing [cr]) .dataLf := .move rfl rfl
  have hlf : Passes .none .dataLf (.framing [lf]) .start := .move rfl rfl
  exact (hline.trans (passes_content chunk.data 0)).trans (hcr.trans hlf)

theorem Chunks.passes (chunks : Chunks) : Passes .none .start chunks.marked .start := by
  induction chunks with
  | nil => exact .here _
  | cons chunk rest ih => exact (chunk.passes 0).trans ih

theorem ChunkPart.passes (part : ChunkPart) :
    Passes .none .start part.marked (.endCr .empty) := by
  have hlast := part.last.passes_wire 0
  rw [opened, if_pos part.last_value] at hlast
  exact part.chunks.passes.trans hlast

end Passing

end Chunked
end Http1
