import Http1.Body.Encoder
import Http1.Proofs.TrailerSection

/-! What a chunked body encoder writes, as pieces of the grammar that the decoder accepts: its size
lines, its chunks and its trailer lines. The end of a body makes the chunks before it a whole body
(`WholeBody.ofParts`). -/

namespace Http1

open Byte

theorem Bytes.hexNumber_hex (n : Nat) : Bytes.hexNumber 0 (Bytes.hex n) = n := by
  fun_induction Bytes.hex n with
  | case1 n hn => simp [hexNumber, digit?_hexDigit n hn]
  | case2 n hn ih =>
    have hdigit : n % 16 < 16 := Nat.mod_lt n (by decide)
    rw [hexNumber_snoc, ih, digit?_hexDigit _ hdigit, Option.getD_some, Nat.div_add_mod]

theorem Bytes.hex_digits (n : Nat) : ∀ b ∈ Bytes.hex n, (digit? b).isSome := by
  have hdigit (m : Nat) (hm : m < 16) : (digit? (hexDigit m)).isSome := by
    rw [digit?_hexDigit m hm]
    rfl
  fun_induction Bytes.hex n with
  | case1 n hn =>
    intro b hb
    rw [List.mem_singleton.1 hb]
    exact hdigit n hn
  | case2 n hn ih =>
    intro b hb
    rcases List.mem_append.1 hb with hb | hb
    · exact ih b hb
    · rw [List.mem_singleton.1 hb]
      exact hdigit _ (Nat.mod_lt n (by decide))

theorem Bytes.hex_ne (n : Nat) : Bytes.hex n ≠ [] := by
  fun_induction Bytes.hex n with
  | case1 n hn => exact List.cons_ne_nil _ _
  | case2 n hn ih => exact List.append_ne_nil_of_right_ne_nil _ (List.cons_ne_nil _ _)

theorem Bytes.blank_takeWhile {text : Bytes} {b : UInt8} (h : b ∈ text.takeWhile isBlank) :
    isBlank b :=
  List.all_eq_true.1 List.all_takeWhile b h

/-- The blanks behind a text. -/
def Bytes.trail (text : Bytes) : Bytes := (text.reverse.takeWhile isBlank).reverse

theorem Bytes.trimEnd_trail (text : Bytes) : trimEnd text ++ trail text = text := by
  rw [trimEnd, trail, ← List.reverse_append, List.takeWhile_append_dropWhile,
    List.reverse_reverse]

theorem Bytes.trim_parts (text : Bytes) :
    text.takeWhile isBlank ++ trim text ++ trail (text.dropWhile isBlank) = text := by
  rw [trim, List.append_assoc, trimEnd_trail, List.takeWhile_append_dropWhile]

theorem Bytes.trim_head {text : Bytes} {b : UInt8} (h : b ∈ (trim text).head?) : ¬ isBlank b := by
  have hfront : b ∈ (text.dropWhile isBlank).head? := by
    rw [← trimEnd_trail (text.dropWhile isBlank), List.head?_append, ← trim]
    exact Option.mem_def.2 (Option.or_eq_some_iff.2 (.inl h))
  have hhead := List.head?_dropWhile_not isBlank text
  rw [Option.mem_def.1 hfront] at hhead
  simpa using hhead

theorem Bytes.trim_last {text : Bytes} {b : UInt8} (h : b ∈ (trim text).getLast?) :
    ¬ isBlank b := by
  rw [trim, trimEnd, List.getLast?_reverse] at h
  have hhead := List.head?_dropWhile_not isBlank (text.dropWhile isBlank).reverse
  rw [Option.mem_def.1 h] at hhead
  simpa using hhead

namespace Headers

theorem nodup_eraseDups (names : List FieldName) : names.eraseDups.Nodup := by
  cases names with
  | nil => exact List.nodup_nil
  | cons name others =>
    rw [List.eraseDups_cons, List.nodup_cons]
    refine ⟨?_, nodup_eraseDups _⟩
    rw [List.mem_eraseDups]
    simp
termination_by names.length
decreasing_by exact Nat.lt_succ_of_le (List.length_filter_le _ _)

variable (headers : Headers)

theorem nodup_names : headers.names.Nodup := nodup_eraseDups _

theorem length_getAll (name : FieldName) :
    (headers.getAll name).length = (headers.fields.map Field.name).count name := by
  rw [getAll, List.length_map, List.count, List.countP_map, List.countP_eq_length_filter]
  congr 1

/-- Every value is listed once. -/
theorem length_grouped : headers.grouped.length = headers.size := by
  have hperm : headers.names.Perm (headers.fields.map Field.name).dedup :=
    (List.perm_ext_iff_of_nodup headers.nodup_names (List.nodup_dedup _)).2 fun _ =>
      List.mem_eraseDups.trans List.mem_dedup.symm
  rw [grouped, List.length_flatMap]
  simp only [List.length_map, length_getAll]
  rw [(hperm.map _).sum_eq, List.sum_map_count_dedup_eq_length, List.length_map]
  rfl

/-- There is a map that the values of these trailers go into, each on a line of its own. -/
def Fit (trailers : Option Headers) : Prop := ∀ given ∈ trailers, given.size ≤ 24576

instance (trailers : Option Headers) : Decidable (Fit trailers) :=
  inferInstanceAs (Decidable (∀ given ∈ trailers, given.size ≤ 24576))

end Headers

namespace Chunked

/-- The size line that an encoder writes. -/
def SizeLine.ofNat (n : Nat) (h : n < 2 ^ 64) : SizeLine :=
  .plain (Bytes.hex n) (Bytes.hex_ne n) (Bytes.hex_digits n) (by rwa [Bytes.hexNumber_hex])

@[simp] theorem SizeLine.value_ofNat (n : Nat) (h : n < 2 ^ 64) : (SizeLine.ofNat n h).value = n :=
  Bytes.hexNumber_hex n

theorem SizeLine.wire_ofNat (n : Nat) (h : n < 2 ^ 64) :
    (SizeLine.ofNat n h).wire = Encoder.sizeLine n := by
  simp [wire, text, ofNat, plain, extensionText, Encoder.sizeLine]

/-- The chunk that an encoder makes of a piece of data. -/
def Chunk.ofData (data : Bytes) (hne : data ≠ []) (h : data.length < 2 ^ 64) : Chunk where
  line := .ofNat data.length h
  data := data
  value_pos := by simpa using List.length_pos_iff.2 hne
  length_data := by simp

theorem Chunk.wire_ofData (data : Bytes) (hne : data ≠ []) (h : data.length < 2 ^ 64) :
    (Chunk.ofData data hne h).wire = Encoder.sizeLine data.length ++ data ++ Bytes.crlf := by
  rw [wire, ofData, SizeLine.wire_ofNat]

/-- The line that an encoder writes for a field. Blanks around the value do not belong to it. -/
def FieldLine.ofField (field : Field) : FieldLine where
  name := field.name.bytes
  lead := space :: field.value.bytes.takeWhile isBlank
  value := field.value.bytes.trim
  trail := Bytes.trail (field.value.bytes.dropWhile isBlank)
  name_ne := field.name.valid.1
  name_short := field.name.valid.2.1
  name_token := by
    intro b hb
    have hvalid := List.all_eq_true.1 field.name.valid.2.2 b hb
    rw [Bool.and_eq_true] at hvalid
    exact hvalid.1
  lead_blank := by
    intro b hb
    rcases List.mem_cons.1 hb with rfl | hb
    · decide
    · exact Bytes.blank_takeWhile hb
  value_content := by
    intro b hb
    refine List.all_eq_true.1 field.value.valid b ?_
    rw [← Bytes.trim_parts field.value.bytes]
    exact List.mem_append_left _ (List.mem_append_right _ hb)
  value_head := fun _ hb => Bytes.trim_head hb
  value_last := fun _ hb => Bytes.trim_last hb
  trail_blank := fun _ hb => Bytes.blank_takeWhile (List.mem_reverse.1 hb)

theorem FieldLine.wire_ofField (field : Field) :
    (FieldLine.ofField field).wire = Encoder.fieldLine field := by
  have hparts := Bytes.trim_parts field.value.bytes
  rw [wire, text, FieldText.text, ofField, Encoder.fieldLine]
  simp only [List.cons_append, hparts]
  simp

/-- The lines that an encoder writes for trailers. -/
def FieldLines.ofTrailers : Option Headers → FieldLines
  | none => []
  | some headers => headers.grouped.map FieldLine.ofField

theorem FieldLines.wire_ofTrailers (trailers : Option Headers) :
    (FieldLines.ofTrailers trailers).wire = Encoder.trailerLines trailers := by
  cases trailers with
  | none => rfl
  | some headers =>
    rw [ofTrailers, wire, List.flatMap_map, Encoder.trailerLines]
    exact congrArg (headers.grouped.flatMap ·) (funext FieldLine.wire_ofField)

/-- The body that an encoder has written when it is finished behind these chunks. -/
def WholeBody.ofChunks (chunks : Chunks) (trailers : Option Headers) : WholeBody where
  part := ⟨chunks, .ofNat 0 (by decide), SizeLine.value_ofNat 0 _⟩
  lines := .ofTrailers trailers

theorem WholeBody.hasRoom_ofChunks (chunks : Chunks) (trailers : Option Headers) :
    (ofChunks chunks trailers).HasRoom ↔ Headers.Fit trailers := by
  cases trailers with
  | none => simp [HasRoom, ofChunks, FieldLines.ofTrailers, Headers.Fit]
  | some given =>
    simp [HasRoom, ofChunks, FieldLines.ofTrailers, Headers.Fit, given.length_grouped]

theorem sizeLine_zero : Encoder.sizeLine 0 = Bytes.ofAscii "0" ++ Bytes.crlf := by
  rw [Encoder.sizeLine, Bytes.hex]
  rfl

theorem WholeBody.wire_ofChunks (chunks : Chunks) {encoder next : Encoder} {last : Bytes}
    (h : encoder.finish = .ok (last, next)) :
    (WholeBody.ofChunks chunks encoder.trailers).wire = chunks.wire ++ last := by
  unfold Encoder.finish at h
  split at h
  · cases h
  · cases h
    rw [wire, ofChunks, ChunkPart.wire, SizeLine.wire_ofNat, FieldLines.wire_ofTrailers,
      sizeLine_zero]
    simp

end Chunked
end Http1
