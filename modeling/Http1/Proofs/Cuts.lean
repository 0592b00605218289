import Http1.Proofs.Scan

/-! A decoder is fed piece by piece: each piece goes behind what the buffer still holds, and then
the buffer is drained. What comes of that is the scan of all pieces together, so only the bytes
count and not where they were cut. -/

namespace Http1.BodyDecoder

/-- What came of feeding: the pieces of data, the item that ended it, and how many bytes had been
fed by then. -/
structure Feeding where
  pieces : List Bytes
  last : Decoded BodyDecoder
  fed : Nat

namespace Feeding

def data (feeding : Feeding) : Bytes := feeding.pieces.flatten

/-- The bytes that were fed and are not in the buffer any more, which was empty at first. -/
def consumed (feeding : Feeding) : Nat := feeding.fed - feeding.last.rest.length

def behind (pieces : List Bytes) (fed : Nat) (feeding : Feeding) : Feeding :=
  ⟨pieces ++ feeding.pieces, feeding.last, fed + feeding.fed⟩

end Feeding

/-- Feeds `first` and then the others, and stops for good at the end of the body or a failure. -/
def feed (decoder : BodyDecoder) (buffer first : Bytes) : List Bytes → Feeding
  | [] => ⟨(decoder.drain (buffer ++ first)).1, (decoder.drain (buffer ++ first)).2, first.length⟩
  | second :: others =>
    let (pieces, last) := decoder.drain (buffer ++ first)
    match last.item with
    | .needMore => (feed last.decoder last.rest second others).behind pieces first.length
    | _ => ⟨pieces, last, first.length⟩

/-- What a feeding has in common with a scan. The bytes left in the buffer are fewer than those the
scan leaves by exactly the bytes that were never fed. -/
structure Feeding.Matches (feeding : Feeding) (whole : Scan BodyDecoder) (size : Nat) : Prop where
  data : feeding.data = whole.data
  item : feeding.last.item = whole.last.item
  decoder : feeding.last.decoder = whole.last.decoder
  fed : feeding.fed + whole.last.rest.length = size + feeding.last.rest.length

theorem feed_matches (decoder : BodyDecoder) (buffer first : Bytes) (others : List Bytes) :
    (decoder.feed buffer first others).Matches (decoder.scan (buffer ++ first ++ others.flatten))
      (first ++ others.flatten).length := by
  induction others generalizing decoder buffer first with
  | nil =>
    obtain ⟨hd, hl⟩ := decoder.drain_eq_scan (buffer ++ first)
    rw [List.flatten_nil, List.append_nil, List.append_nil, feed]
    exact ⟨hd, by rw [hl], by rw [hl], by rw [hl]⟩
  | cons second others ih =>
    obtain ⟨hd, hl⟩ := decoder.drain_eq_scan (buffer ++ first)
    rw [List.flatten_cons, scan_append, feed]
    cases hi : (decoder.scan (buffer ++ first)).last.item with
    | needMore =>
      have hr : (decoder.scan (buffer ++ first)).last.rest = [] := scan_needMore hi
      have ih' := ih (decoder.scan (buffer ++ first)).last.decoder [] second
      simp only [hl, hi, hr, Scan.resume]
      rw [List.nil_append] at ih'
      refine ⟨?_, ih'.item, ih'.decoder, ?_⟩
      · rw [Feeding.data, Feeding.behind, List.flatten_append, hd, ← Feeding.data, ih'.data]
        rfl
      · have := ih'.fed
        simp only [Feeding.behind, Scan.prepend_last, List.length_append] at this ⊢
        omega
    | _ =>
      -- every other item ends the feeding, and the scan leaves what was never fed
      simp only [hl, hi, Scan.resume]
      exact ⟨hd, hi, rfl, by simp [Nat.add_assoc, Nat.add_comm, Nat.add_left_comm]⟩

/-- Two feedings that nobody can tell apart but by the borders of their pieces. -/
structure Feeding.Agree (one other : Feeding) : Prop where
  data : one.data = other.data
  item : one.last.item = other.last.item
  consumed : one.consumed = other.consumed
  decoder : one.last.decoder = other.last.decoder
  trailers : one.last.decoder.trailers = other.last.decoder.trailers

theorem Feeding.Matches.agree {one other : Feeding} {whole : Scan BodyDecoder} {size : Nat}
    (h1 : one.Matches whole size) (h2 : other.Matches whole size) : one.Agree other := by
  have hd : one.last.decoder = other.last.decoder := h1.decoder.trans h2.decoder.symm
  refine ⟨h1.data.trans h2.data.symm, h1.item.trans h2.item.symm, ?_, hd, by rw [hd]⟩
  have := h1.fed
  have := h2.fed
  unfold consumed
  omega

theorem Feeding.Matches.consumed {feeding : Feeding} {whole : Scan BodyDecoder} {size : Nat}
    (h : feeding.Matches whole size) : feeding.consumed = size - whole.last.rest.length := by
  have := h.fed
  unfold Feeding.consumed
  omega

/-- However a text is cut, feeding it comes to the scan of it. -/
theorem feed_cut (decoder : BodyDecoder) {text first : Bytes} {others : List Bytes}
    (h : first ++ others.flatten = text) :
    (decoder.feed [] first others).Matches (decoder.scan text) text.length := by
  have hfed := decoder.feed_matches [] first others
  rwa [List.nil_append, h] at hfed

/-- A chunked body may be cut anywhere, from any phase and under any limits. -/
theorem feed_agree_of_same_bytes (limits : Chunked.Limits) (phase : Chunked.Phase)
    (first second : Bytes) (others rest : List Bytes)
    (h : first ++ others.flatten = second ++ rest.flatten) :
    (feed (.chunked limits phase) [] first others).Agree
      (feed (.chunked limits phase) [] second rest) := by
  have h1 := feed_matches (.chunked limits phase) [] first others
  have h2 := feed_matches (.chunked limits phase) [] second rest
  rw [List.nil_append] at h1 h2
  rw [h] at h1
  exact h1.agree h2

/-- Cut inside the size, between CR and LF and inside the data, with an empty piece, under a limit
that a later line breaks. -/
theorem feed_agree_crlf_cut :
    let one : List Bytes := [[48, 51], [13], [], [10, 97], [98, 99, 13, 10, 49, 59, 59, 59, 59]]
    let other : List Bytes := [[51, 13, 10, 97, 98], [99, 13], [10, 49, 59, 59, 59, 59]]
    [] ++ one.flatten = [48] ++ other.flatten
      ∧ (feed (.chunked ⟨some 4, none⟩ .start) [] [] one).Agree
          (feed (.chunked ⟨some 4, none⟩ .start) [] [48] other) := by
  intro one other
  have h : [] ++ one.flatten = [48] ++ other.flatten := by decide
  exact ⟨h, feed_agree_of_same_bytes ⟨some 4, none⟩ .start [] [48] one other h⟩

end Http1.BodyDecoder
