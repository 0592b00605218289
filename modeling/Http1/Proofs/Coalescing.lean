import Http1.Proofs.RoundTrip

/-! How a chunked body is divided. A decoder that has all of a body in its buffer gives one piece
for each chunk (`WholeBody.drain`), so the pieces of what is on the wire are the chunks that were
sent. The slices of the writer go into them whole, in groups: those that are cached together are the
group that goes out next, and it goes out only when the following slice is too much for it. So two
groups one behind the other, the cached one included, are never small together
(`BodyWriter.Coalescing`), which bounds their number. -/

namespace Http1

/-! ### One piece for each chunk -/

namespace Chunked.Phase.Passes

variable {limits : Limits} {phase last : Phase}

/-- Framing that passes is decoded at once. -/
theorem decode_append {framing : Bytes} (h : Passes limits phase (Marked.framing framing) last)
    (rest : Bytes) : phase.decode limits (framing ++ rest) = last.decode limits rest := by
  induction framing generalizing phase with
  | nil =>
    cases h
    rfl
  | cons b framing ih =>
    cases h with
    | moved hd hs hrest =>
      rw [List.cons_append, decode, hs]
      · exact ih hrest
      · rintro trailers rfl
        cases hd
      · rintro left rfl
        cases hs

end Chunked.Phase.Passes

namespace Chunked

open Phase

theorem decode_data {limits : Limits} {data : Bytes} {left : Nat} (h : data.length = left + 1)
    (rest : Bytes) :
    (Phase.data (left + 1)).decode limits (data ++ rest) = ⟨.data data, .data 0, rest⟩ := by
  obtain ⟨b, more, rfl⟩ := List.exists_cons_of_length_eq_add_one h
  rw [List.cons_append, decode, ← List.cons_append, List.take_left' h, List.drop_left' h, h,
    Nat.sub_self]

theorem Chunk.decode (chunk : Chunk) (rest : Bytes) :
    Phase.start.decode .none (chunk.wire ++ rest)
      = ⟨.data chunk.data, .data 0, Bytes.crlf ++ rest⟩ := by
  have hline := chunk.line.passes_wire 0
  have hpos := chunk.value_pos
  obtain ⟨left, hleft⟩ : ∃ left, chunk.line.value = left + 1 := ⟨chunk.line.value - 1, by omega⟩
  rw [opened, if_neg (by omega), hleft] at hline
  have hwire : chunk.wire ++ rest = chunk.line.wire ++ (chunk.data ++ (Bytes.crlf ++ rest)) := by
    simp [wire]
  rw [hwire, start, hline.decode_append, decode_data (chunk.length_data.trans hleft)]

theorem decode_dataEnd (rest : Bytes) :
    (Phase.data 0).decode .none (Bytes.crlf ++ rest) = Phase.start.decode .none rest := by
  have hpasses : Passes .none (.data 0) (.framing Bytes.crlf) .start :=
    .moved rfl rfl (.move rfl rfl)
  exact hpasses.decode_append rest

/-- What stands behind the chunks of a body. -/
def WholeBody.ending (body : WholeBody) : Bytes :=
  body.part.last.wire ++ body.lines.wire ++ Bytes.crlf

theorem WholeBody.wire_eq (body : WholeBody) :
    body.wire = body.part.chunks.wire ++ body.ending := by
  simp [wire, ending, ChunkPart.wire]

/-- What decoding makes of the last byte of a body. -/
def WholeBody.verdict (body : WholeBody) (rest : Bytes) : Decoded Phase :=
  if body.HasRoom then ⟨.endOfBody, .done body.trailers, rest⟩
  else ⟨.failed .overrun, .endLf (.ofLines body.lines), rest⟩

theorem WholeBody.decode_ending (body : WholeBody) (rest : Bytes) :
    Phase.start.decode .none (body.ending ++ rest) = body.verdict rest := by
  -- the end alone is the body that has no chunks
  have hpasses := WholeBody.passes_front ⟨⟨[], body.part.last, body.part.last_value⟩, body.lines⟩
  have hmarked : WholeBody.front ⟨⟨[], body.part.last, body.part.last_value⟩, body.lines⟩
      = .framing (body.part.last.wire ++ body.lines.wire ++ [Byte.cr]) := by
    rw [Marked.framing_append, Marked.framing_append]
    rfl
  have hbytes : body.ending ++ rest
      = body.part.last.wire ++ body.lines.wire ++ [Byte.cr] ++ Byte.lf :: rest := by
    simp [ending, Bytes.crlf]
  have hlast := body.step_last .none
  rw [hmarked] at hpasses
  rw [hbytes, hpasses.decode_append, verdict]
  by_cases hroom : body.HasRoom
  · rw [if_pos hroom] at hlast ⊢
    rw [decode, hlast]
    · cases rest with
      | nil => rfl
      | cons b rest => rfl
    · exact fun _ => Phase.noConfusion
    · exact fun _ => Phase.noConfusion
  · rw [if_neg hroom] at hlast ⊢
    rw [decode, hlast]
    · exact fun _ => Phase.noConfusion
    · exact fun _ => Phase.noConfusion

end Chunked

namespace BodyDecoder

/-- Where decoding comes to the same, draining does. -/
theorem drainFrom_congr {decoder other : BodyDecoder} {src src' : Bytes}
    (h : decoder.decode src = other.decode src') (done : List Bytes) :
    drainFrom done decoder src = drainFrom done other src' := by
  rw [drainFrom, drainFrom, h]

/-- Draining is over with the first item that is no data. -/
theorem drainFrom_last {decoder : BodyDecoder} {src : Bytes}
    (h : ∀ bytes, (decoder.decode src).item ≠ .data bytes) (done : List Bytes) :
    drainFrom done decoder src = (done, decoder.decode src) := by
  rw [drainFrom]
  split
  · next bytes hitem => exact absurd hitem (h bytes)
  · rfl

theorem drainFrom_chunk (chunk : Chunked.Chunk) (done : List Bytes) (more : Bytes) :
    drainFrom done (.chunked .none .start) (chunk.wire ++ more)
      = drainFrom (chunk.data :: done) (.chunked .none .start) more := by
  have hchunk : decode (.chunked .none .start) (chunk.wire ++ more)
      = ⟨.data chunk.data, .chunked .none (.data 0), Bytes.crlf ++ more⟩ := by
    rw [decode, chunk.decode]
    rfl
  have hnext : decode (.chunked .none (.data 0)) (Bytes.crlf ++ more)
      = decode (.chunked .none .start) more := by
    rw [decode, decode, Chunked.decode_dataEnd]
  rw [drainFrom, hchunk]
  exact drainFrom_congr hnext _

theorem drainFrom_chunks (chunks : Chunked.Chunks) (done : List Bytes) (rest : Bytes) :
    drainFrom done (.chunked .none .start) (chunks.wire ++ rest)
      = drainFrom ((chunks.map Chunked.Chunk.data).reverse ++ done) (.chunked .none .start)
        rest := by
  induction chunks generalizing done with
  | nil => rfl
  | cons chunk others ih =>
    have hwire : Chunked.Chunks.wire (chunk :: others) ++ rest
        = chunk.wire ++ (Chunked.Chunks.wire others ++ rest) := by
      simp [Chunked.Chunks.wire]
    rw [hwire, drainFrom_chunk, ih]
    simp

end BodyDecoder

namespace Chunked

/-- A decoder that has all of a body before it gives the data of its chunks, one after the other. -/
theorem WholeBody.drain (body : WholeBody) (rest : Bytes) :
    (BodyDecoder.start .none .chunked).drain (body.wire ++ rest)
      = (body.part.chunks.map Chunk.data, (body.verdict rest).map (.chunked .none)) := by
  have hending : BodyDecoder.decode (.chunked .none .start) (body.ending ++ rest)
      = (body.verdict rest).map (.chunked .none) := by
    rw [BodyDecoder.decode, body.decode_ending]
  have hlast : ∀ bytes, (body.verdict rest).item ≠ .data bytes := by
    unfold verdict
    split
    · exact fun _ => Item.noConfusion
    · exact fun _ => Item.noConfusion
  rw [BodyDecoder.drain, body.wire_eq, List.append_assoc, BodyDecoder.start,
    BodyDecoder.drainFrom_chunks, BodyDecoder.drainFrom_last (hending ▸ hlast), hending,
    List.append_nil]
  exact congrArg (·, _) (List.reverse_reverse _)

/-- So it does before the end has come. -/
theorem Chunks.drain (chunks : Chunks) :
    ((BodyDecoder.start .none .chunked).drain chunks.wire).1 = chunks.map Chunk.data := by
  have hchunks := BodyDecoder.drainFrom_chunks chunks [] []
  rw [List.append_nil, List.append_nil] at hchunks
  have hnone (bytes : Bytes) : (BodyDecoder.decode (.chunked .none .start) []).item ≠ .data bytes :=
    nofun
  rw [BodyDecoder.drain, BodyDecoder.start, hchunks, BodyDecoder.drainFrom_last hnone]
  exact List.reverse_reverse _

end Chunked

/-! ### Neighbours -/

/-- Two groups of slices hold at least `size` bytes together. -/
def Fills (size : Nat) (first second : List Bytes) : Prop :=
  size ≤ first.flatten.length + second.flatten.length

section Neighbours

variable {size : Nat} {sent : List (List Bytes)} {held more : List Bytes}

theorem fills_longer (h : (sent ++ [held]).IsChain (Fills size))
    (hle : held.flatten.length ≤ more.flatten.length) :
    (sent ++ [more]).IsChain (Fills size) := by
  obtain ⟨hsent, -, hlast⟩ := List.isChain_append.1 h
  refine List.isChain_append.2 ⟨hsent, List.isChain_singleton _, fun group hg next hn => ?_⟩
  obtain rfl : more = next := by simpa using hn
  have hfills : Fills size group held := hlast group hg held rfl
  unfold Fills at hfills ⊢
  omega

/-- The groups when the one that waits goes out. An empty one does not. -/
def closed (sent : List (List Bytes)) (held : List Bytes) : List (List Bytes) :=
  if held = [] then sent else sent ++ [held]

theorem prefix_closed (sent : List (List Bytes)) (held : List Bytes) :
    sent <+: closed sent held := by
  unfold closed
  split
  · exact List.prefix_refl sent
  · exact List.prefix_append sent [held]

theorem flatten_closed (sent : List (List Bytes)) (held : List Bytes) :
    (closed sent held).flatten = sent.flatten ++ held := by
  unfold closed
  split
  · next hnil => rw [hnil, List.append_nil]
  · simp

theorem fills_closed (h : (sent ++ [held]).IsChain (Fills size)) :
    (closed sent held).IsChain (Fills size) := by
  unfold closed
  split
  · exact h.left_of_append
  · exact h

theorem fills_next (h : (sent ++ [held]).IsChain (Fills size)) (hf : Fills size held more) :
    (closed sent held ++ [more]).IsChain (Fills size) := by
  unfold closed
  split
  · next hnil =>
    rw [hnil] at h
    exact fills_longer h (Nat.zero_le _)
  · rw [List.append_assoc]
    exact List.isChain_append_cons_cons.2 ⟨h, hf, List.isChain_singleton _⟩

/-- In a row of pieces each but the first and the last is counted with both of its neighbours. -/
theorem length_mul_add_le {first : Bytes} {others : List Bytes}
    (h : (first :: others).IsChain fun one next => size ≤ one.length + next.length) :
    others.length * size + first.length ≤ 2 * (first :: others).flatten.length := by
  induction others generalizing first with
  | nil =>
    simp only [List.length_nil, List.flatten_cons, List.flatten_nil, List.append_nil]
    omega
  | cons second others ih =>
    obtain ⟨hpair, hrest⟩ := List.isChain_cons_cons.1 h
    have hothers := ih hrest
    rw [List.flatten_cons, List.length_append, List.length_cons, Nat.succ_mul]
    omega

theorem length_le {pieces : List Bytes} (hs : 0 < size)
    (h : pieces.IsChain fun one next => size ≤ one.length + next.length) :
    pieces.length ≤ 2 * pieces.flatten.length / size + 1 := by
  cases pieces with
  | nil => exact Nat.zero_le _
  | cons first others =>
    have hmul := length_mul_add_le h
    have hothers : others.length ≤ 2 * (first :: others).flatten.length / size :=
      (Nat.le_div_iff_mul_le hs).2 (by omega)
    rw [List.length_cons]
    omega

end Neighbours

/-! ### The writer -/

namespace WriterCall

/-- The slices that calls give, as far as there is anything in them. -/
def slices (calls : List WriterCall) : List Bytes := (calls.map given).filter (· ≠ [])

theorem flatten_slices (calls : List WriterCall) : (slices calls).flatten = data calls := by
  rw [slices, data, List.flatten_filter_ne_nil, List.flatMap_def]

theorem slices_cons (first : WriterCall) (others : List WriterCall) :
    slices (first :: others) = [first.given].filter (· ≠ []) ++ slices others := by
  rw [slices, slices, ← List.filter_append]
  rfl

end WriterCall

namespace BodyWriter

/-- The writer of a chunked body has sent each of these groups of slices as a chunk, and the slices
that it holds are in its cache. -/
structure Collecting (base : Bytes) (sent : List (List Bytes)) (held : List Bytes)
    (writer : BodyWriter) : Prop where
  encoder : ∃ encoder, writer.encoder = .chunked encoder ∧ encoder.finished = false
  stream : ∃ chunks : Chunked.Chunks, writer.outlet.stream = base ++ chunks.wire
    ∧ chunks.map Chunked.Chunk.data = sent.map List.flatten
  cache : writer.cache = held.flatten
  held_ne : ∀ slice ∈ held, slice ≠ []
  cache_lt : writer.cache.length < writer.chunkSize
  chunkSize_lt : writer.chunkSize < 2 ^ 64

variable {base : Bytes} {sent : List (List Bytes)} {held : List Bytes} {writer next : BodyWriter}

theorem start_collecting {chunkSize : Nat} (outlet : Outlet) (hs : 0 < chunkSize)
    (hc : chunkSize < 2 ^ 64) :
    Collecting outlet.stream [] [] (start .chunked chunkSize outlet) where
  encoder := ⟨.start, rfl, rfl⟩
  stream := ⟨[], (List.append_nil _).symm, rfl⟩
  cache := rfl
  held_ne := nofun
  cache_lt := hs
  chunkSize_lt := hc

theorem Collecting.held_iff (h : Collecting base sent held writer) :
    held = [] ↔ writer.cache = [] := by
  rw [h.cache, List.flatten_eq_nil_iff]
  refine ⟨fun hnil slice hslice => ?_, fun hnil => List.eq_nil_iff_forall_not_mem.2 ?_⟩
  · rw [hnil] at hslice
    cases hslice
  · intro slice hslice
    exact h.held_ne slice hslice (hnil slice hslice)

theorem withTrailers_collecting (h : Collecting base sent held writer) (trailers : Headers) :
    Collecting base sent held (writer.withTrailers trailers) := by
  obtain ⟨encoder, hencoder, hunfinished⟩ := h.encoder
  refine ⟨⟨encoder.withTrailers trailers, ?_, hunfinished⟩, h.stream, h.cache, h.held_ne,
    h.cache_lt, h.chunkSize_lt⟩
  rw [withTrailers, hencoder]
  rfl

/-- While nothing is held, a fragment is one more group. -/
theorem writeFragment_collecting (h : Collecting base sent [] writer) {group : List Bytes}
    (hne : group.flatten ≠ []) (hb : group.flatten.length < 2 ^ 64)
    (hw : writer.writeFragment group.flatten = (.ok (), next)) :
    next.chunkSize = writer.chunkSize ∧ Collecting base (sent ++ [group]) [] next := by
  obtain ⟨encoder, hencoder, hunfinished⟩ := h.encoder
  obtain ⟨chunks, hstream, hchunks⟩ := h.stream
  have hlength : group.flatten.length ≠ 0 := fun hzero => hne (List.length_eq_zero_iff.1 hzero)
  have hbegin := BodyEncoder.beginFragment_chunked hunfinished hlength
  rw [← hencoder] at hbegin
  obtain ⟨outlet, rfl, hall⟩ := writeFragment_ok hbegin hw
  obtain ⟨hwire, -⟩ := Encodes.chunks_snoc chunks (.ofData group.flatten hne hb)
  refine ⟨rfl, ⟨_, rfl, hunfinished⟩, ⟨chunks ++ [.ofData group.flatten hne hb], ?_, ?_⟩,
    h.cache, h.held_ne, h.cache_lt, h.chunkSize_lt⟩
  · rw [hall, hstream, hwire, Chunked.Chunk.wire_ofData, List.take_length]
    simp only [List.append_assoc]
  · rw [List.map_append, List.map_append, hchunks]
    rfl

/-- Afterwards nothing is held: what was is a group of its own. -/
theorem flushCache_collecting (h : Collecting base sent held writer)
    (hw : writer.flushCache = (.ok (), next)) :
    next.chunkSize = writer.chunkSize ∧ Collecting base (closed sent held) [] next := by
  rcases flushCache_cases hw with ⟨hempty, rfl⟩ | ⟨hcache, hw⟩
  · have hheld : held = [] := h.held_iff.2 hempty
    refine ⟨rfl, ?_⟩
    rw [closed, if_pos hheld, ← hheld]
    exact h
  · have hheld : held ≠ [] := fun hnil => hcache (h.held_iff.1 hnil)
    have hsmall := Nat.lt_trans h.cache_lt h.chunkSize_lt
    have hcleared : Collecting base sent [] { writer with cache := [] } :=
      ⟨h.encoder, h.stream, rfl, nofun, Nat.zero_lt_of_lt h.cache_lt, h.chunkSize_lt⟩
    rw [closed, if_neg hheld]
    rw [h.cache] at hcache hsmall hw
    exact writeFragment_collecting hcleared hcache hsmall hw

theorem keep_collecting (h : Collecting base sent held writer) {bytes : Bytes}
    (hroom : writer.cache.length + bytes.length < writer.chunkSize) :
    Collecting base sent (held ++ [bytes].filter (· ≠ [])) (writer.keep bytes) := by
  refine ⟨h.encoder, h.stream, ?_, ?_, ?_, h.chunkSize_lt⟩
  · rw [keep, h.cache, List.flatten_append, List.flatten_filter_ne_nil]
    simp
  · intro slice hslice
    rcases List.mem_append.1 hslice with hheld | hnew
    · exact h.held_ne slice hheld
    · exact of_decide_eq_true (List.mem_filter.1 hnew).2
  · rw [keep, List.length_append]
    exact hroom

/-- A writer with all the slices that it was given, in groups none of which is small together with
its neighbour. The slices it holds are the last group. -/
structure Coalescing (base : Bytes) (size : Nat) (slices : List Bytes) (writer : BodyWriter) : Prop
    where
  chunkSize : writer.chunkSize = size
  grouped : ∃ sent held, Collecting base sent held writer ∧ sent.flatten ++ held = slices
    ∧ (sent ++ [held]).IsChain (Fills size)

variable {size : Nat} {slices : List Bytes}

theorem take_coalescing (h : Coalescing base size slices writer) {bytes : Bytes}
    (hb : bytes.length < 2 ^ 64) (hw : writer.take bytes = (.ok (), next)) :
    Coalescing base size (slices ++ [bytes].filter (· ≠ [])) next := by
  obtain ⟨hsize, sent, held, hcollecting, hslices, hchain⟩ := h
  have hlt := hcollecting.cache_lt
  have hcache : writer.cache.length = held.flatten.length := congrArg List.length hcollecting.cache
  rcases take_cases hw with ⟨hzero, -⟩ | ⟨hroom, rfl⟩ | ⟨hfull, middle, hflush, hrest⟩
  · omega
  · refine ⟨hsize, sent, _, keep_collecting hcollecting hroom, ?_, fills_longer hchain ?_⟩
    · rw [← hslices, List.append_assoc]
    · rw [List.flatten_append, List.length_append]
      omega
  · obtain ⟨hmiddleSize, hmiddle⟩ := flushCache_collecting hcollecting hflush
    have hbytes : bytes ≠ [] := by
      rintro rfl
      rw [List.length_nil] at hfull
      omega
    have hslice : [bytes].filter (· ≠ []) = [bytes] := by simp [hbytes]
    have hgroup : [bytes].flatten = bytes := List.flatten_singleton
    have hflat : (closed sent held).flatten = slices := (flatten_closed sent held).trans hslices
    have hnext : (closed sent held ++ [[bytes]]).IsChain (Fills size) := by
      refine fills_next hchain ?_
      rw [Fills, hgroup]
      omega
    rcases hrest with ⟨hsmall, rfl⟩ | ⟨hlarge, hw⟩
    · -- the slice is what is held next
      have hroom : middle.cache.length + bytes.length < middle.chunkSize := by
        rw [hmiddle.cache, List.flatten_nil, List.length_nil, Nat.zero_add]
        exact hsmall
      have hkept := keep_collecting hmiddle hroom
      rw [hslice, List.nil_append] at hkept
      rw [hslice]
      exact ⟨hmiddleSize.trans hsize, _, _, hkept, by rw [hflat], hnext⟩
    · -- the slice is large enough for a chunk of its own
      have hfills : Fills size [bytes] [] := by
        rw [Fills, hgroup]
        omega
      rw [← hgroup] at hbytes hb hw
      obtain ⟨hnextSize, hsent⟩ := writeFragment_collecting hmiddle hbytes hb hw
      refine ⟨hnextSize.trans (hmiddleSize.trans hsize), _, _, hsent, ?_, ?_⟩
      · rw [hslice, List.flatten_append, hflat, List.append_nil]
        rfl
      · have hlast := fills_next hnext hfills
        rwa [closed, if_neg (List.cons_ne_nil _ _)] at hlast

theorem start_coalescing {chunkSize : Nat} (outlet : Outlet) (hs : 0 < chunkSize)
    (hc : chunkSize < 2 ^ 64) :
    Coalescing outlet.stream chunkSize [] (start .chunked chunkSize outlet) :=
  ⟨rfl, [], [], start_collecting outlet hs hc, rfl, List.isChain_singleton _⟩

theorem call_coalescing (h : Coalescing base size slices writer) {first : WriterCall}
    (hb : ∀ bytes, first = .write bytes → bytes.length < 2 ^ 64) (hf : first ≠ .flush)
    (hok : (writer.call first).1 = first.success) :
    Coalescing base size (slices ++ [first.given].filter (· ≠ [])) (writer.call first).2 := by
  cases first with
  | write bytes =>
    have hanswer : (writer.write bytes).1 = .ok bytes.length := WriterReply.wrote.inj hok
    exact take_coalescing h (hb bytes rfl) (write_ok (Prod.ext hanswer rfl))
  | flush => exact absurd rfl hf
  | setTrailers trailers =>
    obtain ⟨hsize, sent, held, hcollecting, hslices, hchain⟩ := h
    have hnothing : slices ++ [(WriterCall.setTrailers trailers).given].filter (· ≠ []) = slices :=
      List.append_nil slices
    rw [hnothing]
    exact ⟨hsize, sent, held, withTrailers_collecting hcollecting trailers, hslices, hchain⟩

/-- The groups go on through all calls, whatever was cached in between. -/
theorem send_coalescing {calls : List WriterCall} (h : Coalescing base size slices writer)
    (hb : ∀ bytes, .write bytes ∈ calls → bytes.length < 2 ^ 64) (hf : .flush ∉ calls)
    (hok : (writer.send calls).1 = calls.map WriterCall.success) :
    Coalescing base size (slices ++ WriterCall.slices calls) (writer.send calls).2 := by
  induction calls generalizing writer slices with
  | nil => exact (List.append_nil slices).symm ▸ h
  | cons first others ih =>
    obtain ⟨hreply, hreplies⟩ := List.cons.inj hok
    obtain ⟨hnoFlush, hnone⟩ := List.ne_and_not_mem_of_not_mem_cons hf
    have hfirst := call_coalescing h (fun bytes hw => hb bytes (hw ▸ List.mem_cons_self))
      (Ne.symm hnoFlush) hreply
    have hothers := ih hfirst (fun bytes hm => hb bytes (List.mem_cons_of_mem _ hm)) hnone hreplies
    rw [List.append_assoc, ← WriterCall.slices_cons] at hothers
    exact hothers

/-- A body that is finished has been sent in the groups of its slices, those first that were sent
before. -/
theorem finish_coalescing (h : Coalescing base size slices writer) {outlet : Outlet}
    (hw : writer.finish = (.ok (), outlet)) :
    ∃ (front : Chunked.Chunks) (body : Chunked.WholeBody) (groups : List (List Bytes)),
      writer.outlet.stream = base ++ front.wire ∧ outlet.sink.accepted = base ++ body.wire
      ∧ body.part.chunks.map Chunked.Chunk.data = groups.map List.flatten
      ∧ front.map Chunked.Chunk.data <+: groups.map List.flatten
      ∧ groups.flatten = slices ∧ groups.IsChain (Fills size)
      ∧ ∀ trailers, writer.encoder.trailers? = some trailers →
        (body.HasRoom ↔ Headers.Fit trailers) := by
  obtain ⟨-, sent, held, hcollecting, hslices, hchain⟩ := h
  obtain ⟨front, hfront, hsent⟩ := hcollecting.stream
  obtain ⟨middle, last, encoder, hflush, hlast, -, haccepted⟩ := finish_ok hw
  obtain ⟨-, hmiddle⟩ := flushCache_collecting hcollecting hflush
  obtain ⟨chunks, hstream, hchunks⟩ := hmiddle.stream
  obtain ⟨inner, hinner, hunfinished⟩ := hmiddle.encoder
  obtain ⟨last', next, hfinish, hwire⟩ := BodyEncoder.finish_chunked hunfinished chunks
  have hkept := writer.flushCache_trailers
  rw [hflush, hinner] at hkept
  rw [hinner, hfinish] at hlast
  cases hlast
  refine ⟨front, .ofChunks chunks inner.trailers, closed sent held, hfront, ?_, hchunks, ?_,
    (flatten_closed sent held).trans hslices, fills_closed hchain, ?_⟩
  · rw [haccepted, hstream, List.append_assoc, hwire]
  · rw [hsent]
    exact (prefix_closed sent held).map _
  · intro trailers htrailers
    obtain rfl : inner.trailers = trailers := Option.some.inj (hkept.trans htrailers)
    exact Chunked.WholeBody.hasRoom_ofChunks chunks inner.trailers

/-- The chunks of a body are its slices in groups, none of them divided, and two that follow each
other carry at least `chunkSize` bytes; so there are few of them, however small the slices are.
Those that were on their way before the end are the first ones. All of this takes only that the
calls succeed, as they do over a willing sink. -/
theorem finish_coalesced {chunkSize : Nat} {outlet : Outlet} {calls : List WriterCall}
    (hs : 0 < chunkSize) (hc : chunkSize < 2 ^ 64)
    (hb : ∀ bytes, .write bytes ∈ calls → bytes.length < 2 ^ 64) (hf : .flush ∉ calls) :
    (outlet.sink.Willing → ∃ writer next,
        (start .chunked chunkSize outlet).send calls = (calls.map WriterCall.success, writer)
        ∧ writer.finish = (.ok (), next))
      ∧ ∀ writer next,
        (start .chunked chunkSize outlet).send calls = (calls.map WriterCall.success, writer) →
        writer.finish = (.ok (), next) →
        ∃ (body : Chunked.WholeBody) (pieces : List Bytes),
          next.sink.accepted = outlet.stream ++ body.wire
          ∧ body.part.chunks.map Chunked.Chunk.data = pieces
          ∧ ((BodyDecoder.start .none .chunked).drain body.wire).1 = pieces
          ∧ (Headers.Fit (WriterCall.lastTrailers calls) →
            (BodyDecoder.start .none .chunked).drain body.wire
              = (pieces, ⟨.endOfBody, .chunked .none (.done body.trailers), []⟩))
          ∧ pieces.flatten = WriterCall.data calls
          ∧ pieces.IsChain (fun piece behind => chunkSize ≤ piece.length + behind.length)
          ∧ (∃ groups : List (List Bytes), groups.flatten = WriterCall.slices calls
            ∧ groups.map List.flatten = pieces)
          ∧ pieces.length ≤ 2 * (WriterCall.data calls).length / chunkSize + 1
          ∧ ∃ front, writer.outlet.stream = outlet.stream ++ front
            ∧ ((BodyDecoder.start .none .chunked).drain front).1 <+: pieces := by
  constructor
  · intro hwilling
    obtain ⟨writer, hsend, hsending⟩ := send_sending (start_sending .chunked hwilling hc) hb
    have htrailers := start_trailers rfl chunkSize outlet calls
    rw [hsend] at htrailers
    obtain ⟨next, -, hfinish, -⟩ := finish_sending hsending fun _ => htrailers
    exact ⟨writer, next, hsend, hfinish⟩
  · intro writer next hsend hfinish
    have hcoalescing := send_coalescing (start_coalescing outlet hs hc) hb hf
      (congrArg Prod.fst hsend)
    rw [hsend, List.nil_append] at hcoalescing
    have htrailers := start_trailers rfl chunkSize outlet calls
    rw [hsend] at htrailers
    obtain ⟨front, body, groups, hfront, haccepted, hpieces, hprefix, hslices, hchain, hroom⟩ :=
      finish_coalescing hcoalescing hfinish
    have hdrain := body.drain []
    rw [List.append_nil, hpieces] at hdrain
    have hdata : (groups.map List.flatten).flatten = WriterCall.data calls := by
      rw [← List.flatten_flatten, hslices, WriterCall.flatten_slices]
    have hfilled : (groups.map List.flatten).IsChain
        fun piece behind => chunkSize ≤ piece.length + behind.length :=
      (List.isChain_map List.flatten).2 hchain
    have hfew := length_le hs hfilled
    rw [hdata] at hfew
    refine ⟨body, _, haccepted, hpieces, congrArg Prod.fst hdrain, ?_, hdata, hfilled,
      ⟨groups, hslices, rfl⟩, hfew, front.wire, hfront, ?_⟩
    · intro hfit
      rw [hdrain, Chunked.WholeBody.verdict, if_pos ((hroom _ htrailers).2 hfit)]
      rfl
    · rw [front.drain]
      exact hprefix

/-! Two slices that fit together, with an empty one behind them; one that is too much for these, and
one that is a chunk of its own. -/

namespace Crumbs

def fresh : BodyWriter :=
  .start .chunked 4 (.start 8 2 ⟨[.accept 1, .fail ⟨.interrupted, ""⟩], [], #[]⟩)

def calls : List WriterCall :=
  [.write [97, 98], .write [99], .write [], .setTrailers .empty, .write [100],
    .write [101, 102, 103, 104, 105], .write [106]]

theorem finish_coalesced_crumbs :
    fresh.outlet.sink.Willing ∧ .flush ∉ calls ∧ ∃ writer next,
      fresh.send calls = (calls.map WriterCall.success, writer) ∧ writer.finish = (.ok (), next)
      ∧ ∃ body : Chunked.WholeBody, next.sink.accepted = body.wire
        ∧ body.part.chunks.map Chunked.Chunk.data
          = [[97, 98, 99], [100], [101, 102, 103, 104, 105], [106]]
        ∧ (body.part.chunks.map Chunked.Chunk.data).length ≤ 2 * 10 / 4 + 1 := by
  have hwilling : fresh.outlet.sink.Willing := by
    refine ⟨?_, ?_⟩
    · simp [fresh, start, Outlet.start, WriteEvent.Willing]
    · simp [fresh, start, Outlet.start]
  have hb : ∀ bytes, .write bytes ∈ calls → bytes.length < 2 ^ 64 := by
    intro bytes hm
    simp [calls] at hm
    rcases hm with rfl | rfl | rfl | rfl | rfl | rfl <;> decide
  have hf : .flush ∉ calls := by simp [calls]
  obtain ⟨hdone, hall⟩ := finish_coalesced (by decide : 0 < 4) (by decide : 4 < 2 ^ 64) hb hf
  obtain ⟨writer, next, hsend, hfinish⟩ := hdone hwilling
  obtain ⟨body, pieces, haccepted, rfl, hdrain, -, -, -, -, hfew, -⟩ :=
    hall writer next hsend hfinish
  have hwire : next.sink.accepted = body.wire := haccepted
  have hrun : fresh.send calls = (calls.map WriterCall.success, writer) := hsend
  have hnext : (fresh.send calls).2.finish.2 = next := by rw [hrun, hfinish]
  have hdecoded : ((BodyDecoder.start .none .chunked).drain
      (fresh.send calls).2.finish.2.sink.accepted).1
      = [[97, 98, 99], [100], [101, 102, 103, 104, 105], [106]] := by cbv
  rw [hnext, hwire, hdrain] at hdecoded
  exact ⟨hwilling, hf, writer, next, hrun, hfinish, body, hwire, hdecoded, hfew⟩

end Crumbs
end BodyWriter
end Http1
