import Http1.Body.Writer
import Http1.Proofs.Resending
import Http1.Proofs.Willing
import Http1.Proofs.Written

/-! Writing a body. At any time the stream of the outlet holds what was waiting before the body,
then an encoding of a front part of the data, and the cache holds the rest (`BodyWriter.Sound`).
Every call that succeeds keeps that, and finishing completes the encoding. Over a willing sink every
call does succeed (`BodyWriter.Sending`). -/

namespace Http1

/-- What an encoder has written for data it was given, before it is finished. -/
inductive Encodes : Framing → BodyEncoder → Bytes → Bytes → Prop
  | length (size : Nat) (data : Bytes) :
    Encodes (.length size) (.length (size - data.length)) (data.take size) data
  | chunked (encoder : Chunked.Encoder) (chunks : Chunked.Chunks) (h : encoder.finished = false) :
    Encodes .chunked (.chunked encoder) chunks.wire chunks.data
  | untilClose (data : Bytes) : Encodes .untilClose (.untilClose false) data data

/-- What goes over the wire for the data of a whole body and the trailers behind it. -/
inductive Framing.Frames : Framing → Option Headers → Bytes → Bytes → Prop
  | length (size : Nat) (trailers : Option Headers) (data : Bytes) :
    Frames (.length size) trailers (data.take size) data
  | chunked (chunks : Chunked.Chunks) (trailers : Option Headers) :
    Frames .chunked trailers (Chunked.WholeBody.ofChunks chunks trailers).wire chunks.data
  | untilClose (trailers : Option Headers) (data : Bytes) : Frames .untilClose trailers data data

/-- The trailers that the end of a chunked body will have. Other bodies have no place for any. -/
def BodyEncoder.trailers? : BodyEncoder → Option (Option Headers)
  | chunked encoder => some encoder.trailers
  | length _ | untilClose _ => none

theorem BodyEncoder.withTrailers_trailers (encoder : BodyEncoder) (trailers : Headers) :
    (encoder.withTrailers trailers).trailers? = encoder.trailers?.map fun _ => some trailers := by
  cases encoder with
  | chunked encoder => rfl
  | length left => rfl
  | untilClose ended => rfl

theorem Chunked.Encoder.beginChunk_trailers {encoder next : Encoder} {size : Nat}
    {line : Option Bytes} (h : encoder.beginChunk size = .ok (line, next)) :
    next.trailers = encoder.trailers := by
  unfold beginChunk at h
  split at h
  · cases h
  · split at h
    · cases h
      rfl
    · cases h
      rfl

theorem BodyEncoder.beginFragment_trailers {encoder next : BodyEncoder} {size : Nat}
    {fragment : Fragment} (h : encoder.beginFragment size = .ok (fragment, next)) :
    next.trailers? = encoder.trailers? := by
  cases encoder with
  | length left =>
    cases h
    rfl
  | untilClose ended =>
    cases h
    rfl
  | chunked encoder =>
    rw [beginFragment] at h
    cases hbegin : encoder.beginChunk size with
    | error error =>
      rw [hbegin] at h
      cases h
    | ok begun =>
      have htrailers := Chunked.Encoder.beginChunk_trailers hbegin
      rcases begun with ⟨_ | line, begun⟩
      · rw [hbegin] at h
        cases h
        exact congrArg some htrailers
      · rw [hbegin] at h
        cases h
        exact congrArg some htrailers

/-- A fragment of a chunked body is a chunk. -/
theorem BodyEncoder.beginFragment_chunked {encoder : Chunked.Encoder}
    (hf : encoder.finished = false) {size : Nat} (hs : size ≠ 0) :
    (BodyEncoder.chunked encoder).beginFragment size
      = .ok (⟨Chunked.Encoder.sizeLine size, size, Bytes.crlf⟩,
        .chunked { encoder with sent := encoder.sent + UInt64.ofNat size }) := by
  rw [beginFragment, Chunked.Encoder.beginChunk, hf, if_neg hs]
  rfl

/-- The end of a chunked body completes the chunks before it. -/
theorem BodyEncoder.finish_chunked {encoder : Chunked.Encoder} (hf : encoder.finished = false)
    (chunks : Chunked.Chunks) :
    ∃ last next, (BodyEncoder.chunked encoder).finish = .ok (last, .chunked next)
      ∧ (Chunked.WholeBody.ofChunks chunks encoder.trailers).wire = chunks.wire ++ last := by
  obtain ⟨last, next, hfinish⟩ : ∃ last next, encoder.finish = .ok (last, next) := by
    rw [Chunked.Encoder.finish, hf]
    exact ⟨_, _, rfl⟩
  refine ⟨last, next, ?_, Chunked.WholeBody.wire_ofChunks chunks hfinish⟩
  rw [finish, hfinish]
  rfl

namespace Encodes

variable {framing : Framing} {encoder : BodyEncoder} {wire data : Bytes}

theorem start (framing : Framing) : Encodes framing (.start framing) [] [] := by
  cases framing with
  | length size =>
    have h := Encodes.length size []
    rwa [List.take_nil] at h
  | chunked => exact .chunked .start [] rfl
  | untilClose => exact .untilClose []

theorem withTrailers (h : Encodes framing encoder wire data) (trailers : Headers) :
    Encodes framing (encoder.withTrailers trailers) wire data := by
  cases h with
  | length size data => exact .length size data
  | chunked encoder chunks h => exact .chunked (encoder.withTrailers trailers) chunks h
  | untilClose => exact .untilClose _

theorem chunks_snoc (chunks : Chunked.Chunks) (chunk : Chunked.Chunk) :
    Chunked.Chunks.wire (chunks ++ [chunk]) = chunks.wire ++ chunk.wire
      ∧ Chunked.Chunks.data (chunks ++ [chunk]) = chunks.data ++ chunk.data := by
  simp [Chunked.Chunks.wire, Chunked.Chunks.data]

/-- A fragment goes on with the encoding. -/
theorem fragment (h : Encodes framing encoder wire data) (bytes : Bytes)
    (hb : bytes.length < 2 ^ 64) :
    ∃ fragment next, encoder.beginFragment bytes.length = .ok (fragment, next)
      ∧ Encodes framing next
        (wire ++ (fragment.lead ++ bytes.take fragment.size ++ fragment.suffix))
        (data ++ bytes) := by
  cases h with
  | length size data =>
    have hleft : size - data.length - min (size - data.length) bytes.length
        = size - (data ++ bytes).length := by
      rw [List.length_append]
      omega
    have htake : (data ++ bytes).take size
        = data.take size ++ bytes.take (min (size - data.length) bytes.length) := by
      rw [List.take_append, ← List.take_eq_take_min]
    have hnext := Encodes.length size (data ++ bytes)
    rw [htake, ← hleft] at hnext
    refine ⟨_, _, rfl, ?_⟩
    simpa [BodyEncoder.fitting] using hnext
  | chunked encoder chunks hf =>
    by_cases hne : bytes = []
    · -- an empty chunk is not written
      refine ⟨⟨[], 0, []⟩, .chunked encoder, ?_, ?_⟩
      · rw [hne, BodyEncoder.beginFragment, Chunked.Encoder.beginChunk, hf]
        rfl
      · simpa [hne] using Encodes.chunked encoder chunks hf
    · have hlen : bytes.length ≠ 0 := fun h => hne (List.length_eq_zero_iff.1 h)
      obtain ⟨hwire, hdata⟩ := chunks_snoc chunks (.ofData bytes hne hb)
      rw [Chunked.Chunk.wire_ofData] at hwire
      have hnext := Encodes.chunked
        { encoder with sent := encoder.sent + UInt64.ofNat bytes.length }
        (chunks ++ [.ofData bytes hne hb]) hf
      rw [hwire, hdata] at hnext
      refine ⟨_, _, BodyEncoder.beginFragment_chunked hf hlen, ?_⟩
      rw [List.take_length]
      exact hnext
  | untilClose =>
    refine ⟨_, _, rfl, ?_⟩
    simpa using Encodes.untilClose (_ ++ bytes)

/-- The end completes what goes over the wire, with the trailers if there is a place for them. -/
theorem finish (h : Encodes framing encoder wire data) {trailers : Option Headers}
    (ht : framing = .chunked → encoder.trailers? = some trailers) :
    ∃ last next, encoder.finish = .ok (last, next)
      ∧ framing.Frames trailers (wire ++ last) data := by
  cases h with
  | length size data =>
    refine ⟨_, _, rfl, ?_⟩
    rw [List.append_nil]
    exact .length size trailers data
  | chunked encoder chunks hf =>
    obtain ⟨last, next, hfinish, hwire⟩ := BodyEncoder.finish_chunked hf chunks
    refine ⟨last, .chunked next, hfinish, ?_⟩
    rw [← hwire, Option.some.inj (ht rfl)]
    exact .chunked chunks trailers
  | untilClose =>
    refine ⟨_, _, rfl, ?_⟩
    rw [List.append_nil]
    exact .untilClose trailers _

end Encodes

namespace BodyWriter

/-- Where a writer stands that was given `data` behind a stream of `base`. -/
structure Sound (framing : Framing) (base data : Bytes) (writer : BodyWriter) : Prop where
  chunkSize_lt : writer.chunkSize < 2 ^ 64
  cache_lt : writer.cache = [] ∨ writer.cache.length < writer.chunkSize
  encoded : ∃ wire front, Encodes framing writer.encoder wire front
    ∧ writer.outlet.stream = base ++ wire ∧ data = front ++ writer.cache

variable {framing : Framing} {base data : Bytes} {writer next : BodyWriter}

theorem start_sound (framing : Framing) {chunkSize : Nat} (outlet : Outlet)
    (hc : chunkSize < 2 ^ 64) :
    Sound framing outlet.stream [] (.start framing chunkSize outlet) where
  chunkSize_lt := by
    rw [start]
    dsimp only
    split
    · exact hc
    · decide
  cache_lt := .inl rfl
  encoded := ⟨[], [], .start framing, (List.append_nil _).symm, rfl⟩

theorem withTrailers_sound (h : Sound framing base data writer) (trailers : Headers) :
    Sound framing base data (writer.withTrailers trailers) := by
  obtain ⟨wire, front, hencodes, hstream, hdata⟩ := h.encoded
  exact ⟨h.chunkSize_lt, h.cache_lt, wire, front, hencodes.withTrailers trailers, hstream, hdata⟩

theorem Sound.cache_length (h : Sound framing base data writer) : writer.cache.length < 2 ^ 64 := by
  rcases h.cache_lt with hempty | hlt
  · rw [hempty]
    decide
  · exact Nat.lt_trans hlt h.chunkSize_lt

theorem writeFragment_ok {bytes : Bytes} {fragment : Fragment} {encoder : BodyEncoder}
    (hbegin : writer.encoder.beginFragment bytes.length = .ok (fragment, encoder))
    (hw : writer.writeFragment bytes = (.ok (), next)) :
    ∃ outlet, next = { writer with encoder, outlet } ∧ outlet.stream = writer.outlet.stream
      ++ (fragment.lead ++ bytes.take fragment.size ++ fragment.suffix) := by
  rw [writeFragment, hbegin] at hw
  dsimp only at hw
  split at hw
  · cases hw
  · next middle hbytes =>
    generalize hsuffix : middle.write fragment.suffix = last at hw
    obtain ⟨error | u, outlet⟩ := last
    · cases hw
    · cases hw
      refine ⟨outlet, rfl, ?_⟩
      rw [Outlet.write_stream hsuffix, Outlet.write_stream hbytes, Outlet.append_stream]
      simp only [List.append_assoc]

/-- A fragment may be written while nothing is cached. -/
theorem writeFragment_sound (h : Sound framing base data writer) (hcache : writer.cache = [])
    {bytes : Bytes} (hb : bytes.length < 2 ^ 64)
    (hw : writer.writeFragment bytes = (.ok (), next)) :
    next.cache = [] ∧ next.chunkSize = writer.chunkSize
      ∧ Sound framing base (data ++ bytes) next := by
  obtain ⟨wire, front, hencodes, hstream, hdata⟩ := h.encoded
  rw [hcache, List.append_nil] at hdata
  obtain ⟨fragment, encoder, hbegin, hnext⟩ := hencodes.fragment bytes hb
  obtain ⟨outlet, rfl, hall⟩ := writeFragment_ok hbegin hw
  rw [hstream, List.append_assoc] at hall
  exact ⟨hcache, rfl, h.chunkSize_lt, .inl hcache, _, _, hnext, hall,
    by rw [hcache, hdata, List.append_nil]⟩

theorem Sound.cleared (h : Sound framing base data writer) :
    ∃ front, data = front ++ writer.cache
      ∧ Sound framing base front { writer with cache := [] } := by
  obtain ⟨wire, front, hencodes, hstream, hdata⟩ := h.encoded
  exact ⟨front, hdata, h.chunkSize_lt, .inl rfl, wire, front, hencodes, hstream,
    (List.append_nil _).symm⟩

theorem flushCache_cases (hw : writer.flushCache = (.ok (), next)) :
    writer.cache = [] ∧ next = writer
      ∨ writer.cache ≠ []
        ∧ writeFragment writer.cache { writer with cache := [] } = (.ok (), next) := by
  unfold flushCache at hw
  split at hw
  · next hempty =>
    cases hw
    exact .inl ⟨by simpa using hempty, rfl⟩
  · next hfull => exact .inr ⟨by simpa using hfull, hw⟩

theorem flushCache_sound (h : Sound framing base data writer)
    (hw : writer.flushCache = (.ok (), next)) :
    next.cache = [] ∧ next.chunkSize = writer.chunkSize ∧ Sound framing base data next := by
  rcases flushCache_cases hw with ⟨hempty, rfl⟩ | ⟨-, hw⟩
  · exact ⟨hempty, rfl, h⟩
  · obtain ⟨front, hdata, hcleared⟩ := h.cleared
    rw [hdata]
    exact writeFragment_sound hcleared rfl h.cache_length hw

/-- Nothing but setting them changes the trailers, whether or not it succeeds. -/
theorem writeFragment_trailers (writer : BodyWriter) (bytes : Bytes) :
    (writer.writeFragment bytes).2.encoder.trailers? = writer.encoder.trailers? := by
  unfold writeFragment
  split
  · rfl
  next fragment encoder hbegin =>
  have htrailers := BodyEncoder.beginFragment_trailers hbegin
  split
  · exact htrailers
  · exact htrailers

theorem flushCache_trailers (writer : BodyWriter) :
    writer.flushCache.2.encoder.trailers? = writer.encoder.trailers? := by
  unfold flushCache
  split
  · rfl
  · exact writeFragment_trailers { writer with cache := [] } writer.cache

theorem keep_sound (h : Sound framing base data writer) {bytes : Bytes}
    (hb : writer.cache.length + bytes.length < writer.chunkSize) :
    Sound framing base (data ++ bytes) (writer.keep bytes) := by
  obtain ⟨wire, front, hencodes, hstream, hdata⟩ := h.encoded
  refine ⟨h.chunkSize_lt, .inr ?_, wire, front, hencodes, hstream, ?_⟩
  · rw [keep, List.length_append]
    exact hb
  · rw [hdata, List.append_assoc]
    rfl

/-- What a take that succeeds has done. -/
theorem take_cases {bytes : Bytes} (hw : writer.take bytes = (.ok (), next)) :
    writer.chunkSize = 0 ∧ writer.writeFragment bytes = (.ok (), next)
      ∨ writer.cache.length + bytes.length < writer.chunkSize ∧ next = writer.keep bytes
      ∨ writer.chunkSize ≤ writer.cache.length + bytes.length
        ∧ ∃ middle, writer.flushCache = (.ok (), middle)
          ∧ (bytes.length < middle.chunkSize ∧ next = middle.keep bytes
            ∨ middle.chunkSize ≤ bytes.length
              ∧ middle.writeFragment bytes = (.ok (), next)) := by
  unfold take at hw
  split at hw
  · next hzero => exact .inl ⟨hzero, hw⟩
  split at hw
  · next hroom =>
    cases hw
    exact .inr (.inl ⟨hroom, rfl⟩)
  next hfull =>
  split at hw
  · cases hw
  next middle hflush =>
  refine .inr (.inr ⟨Nat.le_of_not_lt hfull, middle, hflush, ?_⟩)
  split at hw
  · next hroom =>
    cases hw
    exact .inl ⟨hroom, rfl⟩
  · next hlarge => exact .inr ⟨Nat.le_of_not_lt hlarge, hw⟩

/-- All bytes of a write are behind those that were given before. -/
theorem take_sound (h : Sound framing base data writer) {bytes : Bytes}
    (hb : bytes.length < 2 ^ 64) (hw : writer.take bytes = (.ok (), next)) :
    Sound framing base (data ++ bytes) next := by
  rcases take_cases hw with ⟨hzero, hw⟩ | ⟨hroom, rfl⟩ | ⟨-, middle, hflush, hrest⟩
  · have hcache : writer.cache = [] := by
      rcases h.cache_lt with hempty | hlt
      · exact hempty
      · omega
    exact (writeFragment_sound h hcache hb hw).2.2
  · exact keep_sound h hroom
  · obtain ⟨hcache, -, hmiddle⟩ := flushCache_sound h hflush
    rcases hrest with ⟨hroom, rfl⟩ | ⟨-, hw⟩
    · refine keep_sound hmiddle ?_
      rw [hcache, List.length_nil, Nat.zero_add]
      exact hroom
    · exact (writeFragment_sound hmiddle hcache hb hw).2.2

theorem write_ok {bytes : Bytes} {n : Nat} (hw : writer.write bytes = (.ok n, next)) :
    writer.take bytes = (.ok (), next) := by
  unfold write at hw
  generalize writer.take bytes = taken at hw
  obtain ⟨error | u, middle⟩ := taken
  · cases hw
  · cases hw
    rfl

theorem write_sound (h : Sound framing base data writer) {bytes : Bytes} {n : Nat}
    (hb : bytes.length < 2 ^ 64) (hw : writer.write bytes = (.ok n, next)) :
    Sound framing base (data ++ bytes) next :=
  take_sound h hb (write_ok hw)

theorem Sound.onOutlet (h : Sound framing base data writer) {outlet : Outlet}
    (hs : outlet.stream = writer.outlet.stream) :
    Sound framing base data { writer with outlet } := by
  obtain ⟨wire, front, hencodes, hstream, hdata⟩ := h.encoded
  exact ⟨h.chunkSize_lt, h.cache_lt, wire, front, hencodes, hs.trans hstream, hdata⟩

/-- A finish that succeeds has sent the cache and the end, and nothing waits behind them. -/
theorem finish_ok {outlet : Outlet} (hw : writer.finish = (.ok (), outlet)) :
    ∃ middle last encoder, writer.flushCache = (.ok (), middle)
      ∧ middle.encoder.finish = .ok (last, encoder) ∧ outlet.pending = []
      ∧ outlet.sink.accepted = middle.outlet.stream ++ last := by
  unfold finish at hw
  split at hw
  · cases hw
  next middle hcache =>
  split at hw
  · cases hw
  next last encoder hfinish =>
  generalize hflush : (middle.outlet.append last).flush = flushed at hw
  obtain ⟨error | u, sent⟩ := flushed
  · cases hw
  · cases hw
    obtain ⟨hpending, hsent⟩ := Outlet.flush_stream hflush
    rw [Outlet.append_stream, Outlet.stream, hpending, List.append_nil] at hsent
    exact ⟨middle, last, encoder, hcache, hfinish, hpending, hsent⟩

/-- After the end nothing waits, and the sink has all of the body. -/
theorem finish_sound (h : Sound framing base data writer) {trailers : Option Headers}
    (ht : framing = .chunked → writer.encoder.trailers? = some trailers) {outlet : Outlet}
    (hw : writer.finish = (.ok (), outlet)) :
    outlet.pending = [] ∧ ∃ wire, outlet.sink.accepted = base ++ wire
      ∧ framing.Frames trailers wire data := by
  obtain ⟨middle, last, encoder, hcache, hfinish, hpending, haccepted⟩ := finish_ok hw
  obtain ⟨hempty, -, hmiddle⟩ := flushCache_sound h hcache
  obtain ⟨wire, front, hencodes, hstream, hdata⟩ := hmiddle.encoded
  rw [hempty, List.append_nil] at hdata
  have htrailers := writer.flushCache_trailers
  rw [hcache] at htrailers
  obtain ⟨last', encoder', hfinish', hframes⟩ := hencodes.finish fun hc => htrailers.trans (ht hc)
  cases hfinish.symm.trans hfinish'
  exact ⟨hpending, wire ++ last, by rw [haccepted, hstream, List.append_assoc], hdata ▸ hframes⟩

/-- Where a writer stands that was given `data` behind a stream of `base`. -/
structure Sending (framing : Framing) (base data : Bytes) (writer : BodyWriter) : Prop where
  willing : writer.outlet.sink.Willing
  chunkSize_lt : writer.chunkSize < 2 ^ 64
  cache_lt : writer.cache = [] ∨ writer.cache.length < writer.chunkSize
  encoded : ∃ wire front, Encodes framing writer.encoder wire front
    ∧ writer.outlet.stream = base ++ wire ∧ data = front ++ writer.cache

theorem Sending.sound (h : Sending framing base data writer) : Sound framing base data writer :=
  ⟨h.chunkSize_lt, h.cache_lt, h.encoded⟩

theorem Sound.sending (h : Sound framing base data writer) (hs : writer.outlet.sink.Willing) :
    Sending framing base data writer :=
  ⟨hs, h.chunkSize_lt, h.cache_lt, h.encoded⟩

theorem start_sending (framing : Framing) {chunkSize : Nat} {outlet : Outlet}
    (hs : outlet.sink.Willing) (hc : chunkSize < 2 ^ 64) :
    Sending framing outlet.stream [] (.start framing chunkSize outlet) :=
  (start_sound framing outlet hc).sending hs

theorem withTrailers_sending (h : Sending framing base data writer) (trailers : Headers) :
    Sending framing base data (writer.withTrailers trailers) :=
  (withTrailers_sound h.sound trailers).sending h.willing

theorem writeFragment_sending (h : Sending framing base data writer) (hcache : writer.cache = [])
    {bytes : Bytes} (hb : bytes.length < 2 ^ 64) :
    ∃ next, writer.writeFragment bytes = (.ok (), next) ∧ next.cache = []
      ∧ next.chunkSize = writer.chunkSize ∧ Sending framing base (data ++ bytes) next := by
  obtain ⟨wire, front, hencodes, -, -⟩ := h.encoded
  obtain ⟨fragment, encoder, hbegin, -⟩ := hencodes.fragment bytes hb
  have hlead := Outlet.append_grown h.willing fragment.lead
  obtain ⟨middle, hwrite, hmiddle⟩ := Outlet.write_grown hlead.willing (bytes.take fragment.size)
  obtain ⟨outlet, hsuffix, houtlet⟩ := Outlet.write_grown hmiddle.willing fragment.suffix
  have hw : writer.writeFragment bytes = (.ok (), { writer with encoder, outlet }) := by
    rw [writeFragment, hbegin]
    simp only [hwrite, hsuffix]
    rfl
  obtain ⟨hempty, hsize, hnext⟩ := writeFragment_sound h.sound hcache hb hw
  exact ⟨_, hw, hempty, hsize, hnext.sending houtlet.willing⟩

theorem flushCache_sending (h : Sending framing base data writer) :
    ∃ next, writer.flushCache = (.ok (), next) ∧ next.cache = []
      ∧ next.chunkSize = writer.chunkSize ∧ Sending framing base data next := by
  rw [flushCache]
  split
  · next hempty => exact ⟨writer, rfl, by simpa using hempty, rfl, h⟩
  · obtain ⟨front, hdata, hcleared⟩ := h.sound.cleared
    rw [hdata]
    exact writeFragment_sending (hcleared.sending h.willing) rfl h.sound.cache_length

theorem keep_sending (h : Sending framing base data writer) {bytes : Bytes}
    (hb : writer.cache.length + bytes.length < writer.chunkSize) :
    Sending framing base (data ++ bytes) (writer.keep bytes) :=
  (keep_sound h.sound hb).sending h.willing

theorem take_sending (h : Sending framing base data writer) {bytes : Bytes}
    (hb : bytes.length < 2 ^ 64) :
    ∃ next, writer.take bytes = (.ok (), next) ∧ Sending framing base (data ++ bytes) next := by
  rw [take]
  split
  · next hzero =>
    have hcache : writer.cache = [] := by
      rcases h.cache_lt with hempty | hlt
      · exact hempty
      · omega
    obtain ⟨next, hwrite, -, -, hnext⟩ := writeFragment_sending h hcache hb
    exact ⟨next, hwrite, hnext⟩
  split
  · next hroom => exact ⟨writer.keep bytes, rfl, keep_sending h hroom⟩
  · obtain ⟨middle, hflush, hcache, hsize, hmiddle⟩ := flushCache_sending h
    rw [hflush]
    dsimp only
    split
    · next hroom =>
      have hroom' : middle.cache.length + bytes.length < middle.chunkSize := by
        rw [hcache, List.length_nil, Nat.zero_add]
        exact hroom
      exact ⟨middle.keep bytes, rfl, keep_sending hmiddle hroom'⟩
    · obtain ⟨next, hwrite, -, -, hnext⟩ := writeFragment_sending hmiddle hcache hb
      exact ⟨next, hwrite, hnext⟩

theorem write_sending (h : Sending framing base data writer) {bytes : Bytes}
    (hb : bytes.length < 2 ^ 64) :
    ∃ next, writer.write bytes = (.ok bytes.length, next)
      ∧ Sending framing base (data ++ bytes) next := by
  obtain ⟨next, htake, hnext⟩ := take_sending h hb
  refine ⟨next, ?_, hnext⟩
  rw [write, htake]
  rfl

theorem flush_sending (h : Sending framing base data writer) :
    ∃ next, writer.flush = (.ok (), next) ∧ Sending framing base data next := by
  obtain ⟨middle, hcache, -, -, hmiddle⟩ := flushCache_sending h
  obtain ⟨outlet, hflush, -, hgrown⟩ := Outlet.flush_grown hmiddle.willing
  have hstream : outlet.stream = middle.outlet.stream :=
    hgrown.stream.trans (List.append_nil _)
  refine ⟨{ middle with outlet }, ?_, (hmiddle.sound.onOutlet hstream).sending hgrown.willing⟩
  rw [flush, hcache]
  simp only [hflush]

theorem finish_sending (h : Sending framing base data writer) {trailers : Option Headers}
    (ht : framing = .chunked → writer.encoder.trailers? = some trailers) :
    ∃ outlet wire, writer.finish = (.ok (), outlet) ∧ outlet.pending = []
      ∧ outlet.sink.accepted = base ++ wire ∧ framing.Frames trailers wire data := by
  obtain ⟨middle, hcache, -, -, hmiddle⟩ := flushCache_sending h
  obtain ⟨wire, front, hencodes, -, -⟩ := hmiddle.encoded
  have htrailers := writer.flushCache_trailers
  rw [hcache] at htrailers
  obtain ⟨last, encoder, hfinish, -⟩ := hencodes.finish fun hc => htrailers.trans (ht hc)
  have hlast := Outlet.append_grown hmiddle.willing last
  obtain ⟨outlet, hflush, -, -⟩ := Outlet.flush_grown hlast.willing
  have hw : writer.finish = (.ok (), outlet) := by
    rw [finish, hcache]
    simp only [hfinish, hflush]
    rfl
  obtain ⟨hpending, sent, haccepted, hframes⟩ := finish_sound h.sound ht hw
  exact ⟨outlet, sent, hw, hpending, haccepted, hframes⟩

end BodyWriter
end Http1
