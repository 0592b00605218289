import Http1.Connection
import Http1.Proofs.RoundTrip
import Http1.Proofs.SteadyBody

/-! Whatever is read through an inlet comes down to fills of it, each while few bytes are buffered,
and to bytes taken from its front (`Inlet.Kept`), and whatever is written through an outlet to
writes and flushes of its sink. So what these keep of an inlet, every call on a body reader keeps
too (`BodyReader.call_keeps`), and in the same way for a body that is sent
(`BodyWriter.send_keeps`). -/

namespace Http1

theorem Chunked.Phase.decode_rest (limits : Chunked.Limits) (phase : Chunked.Phase) (src : Bytes) :
    (phase.decode limits src).rest <:+ src := by
  fun_induction decode limits phase src with
  | case1 => exact List.suffix_refl _
  | case2 => exact List.suffix_refl _
  | case3 b rest left taken => exact List.drop_suffix _ _
  | case4 => rename_i ih; exact ih.trans (List.suffix_cons _ _)
  | case5 => rename_i ih; exact ih.trans (List.suffix_cons _ _)
  | case6 => exact List.suffix_cons _ _

namespace BodyDecoder

variable (decoder : BodyDecoder) (src : Bytes)

/-- A decoder uses bytes up from the front. -/
theorem decode_rest : (decoder.decode src).rest <:+ src := by
  cases decoder with
  | length received left =>
    simp only [decode, decodeLength]
    split
    · exact List.suffix_refl _
    split
    · exact List.suffix_refl _
    · exact List.drop_suffix _ _
  | chunked limits phase => exact phase.decode_rest limits src
  | untilClose ended =>
    simp only [decode, decodeUntilClose]
    split
    · exact List.suffix_refl _
    split
    · exact List.suffix_refl _
    · exact List.nil_suffix

theorem decodeEof_rest : (decoder.decodeEof src).rest <:+ src := by
  have h := decoder.decode_rest src
  simp only [decodeEof]
  split
  · exact h
  · exact h

end BodyDecoder

/-- What an inlet keeps when it is filled while at most `most` bytes are buffered and when bytes are
taken from its front. -/
structure Inlet.Kept (most : Nat) (P : Inlet → Prop) : Prop where
  fill : ∀ inlet : Inlet, inlet.buffered.length ≤ most → P inlet → P inlet.fill.2
  take : ∀ (inlet : Inlet) (rest : Bytes), rest <:+ inlet.buffered → P inlet →
    P { inlet with buffered := rest }

/-- What every read keeps of a source. -/
theorem Inlet.Kept.ofSource {P : Source → Prop}
    (hP : ∀ source offered, P source → P (Source.read source offered).2) (most : Nat) :
    Kept most fun inlet => P inlet.source where
  fill inlet _ h := by
    have hread := hP inlet.source inlet.readSize h
    unfold Inlet.fill
    cases hr : inlet.source.read inlet.readSize with
    | mk answer source =>
      rw [hr] at hread
      cases answer with
      | error error => exact hread
      | ok bytes => exact hread
  take _ _ _ h := h

section Reads

variable {most : Nat} {P : Inlet → Prop} (hP : Inlet.Kept most P)

include hP

theorem Inlet.peek_keeps (inlet : Inlet) (h : P inlet) : P inlet.peek.2 := by
  unfold peek
  split
  · exact h
  · next hb =>
    have hempty : inlet.buffered.length ≤ most := by
      rw [not_not, List.isEmpty_iff] at hb
      rw [hb]
      exact Nat.zero_le _
    have hfill := hP.fill inlet hempty h
    cases hr : inlet.fill with
    | mk answer next =>
      rw [hr] at hfill
      rcases answer with error | n
      · simp only
        split
        · exact hfill
        · exact hfill
      · cases n with
        | zero => exact hfill
        | succ n => exact hfill

/-- A search for a head fills the inlet only while what is buffered may be one. -/
theorem Inlet.readHead_keeps {max : Nat} (hmax : max ≤ most) (inlet : Inlet) (h : P inlet) :
    P (inlet.readHead max).2 := by
  fun_induction readHead max inlet with
  | case1 inlet size hs hm => exact hP.take inlet _ (List.drop_suffix size inlet.buffered) h
  | case2 => exact h
  | case3 inlet hs hm error next hr =>
    have hfill := hP.fill inlet (hm.trans hmax) h
    rwa [hr] at hfill
  | case4 inlet hs hm next hr =>
    have hfill := hP.fill inlet (hm.trans hmax) h
    rwa [hr] at hfill
  | case5 inlet hs hm n next hr ih =>
    have hfill := hP.fill inlet (hm.trans hmax) h
    rw [hr] at hfill
    exact ih hfill
  | case6 => exact h

namespace BodyReader

variable (reader : BodyReader)

omit hP in
theorem outcome_inlet (item : Item) :
    (reader.outcome item).2.inlet = reader.inlet := by
  cases item <;> rfl

theorem after_keeps {found : Decoded BodyDecoder} (hf : found.rest <:+ reader.inlet.buffered)
    (h : P reader.inlet) : P (reader.after found).inlet :=
  hP.take reader.inlet found.rest hf h

/-- Nothing is buffered when a decoder needs more. -/
theorem fill_keeps {found : Decoded BodyDecoder} (hf : found.rest = [])
    (h : P (reader.after found).inlet) : P (reader.after found).inlet.fill.2 := by
  refine hP.fill _ ?_ h
  rw [after, hf]
  exact Nat.zero_le _

theorem advance_keeps (h : P reader.inlet) : P reader.advance.2.inlet := by
  fun_induction advance reader with
  | case1 => exact h
  | case2 reader hr found reader' hi error inlet hf =>
    have hafter := after_keeps hP reader (reader.decoder.decode_rest _) h
    have hfill := fill_keeps hP reader (BodyDecoder.decode_needMore hi).2 hafter
    rwa [hf] at hfill
  | case3 reader hr found reader' hi inlet hf last =>
    have hafter := after_keeps hP reader (reader.decoder.decode_rest _) h
    have hfill := fill_keeps hP reader (BodyDecoder.decode_needMore hi).2 hafter
    rw [hf] at hfill
    rw [outcome_inlet]
    exact after_keeps hP { reader' with inlet } (BodyDecoder.decodeEof_rest _ _) hfill
  | case4 reader hr found reader' hi n inlet hf ih =>
    have hafter := after_keeps hP reader (reader.decoder.decode_rest _) h
    have hfill := fill_keeps hP reader (BodyDecoder.decode_needMore hi).2 hafter
    rw [hf] at hfill
    exact ih hfill
  | case5 reader hr found reader' hi =>
    rw [outcome_inlet]
    exact after_keeps hP reader (reader.decoder.decode_rest _) h

theorem nextChunk_keeps (h : P reader.inlet) : P reader.nextChunk.2.inlet := by
  unfold nextChunk
  split
  · exact advance_keeps hP reader h
  · exact h

theorem skipFrom_keeps (skipped : Nat) (h : P reader.inlet) :
    P (reader.skipFrom skipped).2.inlet := by
  fun_induction skipFrom skipped reader with
  | case1 skipped reader error next hn =>
    have hnext := nextChunk_keeps hP reader h
    rwa [hn] at hnext
  | case2 skipped reader next hn =>
    have hnext := nextChunk_keeps hP reader h
    rwa [hn] at hnext
  | case3 skipped reader bytes next hn ih =>
    have hnext := nextChunk_keeps hP reader h
    rw [hn] at hnext
    exact ih hnext

theorem read_keeps (size : Nat) (h : P reader.inlet) : P (reader.read size).2.inlet := by
  have hadvance := advance_keeps hP reader h
  unfold read
  split
  · exact h
  split
  · exact h
  split
  · next hr => rwa [hr] at hadvance
  · next hr => rwa [hr] at hadvance
  · next hr => rwa [hr] at hadvance

theorem call_keeps (bodyCall : BodyCall) (h : P reader.inlet) :
    P (reader.call bodyCall).2.inlet := by
  cases bodyCall with
  | nextChunk =>
    have hnext := nextChunk_keeps hP reader h
    simp only [call]
    split
    · next hr => rwa [hr] at hnext
    · next hr => rwa [hr] at hnext
    · next hr => rwa [hr] at hnext
  | read size =>
    have hread := read_keeps hP reader size h
    simp only [call]
    split
    · next hr => rwa [hr] at hread
    · next hr => rwa [hr] at hread
  | skip =>
    have hskip := skipFrom_keeps hP reader 0 h
    simp only [call, skipBody]
    split
    · next hr => rwa [hr] at hskip
    · next hr => rwa [hr] at hskip

theorem run_keeps (calls : List BodyCall) (h : P reader.inlet) :
    P (reader.run calls).2.inlet := by
  induction calls generalizing reader with
  | nil => exact h
  | cons first others ih => exact ih _ (call_keeps hP reader first h)

end BodyReader
end Reads

section Writes

variable {P : Sink → Prop} (hwrite : ∀ sink bytes, P sink → P (Sink.writeAll sink bytes).2)
  (hflush : ∀ sink, P sink → P (Sink.flush sink).2)

namespace Outlet

variable (outlet : Outlet)

include hwrite

theorem flushBuffer_keeps (h : P outlet.sink) : P outlet.flushBuffer.2.sink := by
  have hsent := hwrite outlet.sink outlet.pending h
  unfold flushBuffer
  cases hr : outlet.sink.writeAll outlet.pending with
  | mk answer sink =>
    rw [hr] at hsent
    cases answer with
    | error error => exact hsent
    | ok done => exact hsent

theorem afterFlush_keeps {next : Outlet → Except IoError Unit × Outlet} (h : P outlet.sink)
    (hn : ∀ outlet : Outlet, P outlet.sink → P (next outlet).2.sink) :
    P (outlet.afterFlush next).2.sink := by
  have hsent := flushBuffer_keeps hwrite outlet h
  unfold afterFlush
  split
  · next hr => rwa [hr] at hsent
  · next hr =>
    rw [hr] at hsent
    exact hn _ hsent

theorem write_keeps (bytes : Bytes) (h : P outlet.sink) : P (outlet.write bytes).2.sink := by
  unfold write
  split
  · exact afterFlush_keeps hwrite outlet h fun outlet ho => hwrite outlet.sink bytes ho
  split
  · exact afterFlush_keeps hwrite outlet h fun outlet ho => ho
  · exact h

include hflush

theorem flush_keeps (h : P outlet.sink) : P outlet.flush.2.sink :=
  afterFlush_keeps hwrite outlet h fun outlet ho => hflush outlet.sink ho

end Outlet

namespace BodyWriter

variable (writer : BodyWriter)

include hwrite

theorem writeFragment_keeps (bytes : Bytes) (h : P writer.outlet.sink) :
    P (writer.writeFragment bytes).2.outlet.sink := by
  unfold writeFragment
  split
  · exact h
  · next fragment encoder hb =>
    have hdata := Outlet.write_keeps hwrite (writer.outlet.append fragment.lead)
      (bytes.take fragment.size) h
    split
    · next hr => rwa [hr] at hdata
    · next hr =>
      rw [hr] at hdata
      exact Outlet.write_keeps hwrite _ fragment.suffix hdata

theorem flushCache_keeps (h : P writer.outlet.sink) : P writer.flushCache.2.outlet.sink := by
  unfold flushCache
  split
  · exact h
  · exact writeFragment_keeps hwrite { writer with cache := [] } writer.cache h

theorem take_keeps (bytes : Bytes) (h : P writer.outlet.sink) :
    P (writer.take bytes).2.outlet.sink := by
  have hcache := flushCache_keeps hwrite writer h
  unfold take
  split
  · exact writeFragment_keeps hwrite writer bytes h
  split
  · exact h
  split
  · next hr => rwa [hr] at hcache
  · next hr =>
    rw [hr] at hcache
    split
    · exact hcache
    · exact writeFragment_keeps hwrite _ bytes hcache

include hflush

theorem flush_keeps (h : P writer.outlet.sink) : P writer.flush.2.outlet.sink := by
  have hcache := flushCache_keeps hwrite writer h
  unfold flush
  split
  · next hr => rwa [hr] at hcache
  · next hr =>
    rw [hr] at hcache
    exact Outlet.flush_keeps hwrite hflush _ hcache

theorem finish_keeps (h : P writer.outlet.sink) : P writer.finish.2.sink := by
  have hcache := flushCache_keeps hwrite writer h
  unfold finish
  split
  · next hr => rwa [hr] at hcache
  · next between hr =>
    rw [hr] at hcache
    split
    · exact hcache
    · next last _ _ =>
      exact Outlet.flush_keeps hwrite hflush (between.outlet.append last) hcache

theorem send_keeps (calls : List WriterCall) (h : P writer.outlet.sink) :
    P (writer.send calls).2.outlet.sink := by
  induction calls generalizing writer with
  | nil => exact h
  | cons first others ih =>
    refine ih _ ?_
    cases first with
    | write bytes => exact take_keeps hwrite writer bytes h
    | flush => exact flush_keeps hwrite hflush writer h
    | setTrailers trailers => exact h

end BodyWriter
end Writes

end Http1
