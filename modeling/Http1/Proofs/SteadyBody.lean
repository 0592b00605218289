import Http1.Proofs.Drain
import Http1.Proofs.Scan
import Http1.Proofs.Steady

/-! What a body reader gives over a steady source. It is settled by the decoder and the bytes ahead
alone (`BodyReader.future`): every call gives a front part of the future and leaves the rest of it
to the calls that follow, so any draining delivers all of it (`drainBy_steady`). -/

namespace Http1

/-- An item behind which nothing follows. -/
def Item.Stops : Item → Prop
  | .endOfBody | .failed _ => True
  | .needMore | .data _ => False

theorem Item.Stops.kind {item : Item} (h : item.Stops) :
    item = .endOfBody ∨ ∃ failure, item = .failed failure := by
  cases item with
  | needMore => exact h.elim
  | data bytes => exact h.elim
  | endOfBody => exact .inl rfl
  | failed failure => exact .inr ⟨failure, rfl⟩

theorem Item.eq_data {item : Item} (hn : item ≠ .needMore) (hs : ¬ item.Stops) :
    ∃ bytes, item = .data bytes := by
  cases item with
  | needMore => exact absurd rfl hn
  | data bytes => exact ⟨bytes, rfl⟩
  | endOfBody => exact absurd trivial hs
  | failed failure => exact absurd trivial hs

namespace BodyDecoder

/-- A scan behind which the source ends. -/
def closeScan (found : Scan BodyDecoder) : Scan BodyDecoder :=
  match found.last.item with
  | .needMore =>
    ⟨found.data, found.last.decoder.close.1, found.last.decoder.close.2, found.last.rest⟩
  | _ => found

/-- What the decoder makes of all that is ever going to come. -/
def whole (decoder : BodyDecoder) (src : Bytes) : Scan BodyDecoder := closeScan (decoder.scan src)

theorem closeScan_prepend (found : Scan BodyDecoder) (front : Bytes) :
    closeScan (found.prepend front) = (closeScan found).prepend front := by
  unfold closeScan
  rw [Scan.prepend_last]
  split <;> rfl

theorem whole_data {decoder : BodyDecoder} {src bytes : Bytes}
    (h : (decoder.decode src).item = .data bytes) (more : Bytes) :
    decoder.whole (src ++ more)
      = ((decoder.decode src).decoder.whole ((decoder.decode src).rest ++ more)).prepend bytes := by
  rw [whole, scan_append, scan_of_data h, Scan.resume_prepend, ← scan_append, closeScan_prepend]
  rfl

theorem decode_needMore {decoder : BodyDecoder} {src : Bytes}
    (h : (decoder.decode src).item = .needMore) :
    decoder.scan src = ⟨[], decoder.decode src⟩ ∧ (decoder.decode src).rest = [] := by
  have hs : decoder.scan src = ⟨[], decoder.decode src⟩ := by
    apply scan_of_ne_data
    intro bytes hb
    rw [h] at hb
    cases hb
  have hr : (decoder.scan src).last.rest = [] := scan_needMore (by rw [hs]; exact h)
  rw [hs] at hr
  exact ⟨hs, hr⟩

/-- The end of the source changes nothing behind an end of the body. -/
theorem whole_of_scan {decoder : BodyDecoder} {src : Bytes}
    (h : (decoder.scan src).last.item.Stops) : decoder.whole src = decoder.scan src := by
  rw [whole, closeScan]
  rcases h.kind with hi | ⟨failure, hi⟩
  · rw [hi]
  · rw [hi]

/-- A decoder that wants more wants it still when nothing more has come. -/
theorem scan_again {decoder waiting : BodyDecoder} {src data : Bytes}
    (h : decoder.scan src = ⟨data, .needMore, waiting, []⟩) :
    waiting.scan [] = ⟨[], .needMore, waiting, []⟩ := by
  have hagain := scan_append decoder src []
  rw [List.append_nil, h] at hagain
  have hdata : data = data ++ (waiting.scan []).data := congrArg Scan.data hagain
  have hlast : ⟨.needMore, waiting, []⟩ = (waiting.scan []).last := congrArg Scan.last hagain
  have hnil : (waiting.scan []).data = [] := List.self_eq_append_right.1 hdata
  rw [hlast]
  exact congrArg (Scan.mk · (waiting.scan []).last) hnil

theorem decode_again {decoder : BodyDecoder} {src : Bytes}
    (h : (decoder.decode src).item = .needMore) :
    (decoder.decode src).decoder.decode [] = ⟨.needMore, (decoder.decode src).decoder, []⟩ := by
  obtain ⟨hs, hr⟩ := decode_needMore h
  generalize decoder.decode src = found at h hr hs ⊢
  obtain ⟨item, waiting, rest⟩ := found
  subst h hr
  have hagain := scan_again hs
  -- an empty buffer holds no data
  have hdata : ∀ bytes, (waiting.decode []).item ≠ .data bytes := by
    intro bytes hb
    exact Nat.not_lt_zero _ (decode_data_lt hb)
  rw [scan_of_ne_data hdata] at hagain
  exact congrArg Scan.last hagain

theorem whole_needMore {decoder : BodyDecoder} {src : Bytes}
    (h : (decoder.decode src).item = .needMore) (more : Bytes) :
    decoder.whole (src ++ more) = (decoder.decode src).decoder.whole more := by
  rw [whole, scan_append, (decode_needMore h).1, Scan.resume, h]
  rfl

theorem whole_stop {decoder : BodyDecoder} {src : Bytes} (h : (decoder.decode src).item.Stops)
    (more : Bytes) :
    decoder.whole (src ++ more) = ⟨[], (decoder.decode src).item, (decoder.decode src).decoder,
      (decoder.decode src).rest ++ more⟩ := by
  have hdata : ∀ bytes, (decoder.decode src).item ≠ .data bytes := by
    intro bytes hb
    rw [hb] at h
    exact h
  rw [whole, scan_append, scan_of_ne_data hdata, Scan.resume]
  rcases h.kind with hi | ⟨failure, hi⟩
  · simp only [hi, closeScan]
  · simp only [hi, closeScan]

/-- At the end of the source, a decoder that wants more is closed. -/
theorem whole_end {decoder : BodyDecoder} {src : Bytes}
    (h : (decoder.decode src).item = .needMore) :
    (decoder.decode src).decoder.whole [] = ⟨[], (decoder.decode src).decoder.decodeEof []⟩ := by
  rw [whole, scan_decode, decodeEof, decode_again h]
  rfl

theorem decodeEof_again {decoder : BodyDecoder} {src : Bytes}
    (h : (decoder.decode src).item = .needMore) :
    ((decoder.decode src).decoder.decodeEof []).item.Stops
      ∧ ((decoder.decode src).decoder.decodeEof []).rest = [] := by
  rw [decodeEof, decode_again h]
  refine ⟨?_, rfl⟩
  cases (decoder.decode src).decoder with
  | length received left => trivial
  | chunked limits phase => trivial
  | untilClose ended => trivial

end BodyDecoder

namespace BodyReader

/-- All that a reader is going to give, and what it leaves behind then. -/
def future (reader : BodyReader) : Scan BodyDecoder :=
  (if reader.ended then ⟨[], .endOfBody, reader.decoder, reader.inlet.ahead⟩
    else reader.decoder.whole reader.inlet.ahead).prepend reader.pending

/-- What asking for the next piece comes to. -/
inductive Yields (future : Scan BodyDecoder) :
    Except (Failure ParseError) (Option Bytes) × BodyReader → Prop
  | data {bytes : Bytes} {next : BodyReader} (hne : bytes ≠ []) (hs : next.inlet.Steady)
      (hp : next.pending = []) (hf : future = next.future.prepend bytes) :
      Yields future (.ok (some bytes), next)
  | ended {next : BodyReader} (hs : next.inlet.Steady)
      (hf : future = ⟨[], .endOfBody, next.decoder, next.inlet.ahead⟩) :
      Yields future (.ok none, next)
  | failed {failure : Failure ParseError} {next : BodyReader} (hs : next.inlet.Steady)
      (hf : future = ⟨[], .failed failure, next.decoder, next.inlet.ahead⟩) :
      Yields future (.error failure, next)

theorem future_fresh {reader : BodyReader} (he : reader.ended = false) (hp : reader.pending = []) :
    reader.future = reader.decoder.whole reader.inlet.ahead := by
  rw [future, he, hp]
  rfl

theorem outcome_stop {reader : BodyReader} {found : Decoded BodyDecoder}
    {future : Scan BodyDecoder} (hs : reader.inlet.Steady) (hi : found.item.Stops)
    (hf : future = ⟨[], found.item, found.decoder,
      found.rest ++ reader.inlet.source.undelivered⟩) :
    Yields future ((reader.after found).outcome found.item) := by
  have hsteady : (reader.after found).inlet.Steady := ⟨hs.readSize_pos, hs.source⟩
  rcases hi.kind with hi | ⟨failure, hi⟩
  · rw [hi] at hf ⊢
    exact .ended hsteady hf
  · rw [hi] at hf ⊢
    exact .failed hsteady hf

/-- An item that the buffer completes. -/
theorem decode_yields {reader : BodyReader} (hs : reader.inlet.Steady) (he : reader.ended = false)
    (hp : reader.pending = [])
    (hn : (reader.decoder.decode reader.inlet.buffered).item ≠ .needMore) :
    Yields reader.future
      ((reader.after (reader.decoder.decode reader.inlet.buffered)).outcome
        (reader.decoder.decode reader.inlet.buffered).item) := by
  have hfuture := future_fresh he hp
  rw [Inlet.ahead] at hfuture
  by_cases hstop : (reader.decoder.decode reader.inlet.buffered).item.Stops
  · exact outcome_stop hs hstop (by rw [hfuture, BodyDecoder.whole_stop hstop])
  · obtain ⟨bytes, hi⟩ := Item.eq_data hn hstop
    have hne : bytes ≠ [] := by
      intro hb
      exact (reader.decoder.decode_takes reader.inlet.buffered).1 (by rw [hi, hb])
    rw [hfuture, BodyDecoder.whole_data hi, hi]
    refine .data hne ⟨hs.readSize_pos, hs.source⟩ hp ?_
    rw [future_fresh (by exact he) (by exact hp)]
    rfl

/-- Reading on leaves the future as it is. -/
theorem future_fill {reader : BodyReader} {inlet : Inlet} (he : reader.ended = false)
    (hp : reader.pending = [])
    (hn : (reader.decoder.decode reader.inlet.buffered).item = .needMore)
    (ha : inlet.ahead
      = (reader.after (reader.decoder.decode reader.inlet.buffered)).inlet.ahead) :
    reader.future
      = (reader.decoder.decode reader.inlet.buffered).decoder.whole inlet.ahead := by
  have hrest := (BodyDecoder.decode_needMore hn).2
  rw [future_fresh he hp, Inlet.ahead, BodyDecoder.whole_needMore hn, ha, after, Inlet.ahead,
    hrest, List.nil_append]

theorem advance_yields {reader : BodyReader} (hs : reader.inlet.Steady) (hp : reader.pending = []) :
    Yields reader.future reader.advance := by
  fun_induction advance reader with
  | case1 reader he =>
    refine .ended hs ?_
    rw [future, he, hp]
    rfl
  | case2 reader he found reader' hi error inlet hf =>
    have hsteady : reader'.inlet.Steady := ⟨hs.readSize_pos, hs.source⟩
    obtain ⟨n, hn, -⟩ := Inlet.fill_steady hsteady hf
    cases hn
  | case3 reader he found reader' hi inlet hf last =>
    have hsteady : reader'.inlet.Steady := ⟨hs.readSize_pos, hs.source⟩
    obtain ⟨n, hn, hnext, ha, hend⟩ := Inlet.fill_steady hsteady hf
    cases hn
    obtain ⟨hu, hb⟩ := hend rfl
    have hempty : inlet.buffered = [] := hb.trans (BodyDecoder.decode_needMore hi).2
    have hfuture := future_fill (by simpa using he) hp hi ha
    rw [Inlet.ahead, hempty, hu, List.append_nil, BodyDecoder.whole_end hi] at hfuture
    have hclosed : last = found.decoder.decodeEof [] :=
      congrArg found.decoder.decodeEof hempty
    obtain ⟨hstop, hnil⟩ := BodyDecoder.decodeEof_again hi
    rw [← hclosed] at hfuture hstop hnil
    refine outcome_stop hnext hstop ?_
    rw [hfuture, hu, List.append_nil]
  | case4 reader he found reader' hi n inlet hf ih =>
    have hsteady : reader'.inlet.Steady := ⟨hs.readSize_pos, hs.source⟩
    obtain ⟨n', -, hnext, ha, -⟩ := Inlet.fill_steady hsteady hf
    have hfuture := future_fill (by simpa using he) hp hi ha
    have hfresh : ({ reader' with inlet } : BodyReader).ended = false := by
      have hsame : reader'.ended = reader.ended := rfl
      simpa [hsame] using he
    rw [hfuture]
    rw [future_fresh hfresh hp] at ih
    exact ih hnext hp
  | case5 reader he found reader' hi =>
    exact decode_yields hs (by simpa using he) hp hi

theorem nextChunk_yields {reader : BodyReader} (hs : reader.inlet.Steady) :
    Yields reader.future reader.nextChunk := by
  unfold nextChunk
  split
  · next hp => exact advance_yields hs (by simpa using hp)
  · next hp =>
    refine .data (by simpa using hp) hs rfl ?_
    rw [future, future]
    rfl

/-- Handing out a front part of what is pending leaves the back part. -/
theorem future_give (reader : BodyReader) (size : Nat) :
    reader.future = (reader.give size).2.future.prepend (reader.give size).1 := by
  rw [future, future, Scan.prepend_prepend, give, List.take_append_drop]

theorem skipFrom_steady (skipped : Nat) {reader : BodyReader} (hs : reader.inlet.Steady) :
    ∃ answer next, reader.skipFrom skipped = (answer, next) ∧ next.inlet.Steady
      ∧ next.decoder = reader.future.last.decoder ∧ next.inlet.ahead = reader.future.last.rest
      ∧ ((answer = .ok (skipped + reader.future.data.length)
          ∧ reader.future.last.item = .endOfBody)
        ∨ ∃ failure, answer = .error failure ∧ reader.future.last.item = .failed failure) := by
  have hy := nextChunk_yields hs
  fun_induction skipFrom skipped reader with
  | case1 skipped reader failure next hn =>
    rw [hn] at hy
    cases hy with
    | failed hsteady hf =>
      rw [hf]
      exact ⟨.error failure, next, rfl, hsteady, rfl, rfl, .inr ⟨failure, rfl, rfl⟩⟩
  | case2 skipped reader next hn =>
    rw [hn] at hy
    cases hy with
    | ended hsteady hf =>
      rw [hf]
      exact ⟨.ok skipped, next, rfl, hsteady, rfl, rfl, .inl ⟨rfl, rfl⟩⟩
  | case3 skipped reader bytes next hn ih =>
    rw [hn] at hy
    cases hy with
    | data hne hsteady _ hf =>
      have hrest := ih hsteady (nextChunk_yields hsteady)
      rw [hf, Scan.prepend_data, Scan.prepend_last, List.length_append, ← Nat.add_assoc]
      exact hrest

/-- What a call comes to: data in front of the future that is left, or all that was left. -/
inductive Gives (future : Scan BodyDecoder) : Reply × BodyReader → Prop
  | data {bytes : Bytes} {next : BodyReader} (hne : bytes ≠ []) (hs : next.inlet.Steady)
      (hf : future = next.future.prepend bytes) : Gives future (.data bytes, next)
  | last {reply : Reply} {next : BodyReader} (hs : next.inlet.Steady)
      (hd : Delivers future.last.item [reply] future.data)
      (hn : next.decoder = future.last.decoder) (ha : next.inlet.ahead = future.last.rest)
      (hlast : ∀ bytes, reply ≠ .data bytes) :
      Gives future (reply, next)

/-- A read of something gives a front part of the next piece. -/
theorem read_gives {reader : BodyReader} {size : Nat} (hs : reader.inlet.Steady) (hw : 0 < size) :
    Gives reader.future (reader.call (.read size)) := by
  have hgive {reader : BodyReader} (hs : reader.inlet.Steady) (hp : reader.pending ≠ []) :
      Gives reader.future (if (reader.give size).1 = [] ∧ 0 < size then .ended
        else .data (reader.give size).1, (reader.give size).2) := by
    have hne := (reader.give_some hw hp).1
    rw [if_neg fun hc => hne hc.1]
    exact .data hne hs (reader.future_give size)
  by_cases hp : reader.pending = []
  · have hy := advance_yields hs hp
    have hpiece : ¬ ¬ reader.pending.isEmpty := by simpa using hp
    rw [call, read, if_neg (Nat.ne_of_gt hw), if_neg hpiece]
    generalize reader.advance = found at hy
    generalize reader.future = future at hy
    cases hy with
    | @data bytes next hne hsteady hnil hf =>
      have hpiece : future = ({ next with pending := bytes } : BodyReader).future := by
        rw [hf, BodyReader.future, BodyReader.future, hnil, Scan.prepend_nil]
      rw [hpiece]
      exact hgive hsteady hne
    | ended hsteady hf =>
      subst hf
      simp only [hw, and_self, if_true]
      exact .last hsteady .ended rfl rfl fun _ h => by cases h
    | @failed failure next hsteady hf =>
      subst hf
      exact .last hsteady (.readFailed failure) rfl rfl fun _ h => by cases h
  · have hpiece : ¬ reader.pending.isEmpty := by simpa using hp
    rw [call, read, if_neg (Nat.ne_of_gt hw), if_pos hpiece]
    exact hgive hs hp

theorem call_gives {reader : BodyReader} {bodyCall : BodyCall} (hs : reader.inlet.Steady)
    (hw : bodyCall.Wants) : Gives reader.future (reader.call bodyCall) := by
  cases bodyCall with
  | nextChunk =>
    have hy := nextChunk_yields hs
    rw [call]
    split
    · next failure next hn =>
      rw [hn] at hy
      cases hy with
      | failed hsteady hf =>
        rw [hf]
        exact .last hsteady (.failed failure) rfl rfl fun _ h => by cases h
    · next next hn =>
      rw [hn] at hy
      cases hy with
      | ended hsteady hf =>
        rw [hf]
        exact .last hsteady .ended rfl rfl fun _ h => by cases h
    · next bytes next hn =>
      rw [hn] at hy
      cases hy with
      | data hne hsteady _ hf => exact .data hne hsteady hf
  | read size => exact read_gives hs hw
  | skip =>
    obtain ⟨answer, next, hskip, hsteady, hn, ha, hanswer⟩ := skipFrom_steady 0 hs
    rw [Nat.zero_add] at hanswer
    rw [call, skipBody, hskip]
    rcases hanswer with ⟨rfl, hi⟩ | ⟨failure, rfl, hi⟩
    · refine .last hsteady ?_ hn ha fun _ h => by cases h
      rw [hi]
      exact .skipped _
    · refine .last hsteady ?_ hn ha fun _ h => by cases h
      rw [hi]
      exact .skipFailed failure _

/-- Over a steady source, draining a body by any plan delivers all of its data, ends as its decoding
ends, and leaves what follows the body. -/
theorem drainBy_steady (plan : DrainPlan) (turn : Nat) {reader : BodyReader}
    (hs : reader.inlet.Steady) :
    ∃ replies next, reader.drainBy plan turn = (replies, next)
      ∧ Delivers reader.future.last.item replies reader.future.data ∧ next.inlet.Steady
      ∧ next.decoder = reader.future.last.decoder ∧ next.inlet.ahead = reader.future.last.rest := by
  have hg := call_gives hs (plan.wants turn)
  fun_induction drainBy plan turn reader with
  | case1 turn reader bytes next hc replies last hlast ih =>
    rw [hc] at hg
    cases hg with
    | data hne hsteady hf =>
      obtain ⟨replies', last', hd, hdelivers, hrest⟩ :=
        ih hsteady (call_gives hsteady (plan.wants _))
      rw [hlast] at hd
      cases hd
      rw [hf]
      exact ⟨_, last, rfl, .data hne hdelivers, hrest⟩
    | last hsteady hd hn ha hno => exact absurd rfl (hno bytes)
  | case2 turn reader reply next hno hc =>
    rw [hc] at hg
    cases hg with
    | data hne hsteady hf => exact absurd rfl (hno _)
    | last hsteady hd hn ha _ => exact ⟨[reply], next, rfl, hd, hsteady, hn, ha⟩

/-- Draining a fresh reader delivers what its decoder makes of all that is ahead. -/
theorem drainBy_start (plan : DrainPlan) {decoder : BodyDecoder} {inlet : Inlet}
    {found : Scan BodyDecoder} (hs : inlet.Steady) (hw : decoder.whole inlet.ahead = found) :
    ∃ replies next, (start decoder inlet).drainBy plan 0 = (replies, next)
      ∧ Delivers found.last.item replies found.data ∧ next.inlet.Steady
      ∧ next.decoder = found.last.decoder ∧ next.inlet.ahead = found.last.rest := by
  have hstart : (start decoder inlet).inlet.Steady := hs
  have hfuture : (start decoder inlet).future = found := (future_fresh rfl rfl).trans hw
  rw [← hfuture]
  exact drainBy_steady plan 0 hstart

end BodyReader
end Http1
