import Http1.Proofs.TrailerBounds

/-! For how many trailer fields a decoder has a map made. When there is no room for so many, the
decoder overruns (`Phase.handed_decode`). A section has no more fields than lines, so a limit on the
number of lines bounds them, and so does a limit on the length of lines that lets no size line pass.
Under any other settings a peer can send as many fields as it likes (`handed_le_iff`), also too many
for a map. -/

namespace Http1

namespace Chunked

/-- The number of fields that a map is made for, unless the section is empty or has no fields to be
read. -/
def Section.fieldCount? (collected : Section) : Option Nat :=
  if collected.text.isEmpty then none
  else match Trailers.parseLines [] collected.lines collected.text.toList with
    | .error _ => none
    | .ok pairs => some pairs.length

def Step.after : Step → Phase
  | .moved phase | .delivered phase | .refused phase _ => phase

namespace Phase

/-- The number of fields that a map is made for at this byte. -/
def handed? (b : UInt8) : Phase → Option Nat
  | endLf collected => if b = Byte.lf then collected.fieldCount? else none
  | _ => none

/-- The numbers of fields that maps are made for on the way through these bytes. A refused byte is
used up, and the way goes on behind it. -/
def handed (limits : Limits) (phase : Phase) : Bytes → List Nat
  | [] => []
  | b :: rest => (phase.handed? b).toList ++ handed limits (phase.step limits b).after rest

end Phase
end Chunked

/-- Only chunked bodies have trailers. -/
def BodyDecoder.handed (decoder : BodyDecoder) (src : Bytes) : List Nat :=
  match decoder with
  | chunked limits phase => phase.handed limits src
  | length _ _ | untilClose _ => []

theorem Trailers.parseLines_length {done pairs : List (Bytes × Bytes)} {room : Nat} {text : Bytes}
    (h : parseLines done room text = .ok pairs) : pairs.length ≤ done.length + room := by
  fun_induction parseLines done room text with
  | case1 => cases h; simp
  | case2 => cases h
  | case3 => cases h
  | case4 done text hend line rest room hline ih =>
    have hle := ih h
    rw [List.length_cons] at hle
    omega

namespace Chunked

open Byte

namespace Section

variable {collected : Section} {n : Nat}

theorem fieldCount?_le (h : collected.fieldCount? = some n) : n ≤ collected.lines := by
  unfold fieldCount? at h
  split at h
  · cases h
  · split at h
    · cases h
    · next pairs hpairs =>
      cases h
      simpa using Trailers.parseLines_length hpairs

/-- A section overruns when a map would be made for more fields than any has room for. -/
theorem trailers_overrun_iff :
    collected.trailers = .error .overrun
      ↔ ∃ n, collected.fieldCount? = some n ∧ ¬ Headers.hasRoom n := by
  unfold trailers fieldCount? Trailers.parse
  by_cases hempty : collected.text.isEmpty
  · simp [hempty]
  simp only [hempty, Bool.false_eq_true, if_false]
  cases hpairs : Trailers.parseLines [] collected.lines collected.text.toList with
  | error fault => simp [Except.map]
  | ok pairs =>
    by_cases hroom : Headers.hasRoom pairs.length
    · cases hof : Headers.ofPairs pairs <;> simp [hroom, Except.mapError, Except.map, hof]
    · simp [hroom, Except.map]

/-- A section of field lines has its map made for all of them. -/
theorem fieldCount?_ofLines {lines : FieldLines} (h : lines ≠ []) :
    (Section.ofLines lines).fieldCount? = some lines.length := by
  have hcollected := isEmpty_collected (lines.map FieldLine.raw)
  rw [collected_raw, decide_eq_false (by simpa using h)] at hcollected
  rw [fieldCount?, hcollected]
  simp only [ofLines, lines.parseLines_wire, List.length_map, Bool.false_eq_true, if_false]

end Section

namespace Phase

variable {limits : Limits} {count length n : Nat} {phase next last : Phase} {b : UInt8}
  {marked : Marked} {src : Bytes}

/-- What holds before every byte on a way holds where a map is made. -/
theorem handed_of_kept (Kept : Phase → Prop) (Good : Nat → Prop)
    (hstep : ∀ phase b, Kept phase → Kept (phase.step limits b).after)
    (hgood : ∀ phase b n, Kept phase → phase.handed? b = some n → Good n)
    (h : Kept phase) : ∀ n ∈ phase.handed limits src, Good n := by
  induction src generalizing phase with
  | nil => exact fun n hn => absurd hn List.not_mem_nil
  | cons b rest ih =>
    intro n hn
    rcases List.mem_append.1 hn with hn | hn
    · exact hgood phase b n h (by simpa using hn)
    · exact ih (hstep phase b h) n hn

theorem handed?_eq (h : phase.handed? b = some n) :
    ∃ collected, phase = .endLf collected ∧ b = lf ∧ collected.fieldCount? = some n := by
  cases phase with
  | endLf collected =>
    rw [handed?] at h
    split at h
    · next hb => exact ⟨collected, rfl, hb, h⟩
    · cases h
  | _ => cases h

theorem handed_data {left after : Nat} {bytes : Bytes} (h : after + bytes.length = left)
    (more : Bytes) :
    (data left).handed limits (bytes ++ more) = (data after).handed limits more := by
  induction bytes generalizing left with
  | nil => subst h; rfl
  | cons b bytes ih => subst h; exact ih rfl

/-- Only at the last LF of a section is there an overrun. -/
theorem step_overrun_iff :
    (∃ here, phase.step limits b = .refused here .overrun)
      ↔ ∃ n, phase.handed? b = some n ∧ ¬ Headers.hasRoom n := by
  cases phase with
  | endLf collected =>
    by_cases hb : b = lf
    · rw [handed?, if_pos hb, ← Section.trailers_overrun_iff, step, if_pos hb, stepEndLf]
      cases collected.trailers with
      | ok trailers => simp
      | error failure => cases failure <;> simp [Failure.map]
    · simp [handed?, step, hb]
  | size value line =>
    simp only [step, stepSize, handed?]
    grind
  | sizeBlank value line => grind [step, stepSizeBlank, handed?]
  | extension value line => grind [step, stepExtension, handed?]
  | data left => cases left <;> grind [step, handed?]
  | trailerLf collected => grind [step, stepTrailerLf, handed?]
  | _ => grind [step, handed?]

theorem handed_room (h : ∀ here, phase.step limits b ≠ .refused here .overrun) :
    ∀ n ∈ phase.handed? b, Headers.hasRoom n := by
  intro n hn
  by_contra hno
  obtain ⟨here, hs⟩ : ∃ here, phase.step limits b = .refused here .overrun :=
    step_overrun_iff.2 ⟨n, hn, hno⟩
  exact h here hs

/-- A byte with a map that has room, or with none, hands nothing too large over. -/
theorem overruns_cons (h : ∀ here, phase.step limits b ≠ .refused here .overrun) (rest : Bytes) :
    (∃ n ∈ phase.handed limits (b :: rest), ¬ Headers.hasRoom n)
      ↔ ∃ n ∈ (phase.step limits b).after.handed limits rest, ¬ Headers.hasRoom n := by
  constructor
  · rintro ⟨n, hn, hno⟩
    rcases List.mem_append.1 hn with hn | hn
    · exact absurd (handed_room h n (by simpa using hn)) hno
    · exact ⟨n, hn, hno⟩
  · rintro ⟨n, hn, hno⟩
    exact ⟨n, List.mem_append_right _ hn, hno⟩

/-- What is found behind a byte that has room is found from that byte on. -/
theorem handed_cons {rest : Bytes} {found : Decoded Phase}
    (hs : (phase.step limits b).after = next)
    (hroom : ∀ here, phase.step limits b ≠ .refused here .overrun)
    (h : ∃ used, rest = used ++ found.rest
      ∧ next.handed limits rest = next.handed limits used
        ++ found.decoder.handed limits found.rest
      ∧ (found.item = .failed .overrun ↔ ∃ n ∈ next.handed limits used, ¬ Headers.hasRoom n)) :
    ∃ used, b :: rest = used ++ found.rest
      ∧ phase.handed limits (b :: rest) = phase.handed limits used
        ++ found.decoder.handed limits found.rest
      ∧ (found.item = .failed .overrun
        ↔ ∃ n ∈ phase.handed limits used, ¬ Headers.hasRoom n) := by
  obtain ⟨used, hsrc, hhanded, hoverrun⟩ := h
  refine ⟨b :: used, congrArg (b :: ·) hsrc, ?_, ?_⟩
  · simp only [handed, hs, hhanded, List.append_assoc]
  · rw [overruns_cons hroom, hs, hoverrun]

/-- What maps are made for is decided call by call: those of one call, and then those of the calls
on what it leaves. The call overruns when one of its own is a map that there is no room for. -/
theorem handed_decode (limits : Limits) (phase : Phase) (src : Bytes) :
    ∃ used, src = used ++ (phase.decode limits src).rest
      ∧ phase.handed limits src = phase.handed limits used
        ++ (phase.decode limits src).decoder.handed limits (phase.decode limits src).rest
      ∧ ((phase.decode limits src).item = .failed .overrun
        ↔ ∃ n ∈ phase.handed limits used, ¬ Headers.hasRoom n) := by
  fun_induction decode limits phase src with
  | case1 phase =>
    refine ⟨[], rfl, rfl, fun hi => ?_, by simp [handed]⟩
    split at hi <;> cases hi
  | case2 b rest trailers => exact ⟨[], rfl, rfl, by simp [handed]⟩
  | case3 b rest left taken =>
    have hleft : left + 1 - taken.length + taken.length = left + 1 :=
      Nat.sub_add_cancel (List.length_take_le _ _)
    have hsrc : taken ++ (b :: rest).drop (left + 1) = b :: rest := List.take_append_drop _ _
    have htaken : (data (left + 1)).handed limits taken = [] := by
      rw [← List.append_nil taken, handed_data hleft, handed]
    have hall : (data (left + 1)).handed limits (b :: rest)
        = (data (left + 1 - taken.length)).handed limits ((b :: rest).drop (left + 1)) := by
      rw [← hsrc, handed_data hleft, hsrc]
    refine ⟨taken, hsrc.symm, by rw [htaken, hall]; rfl, ?_⟩
    simp [htaken]
  | case4 b rest phase hd hn next hs ih => exact handed_cons (by rw [hs]; rfl) (by simp [hs]) ih
  | case5 b rest phase hd hn next hs ih => exact handed_cons (by rw [hs]; rfl) (by simp [hs]) ih
  | case6 b rest phase hd hn here failure hs =>
    refine ⟨[b], rfl, ?_, ?_⟩
    · simp only [handed, hs, Step.after, List.append_nil]
    · have hstep := @step_overrun_iff limits phase b
      simpa [handed, hs, Step.after] using hstep

/-! ### Limits that bound the number of fields -/

/-- Lines too many are never gone beyond. -/
def Within (count : Nat) (phase : Phase) : Prop :=
  phase.collected.lines ≤ count ∨ ∃ collected, phase = .trailerLf collected

theorem step_within (hc : limits.fieldCount = some count) (h : phase.Within count) (b : UInt8) :
    (phase.step limits b).after.Within count := by
  cases hd : phase.isDone with
  | true =>
    cases phase with
    | done trailers => exact .inl (Nat.zero_le _)
    | _ => cases hd
  | false =>
  cases hs : phase.step limits b with
  | moved next =>
    rw [Step.after]
    cases step_gathers hd hs with
    | before hp hn => rw [Within, collected_before hn]; exact .inl (Nat.zero_le _)
    | entered hp => exact .inl (Nat.zero_le _)
    | begun collected hl => exact h.imp_right fun ⟨_, he⟩ => by cases he
    | more collected line hl => exact h.imp_right fun ⟨_, he⟩ => by cases he
    | lineCr collected line => exact .inr ⟨collected, rfl⟩
    | counted collected hcount => exact .inl (hcount count hc)
    | lastCr collected => exact h.imp_right fun ⟨_, he⟩ => by cases he
    | ended collected => exact .inl (Nat.zero_le _)
  | delivered next =>
    obtain ⟨left, -, rfl⟩ := step_delivered hs
    exact .inl (Nat.zero_le _)
  | refused here error =>
    rw [Step.after]
    cases step_stays hs with
    | before hp hh => rw [Within, collected_before hh]; exact .inl (Nat.zero_le _)
    | trailer collected line after => exact h.imp_right fun ⟨_, he⟩ => by cases he
    | tooMany collected => exact .inr ⟨_, rfl⟩
    | _ => exact h

/-- Under a limit on the length of lines that a digit and its CR do not keep, the size line goes no
further than its first digit. -/
def Barred : Phase → Prop
  | size value line => value.isSome → 1 ≤ line
  | _ => False

theorem step_barred (hl : limits.lineLength = some length) (hlt : length < 2)
    (h : phase.Barred) (b : UInt8) : (phase.step limits b).after.Barred := by
  cases phase with
  | size value line =>
    simp only [step]
    split
    · exact fun _ => Nat.le_add_left 1 line
    · next hfault =>
      have hline : line + 1 ≤ length := by
        by_contra hgt
        rw [Limits.lineFault?, hl] at hfault
        simp [hgt] at hfault
      have hnone : value = none := by
        cases value with
        | none => rfl
        | some value =>
          have : 1 ≤ line := h rfl
          omega
      subst hnone
      simp only [stepSize]
      split
      · split
        · exact fun _ => Nat.le_add_left 1 line
        · exact fun hv => by cases hv
      · split
        · exact fun hv => by cases hv
        · exact fun hv => by cases hv
      · next hv => cases hv
  | _ => exact h.elim

/-! ### Texts with as many fields as one likes -/

theorem passes_counted {length : Option Nat} (hp : Passes ⟨length, none⟩ phase marked last)
    (hd : last.isDone = false) (hl : last.collected.lines ≤ count) :
    Passes ⟨length, some count⟩ phase marked last := by
  induction hp with
  | here => exact .here _
  | @moved phase between last b marked hd' hs hp ih =>
    refine .moved hd' ?_ (ih hd hl)
    rw [step_counted, hs]
    intro next hnext
    rw [hs] at hnext
    cases hnext
    exact Nat.le_trans (passes_lines hp hd) hl
  | delivered hd' hs hp ih =>
    obtain ⟨left, rfl, rfl⟩ := step_delivered hs
    exact .delivered rfl rfl (ih hd hl)

theorem handed_append (hp : Passes limits phase marked last) (more : Bytes) :
    ∃ front, phase.handed limits (marked.bytes ++ more) = front ++ last.handed limits more := by
  induction hp with
  | here => exact ⟨[], rfl⟩
  | @moved phase between last b marked hd hs _ ih =>
    obtain ⟨front, hfront⟩ := ih
    refine ⟨(phase.handed? b).toList ++ front, ?_⟩
    rw [Marked.bytes_cons, List.cons_append, handed, hs, Step.after, hfront, List.append_assoc]
  | @delivered phase between last b marked hd hs _ ih =>
    obtain ⟨front, hfront⟩ := ih
    refine ⟨(phase.handed? b).toList ++ front, ?_⟩
    rw [Marked.bytes_cons, List.cons_append, handed, hs, Step.after, hfront, List.append_assoc]

/-- A map is made for the fields of a section at its last LF. -/
theorem mem_handed {collected : Section} (hp : Passes limits phase marked (.endLf collected))
    (hn : collected.fieldCount? = some n) (more : Bytes) :
    n ∈ phase.handed limits (marked.bytes ++ lf :: more) := by
  obtain ⟨front, hfront⟩ := handed_append hp (lf :: more)
  rw [hfront, handed, handed?, if_pos rfl, hn]
  simp

end Phase

open Phase

/-- What keeps to the limits passes. -/
theorem RawLines.passes_limits {limits : Limits} (part : ChunkPart) (lines : RawLines)
    (hl : ∀ max ∈ limits.lineLength, LinesFit max part lines)
    (hc : ∀ count ∈ limits.fieldCount, lines.length ≤ count) :
    Passes limits .start (part.marked ++ .framing lines.wire) (.endCr (.collected lines)) := by
  obtain ⟨length, fieldCount⟩ := limits
  have hpath : Passes ⟨length, none⟩ .start (part.marked ++ .framing lines.wire)
      (.endCr (.collected lines)) := by
    cases length with
    | none => exact part.passes.trans (lines.passes [])
    | some max => exact (lines.meets_part part max).passes (hl max rfl)
  cases fieldCount with
  | none => exact hpath
  | some count => exact passes_counted hpath rfl (hc count rfl)

/-- Without a limit that stops it, a crowded section has its map made. -/
theorem WholeBody.mem_handed_crowded {limits : Limits} {n : Nat} (hn : n ≠ 0)
    (hl : ∀ max ∈ limits.lineLength, 2 ≤ max) (hc : ∀ count ∈ limits.fieldCount, n ≤ count) :
    n ∈ Phase.start.handed limits (crowded n).wire := by
  have hne : (crowded n).lines ≠ [] := by simpa [crowded] using hn
  have hfit : ∀ max ∈ limits.lineLength,
      LinesFit max (crowded n).part ((crowded n).lines.map FieldLine.raw) := by
    intro max hmax
    have hmax := hl max hmax
    refine ⟨fun line hline => ?_, fun line hline => ?_⟩
    · rw [List.mem_singleton.1 hline]
      exact hmax
    · obtain ⟨field, hfield, rfl⟩ := List.mem_map.1 hline
      rw [List.eq_of_mem_replicate hfield]
      exact hmax
  have hcount : ∀ count ∈ limits.fieldCount,
      ((crowded n).lines.map FieldLine.raw).length ≤ count := by
    simpa [crowded] using hc
  have hpath := RawLines.passes_limits _ _ hfit hcount
  rw [Section.collected_raw] at hpath
  have hlast : Passes limits .start
      ((crowded n).part.marked ++ .framing (RawLines.wire ((crowded n).lines.map FieldLine.raw))
        ++ .framing [cr]) (.endLf (.ofLines (crowded n).lines)) :=
    hpath.trans (.move rfl rfl)
  have hmem := mem_handed hlast (Section.fieldCount?_ofLines hne) []
  have hbytes : (crowded n).wire = (crowded n).part.wire
      ++ RawLines.wire ((crowded n).lines.map FieldLine.raw) ++ [cr] ++ [lf] := by
    rw [RawLines.wire, List.flatMap_map, List.append_assoc _ [cr]]
    rfl
  rw [Marked.bytes_append, Marked.bytes_append, ChunkPart.bytes_marked, Marked.bytes_framing,
    Marked.bytes_framing, ← hbytes] at hmem
  simpa [crowded] using hmem

end Chunked

namespace BodyDecoder

open Byte Chunked Chunked.Phase

/-- No map is ever made for more than `max` fields, whatever comes in and whatever is refused on the
way, exactly when the settings bound the number of trailer lines by that, or have lines so short
that no size line passes. -/
theorem handed_le_iff (config : Config) (max : Nat) :
    (∀ framing src, ∀ n ∈ (ofConfig config framing).handed src, n ≤ max)
      ↔ (∃ count ≤ max, config.maxHeaderCount = some count)
        ∨ ∃ length < 2, config.maxLineLength = some length := by
  constructor
  · intro h
    by_contra hno
    rw [not_or] at hno
    have hmem : max + 1 ∈ Phase.start.handed ⟨config.maxLineLength, config.maxHeaderCount⟩
        (WholeBody.crowded (max + 1)).wire := by
      refine WholeBody.mem_handed_crowded (Nat.succ_ne_zero max) ?_ ?_
      · intro length hlength
        by_contra hlt
        exact hno.2 ⟨length, Nat.lt_of_not_le hlt, hlength⟩
      · intro count hcount
        by_contra hgt
        exact hno.1 ⟨count, Nat.le_of_lt_succ (Nat.lt_of_not_le hgt), hcount⟩
    exact Nat.not_succ_le_self max (h .chunked (WholeBody.crowded (max + 1)).wire (max + 1) hmem)
  · intro hlimited framing src
    cases framing with
    | length size => exact fun n hn => absurd hn List.not_mem_nil
    | untilClose => exact fun n hn => absurd hn List.not_mem_nil
    | chunked =>
      rcases hlimited with ⟨count, hle, hcount⟩ | ⟨length, hlt, hlength⟩
      · refine handed_of_kept (Within count) (· ≤ max)
          (fun phase b h => step_within hcount h b) ?_ (.inl (Nat.zero_le _))
        rintro phase b n (hlines | ⟨collected, rfl⟩) hn
        · obtain ⟨collected, rfl, -, hn⟩ := handed?_eq hn
          exact (Section.fieldCount?_le hn).trans (hlines.trans hle)
        · cases hn
      · refine handed_of_kept Barred (· ≤ max)
          (fun phase b h => step_barred hlength hlt h b) ?_ (fun h => by cases h)
        intro phase b n hbarred hn
        obtain ⟨collected, rfl, -, -⟩ := handed?_eq hn
        exact hbarred.elim

namespace Crowded

theorem drain_crowded {n : Nat} (hn : 24576 < n) :
    ((ofConfig .default .chunked).drain (WholeBody.crowded n).wire).2.item = .failed .overrun := by
  have hno : ¬ (WholeBody.crowded n).HasRoom := fun hroom =>
    Nat.not_le_of_lt hn ((WholeBody.crowded_hasRoom n).1 hroom)
  have hdecoder : ofConfig .default .chunked = start .none .chunked := rfl
  have hscan := WholeBody.scan_overrun hno []
  rw [List.append_nil] at hscan
  rw [(drain_eq_scan _ _).2, hdecoder, hscan]

/-- The default settings limit neither the number of lines nor their length, so a section of 24577
lines has a map made that there is no room for, and the decoder overruns. -/
theorem handed_past_room :
    24577 ∈ (ofConfig .default .chunked).handed
        ([48, cr, lf] ++ (List.replicate 24577 [97, colon, cr, lf]).flatten ++ [cr, lf])
      ∧ ¬ Headers.hasRoom 24577
      ∧ ((ofConfig .default .chunked).drain
        ([48, cr, lf] ++ (List.replicate 24577 [97, colon, cr, lf]).flatten ++ [cr, lf])).2.item
          = .failed .overrun
      ∧ ¬ ∀ config framing src, ∀ n ∈ (ofConfig config framing).handed src, n ≤ 24576 := by
  have hmem : 24577 ∈ (ofConfig .default .chunked).handed (WholeBody.crowded 24577).wire :=
    WholeBody.mem_handed_crowded (by decide) nofun nofun
  have hn : 24576 < 24577 := by decide
  have hdrain := drain_crowded hn
  rw [WholeBody.crowded_wire] at hmem hdrain
  refine ⟨hmem, ?_, hdrain, fun hall => ?_⟩
  · rw [Headers.hasRoom_iff]
    decide
  · exact absurd (hall .default .chunked _ 24577 hmem) (by decide)

end Crowded

end BodyDecoder
end Http1
