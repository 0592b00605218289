import Http1.Inlet.Search
import Http1.Proofs.Uptake
import Http1.Proofs.Retrying

/-! Reading a message head, told by all the bytes that are ahead and not by the reads that bring
them. The search may go on three bytes in front of where it stopped (`searchHead_eq`), because an
empty line has four; so it finds the first empty line wherever the reads cut it. A source may be
interrupted anywhere: a read goes on behind an interruption, and nothing of it can be seen. -/

namespace Http1

namespace Inlet

/-- The first empty line of a text ends here. -/
def HeadEnds (text : Bytes) (size : Nat) : Prop :=
  ∃ front back, text = front ++ emptyLine ++ back ∧ size = front.length + 4
    ∧ ∀ front' back', text = front' ++ emptyLine ++ back' → front.length ≤ front'.length

/-- The search finds the first empty line that there is. -/
theorem headEndFrom_first {before size : Nat} {text : Bytes}
    (h : headEndFrom before text = some size) (front back : Bytes)
    (ht : text = front ++ emptyLine ++ back) : size ≤ before + front.length + 4 := by
  induction text generalizing before front with
  | nil => simp [headEndFrom] at h
  | cons b rest ih =>
    rw [headEndFrom_cons] at h
    split at h
    · simp at h
      omega
    · next hp =>
      cases front with
      | nil => exact absurd ⟨back, ht.symm⟩ hp
      | cons c front =>
        obtain ⟨-, hrest⟩ := List.cons.inj ht
        have := ih h front hrest
        simp only [List.length_cons]
        omega

theorem headEnd?_eq_some {text : Bytes} {size : Nat} :
    headEnd? text = some size ↔ HeadEnds text size := by
  constructor
  · intro h
    obtain ⟨front, back, ht, hsize⟩ := headEndFrom_sound h
    refine ⟨front, back, ht, by omega, ?_⟩
    intro front' back' ht'
    have := headEndFrom_first h front' back' ht'
    omega
  · rintro ⟨front, back, rfl, rfl, hfirst⟩
    obtain ⟨size, hsize⟩ := headEndFrom_complete 0 front back
    obtain ⟨front', back', ht', hsize'⟩ := headEndFrom_sound hsize
    have hge := hfirst front' back' ht'
    have hle := headEndFrom_first hsize front back rfl
    rw [headEnd?, hsize]
    simp
    omega

theorem headEnd?_eq_none {text : Bytes} : headEnd? text = none ↔ ¬ emptyLine <:+: text := by
  constructor
  · rintro h ⟨front, back, rfl⟩
    obtain ⟨size, hsize⟩ := headEndFrom_complete 0 front back
    rw [headEnd?, hsize] at h
    simp at h
  · intro h
    rw [Option.eq_none_iff_forall_ne_some]
    intro size hsize
    obtain ⟨front, back, rfl, -⟩ := headEndFrom_sound hsize
    exact h ⟨front, back, rfl⟩

/-! ### The search goes on where it stopped -/

/-- Bytes with which no empty line begins need not be looked at. -/
theorem headEndFrom_skip (before : Nat) (skipped text : Bytes)
    (h : ∀ front back, skipped = front ++ back → back ≠ [] → ¬ emptyLine <+: back ++ text) :
    headEndFrom before (skipped ++ text) = headEndFrom (before + skipped.length) text := by
  induction skipped generalizing before with
  | nil => rfl
  | cons b rest ih =>
    have hb : ¬ emptyLine <+: b :: (rest ++ text) := h [] (b :: rest) rfl (List.cons_ne_nil b rest)
    rw [List.cons_append, headEndFrom_cons, if_neg hb, ih (before + 1)]
    · rw [List.length_cons, Nat.add_assoc, Nat.add_comm 1]
    · intro front back hs
      exact h (b :: front) back (by simp [hs])

/-- What was searched without success need not be searched again, but for its last three bytes. -/
theorem headEndSince?_append {text : Bytes} (h : headEnd? text = none) (more : Bytes) :
    headEndSince? (text.length - 3) (text ++ more) = headEnd? (text ++ more) := by
  have hsplit : text ++ more
      = text.take (text.length - 3) ++ (text.drop (text.length - 3) ++ more) := by
    rw [← List.append_assoc, List.take_append_drop]
  have hskip : headEndFrom 0 (text ++ more)
      = headEndFrom (text.length - 3) (text.drop (text.length - 3) ++ more) := by
    rw [hsplit, headEndFrom_skip]
    · simp
    · rintro front back hfront hne ⟨behind, hbehind⟩
      -- the empty line would lie within the text
      apply headEnd?_eq_none.1 h
      have hlen := congrArg List.length hfront
      have hpos := List.length_pos_iff.2 hne
      simp only [List.length_take, List.length_append] at hlen
      have htext : text = front ++ (back ++ text.drop (text.length - 3)) := by
        rw [← List.append_assoc, ← hfront, List.take_append_drop]
      have hline : emptyLine <+: back ++ text.drop (text.length - 3) := by
        apply List.prefix_of_prefix_length_le ⟨behind, hbehind⟩
        · rw [← List.append_assoc]
          exact List.prefix_append _ _
        · simp [emptyLine_length]
          omega
      rw [htext]
      exact hline.isInfix.trans (List.suffix_append front _).isInfix
  rw [headEndSince?, List.drop_append_of_le_length (by omega), headEnd?, hskip]

/-- The search from where it stopped comes to what the search of everything does. -/
theorem searchHead_eq (searched max : Nat) (inlet : Inlet)
    (h : headEndSince? searched inlet.buffered = headEnd? inlet.buffered) :
    inlet.searchHead searched max = inlet.readHead max := by
  fun_induction searchHead searched max inlet with
  | case1 searched inlet size hs hm =>
    rw [hs] at h
    rw [readHead, ← h]
    simp [hm]
  | case2 searched inlet size hs hm =>
    rw [hs] at h
    rw [readHead, ← h]
    simp [hm]
  | case3 searched inlet hs hm error next hr =>
    rw [readHead_wait (by rw [← h, hs]) hm, hr]
  | case4 searched inlet hs hm next hr =>
    rw [readHead_wait (by rw [← h, hs]) hm, hr]
  | case5 searched inlet hs hm n next hr ih =>
    have hnone : headEnd? inlet.buffered = none := by rw [← h, hs]
    obtain ⟨more, hmore⟩ := Uptake.buffered_fill inlet
    rw [hr] at hmore
    rw [readHead_wait hnone hm, hr, ih]
    rw [← hmore, headEndSince?_append hnone]
  | case6 searched inlet hs hm =>
    rw [hs] at h
    rw [readHead, ← h]
    simp [hm]

/-! ### Reads happen only while the end has not come in -/

/-- A moment at which no end of a head has come in. -/
def EndMissing (uptake : Uptake) : Prop := ¬ emptyLine <:+: uptake.obtained

theorem readHead_leads (max : Nat) (inlet : Inlet) :
    Uptake.Leads EndMissing ⟨[], inlet⟩
      ⟨headGiven (inlet.readHead max).1, (inlet.readHead max).2⟩ := by
  have hfill {inlet next : Inlet} {answer : Except IoError Nat}
      (hs : headEnd? inlet.buffered = none) (hr : inlet.fill = (answer, next)) :
      Uptake.Leads EndMissing ⟨[], inlet⟩ ⟨[], next⟩ := by
    have hmissing : EndMissing ⟨[], inlet⟩ := headEnd?_eq_none.1 hs
    have hleads := Uptake.Leads.refl.fill hmissing
    rwa [hr] at hleads
  fun_induction readHead max inlet with
  | case1 inlet size hs hm =>
    exact Uptake.Leads.refl.take (List.take_append_drop size inlet.buffered).symm
  | case2 => exact .refl
  | case3 inlet hs hm error next hr => exact hfill hs hr
  | case4 inlet hs hm next hr =>
    have hnone : headGiven (if next.buffered.isEmpty then .ok none
        else .error (.truncatedHead next.buffered.length)) = [] := by
      split <;> rfl
    rw [hnone]
    exact hfill hs hr
  | case5 inlet hs hm n next hr ih => exact (hfill hs hr).trans ih
  | case6 => exact .refl

/-- Only what exceeds the limit is said to. -/
theorem readHead_exceeds (max : Nat) (inlet : Inlet) {current limit : Nat}
    (h : (inlet.readHead max).1 = .error (.tooLargeHeader current limit)) : max < current := by
  fun_induction readHead max inlet with
  | case1 => simp at h
  | case2 inlet size hs hm => simp at h; omega
  | case3 => simp at h
  | case4 inlet hs hm next hr =>
    simp only at h
    split at h <;> simp at h
  | case5 inlet hs hm n next hr ih => exact ih h
  | case6 inlet hs hm => simp at h; omega

end Inlet

/-! ### Interruptions -/

/-- A source that delivers in non-empty pieces, is interrupted now and then, and ends. -/
def Source.Flows (source : Source) : Prop :=
  ∀ event ∈ source.script, (∃ bytes : Bytes, bytes ≠ [] ∧ event = .data bytes)
    ∨ ∃ error : IoError, error.kind = .interrupted ∧ event = .fail error

/-- The source without its interruptions. -/
def Source.calm (source : Source) : Source :=
  { source with script := source.script.filter ReadEvent.isData }

theorem Source.calm_calmOf (source : Source) : source.calm.CalmOf source := rfl

theorem Source.Flows.steady {source : Source} (h : source.Flows) : source.calm.Steady := by
  intro event he
  obtain ⟨hmem, hdata⟩ := List.mem_filter.1 he
  rcases h event hmem with hbytes | ⟨error, -, rfl⟩
  · exact hbytes
  · simp [ReadEvent.isData] at hdata

/-- No read of such a source fails. -/
theorem Source.Flows.failures {source : Source} (h : source.Flows) : source.failures = [] := by
  apply List.filterMap_eq_nil_iff.2
  intro event he
  rcases h event he with ⟨bytes, -, rfl⟩ | ⟨error, hk, rfl⟩
  · rfl
  · simp [ReadEvent.failure?, hk]

namespace Inlet

structure Flows (inlet : Inlet) : Prop where
  readSize_pos : 0 < inlet.readSize
  source : inlet.source.Flows

/-- Interruptions change nothing. -/
theorem readHead_flows (max : Nat) {inlet : Inlet} (h : inlet.Flows) :
    SameHead (inlet.readHead max).1 (headOf max inlet.ahead).1
      ∧ (inlet.readHead max).2.ahead = (headOf max inlet.ahead).2 := by
  have hcalm : CalmOf { inlet with source := inlet.source.calm } inlet :=
    ⟨rfl, rfl, inlet.source.calm_calmOf⟩
  obtain ⟨answer, next, hread, -, hsame, hahead⟩ :=
    readHead_headOf max { inlet with source := inlet.source.calm }
      ⟨h.readSize_pos, h.source.steady⟩
  rw [hcalm.ahead] at hsame hahead
  cases readHead_attempt max _ inlet hcalm with
  | same hc hn hnext _ =>
    rw [hc] at hread
    obtain ⟨rfl, rfl⟩ := Prod.mk.inj hread
    rw [hn]
    exact ⟨hsame, hnext.ahead ▸ hahead⟩
  | failed hn hf =>
    rw [Inlet.failures, h.source.failures] at hf
    simp at hf

/-! ### What a head is read as -/

variable {max : Nat} {text : Bytes}

theorem headOf_ends {size : Nat} (h : HeadEnds text size) (hm : size ≤ max) :
    headOf max text = (.ok (some (text.take size)), text.drop size) := by
  simp [headOf, headEnd?_eq_some.2 h, hm]

theorem headOf_large (h : ∀ size, HeadEnds text size → max < size) (hm : max < text.length) :
    ∃ current, headOf max text = (.error (.tooLargeHeader current max), text) := by
  rcases hs : headEnd? text with _ | size
  · exact ⟨text.length, by simp [headOf, hs]; omega⟩
  · have hlt := h size (headEnd?_eq_some.1 hs)
    exact ⟨size, by simp [headOf, hs]; omega⟩

theorem headOf_truncated (h : ∀ size, ¬ HeadEnds text size) (hne : text ≠ [])
    (hm : text.length ≤ max) :
    headOf max text = (.error (.truncatedHead text.length), text) := by
  have hs : headEnd? text = none := by
    rw [Option.eq_none_iff_forall_ne_some]
    intro size hsize
    exact h size (headEnd?_eq_some.1 hsize)
  simp [headOf, hs, hm, hne]

theorem SameHead.eq_of_ok {answer : Except ParseError (Option Bytes)} {head : Option Bytes}
    (h : SameHead answer (.ok head)) : answer = .ok head := by
  cases h
  rfl

/-- Over a source that flows, reading a head is settled by all that is buffered and to come. The
first empty line ends the head if that is within the limit; else no byte is used, and the answer is
none, too large or truncated by how much there is. The search that goes on where it stopped does
the same, and the source is read only while no empty line is buffered. -/
theorem readHead_oneShot (max : Nat) {inlet : Inlet} (h : inlet.Flows) :
    ∃ answer next, inlet.readHead max = (answer, next) ∧ inlet.searchHead 0 max = (answer, next)
      ∧ (∀ size, HeadEnds inlet.ahead size → size ≤ max →
          answer = .ok (some (inlet.ahead.take size)) ∧ next.ahead = inlet.ahead.drop size)
      ∧ (inlet.ahead = [] → answer = .ok none ∧ next.ahead = [])
      ∧ ((∀ size, HeadEnds inlet.ahead size → max < size) → max < inlet.ahead.length →
          (∃ current, answer = .error (.tooLargeHeader current max) ∧ max < current)
            ∧ next.ahead = inlet.ahead)
      ∧ ((∀ size, ¬ HeadEnds inlet.ahead size) → inlet.ahead ≠ [] → inlet.ahead.length ≤ max →
          answer = .error (.truncatedHead inlet.ahead.length) ∧ next.ahead = inlet.ahead)
      ∧ Uptake.Leads EndMissing ⟨[], inlet⟩ ⟨headGiven answer, next⟩ := by
  have hsearch : inlet.searchHead 0 max = inlet.readHead max := searchHead_eq 0 max inlet rfl
  have hleads := readHead_leads max inlet
  have hexceeds {current limit : Nat}
      (h : (inlet.readHead max).1 = .error (.tooLargeHeader current limit)) : max < current :=
    readHead_exceeds max inlet h
  obtain ⟨hsame, hahead⟩ := readHead_flows max h
  rw [hsearch]
  generalize inlet.readHead max = found at hleads hexceeds hsame hahead
  obtain ⟨answer, next⟩ := found
  refine ⟨answer, next, rfl, rfl, ?_, ?_, ?_, ?_, hleads⟩
  · intro size hends hm
    rw [headOf_ends hends hm] at hsame hahead
    exact ⟨hsame.eq_of_ok, hahead⟩
  · intro hnil
    rw [hnil] at hsame hahead
    exact ⟨hsame.eq_of_ok, hahead⟩
  · intro hends hm
    obtain ⟨size, hof⟩ := headOf_large hends hm
    rw [hof] at hsame hahead
    refine ⟨?_, hahead⟩
    cases hsame with
    | same => exact ⟨size, rfl, hexceeds rfl⟩
    | tooLarge current => exact ⟨current, rfl, hexceeds rfl⟩
  · intro hends hne hm
    rw [headOf_truncated hends hne hm] at hsame hahead
    cases hsame
    exact ⟨rfl, hahead⟩

end Inlet

/-! An empty line in four reads, with interruptions between them. -/

namespace Straddling

def interruption : ReadEvent := .fail ⟨.interrupted, ""⟩

def inlet : Inlet where
  buffered := [71, 13]
  readSize := 2
  source := ⟨[interruption, .data [10], .data [13], interruption, interruption,
    .data [10, 66, 67]], #[]⟩

theorem inlet_flows : inlet.Flows := by
  refine ⟨by decide, ?_⟩
  simp [Source.Flows, inlet, interruption]

theorem readHead_straddling :
    inlet.Flows
      ∧ (∃ next, inlet.searchHead 0 5 = (.ok (some [71, 13, 10, 13, 10]), next)
        ∧ next.ahead = [66, 67])
      ∧ ∃ current, (inlet.readHead 4).1 = .error (.tooLargeHeader current 4) ∧ 4 < current := by
  have hends : Inlet.HeadEnds inlet.ahead 5 := Inlet.headEnd?_eq_some.1 (by decide)
  obtain ⟨answer, next, -, hsearch, hhead, -⟩ := Inlet.readHead_oneShot 5 inlet_flows
  obtain ⟨rfl, hahead⟩ := hhead 5 hends (by decide)
  obtain ⟨answer', next', hread, -, -, -, hlarge, -⟩ := Inlet.readHead_oneShot 4 inlet_flows
  obtain ⟨⟨current, rfl, hlt⟩, -⟩ := hlarge
    (fun size hsize => by
      cases (Inlet.headEnd?_eq_some.2 hends).symm.trans (Inlet.headEnd?_eq_some.2 hsize)
      decide)
    (by decide)
  exact ⟨inlet_flows, ⟨next, hsearch, hahead⟩, current, by rw [hread], hlt⟩

end Straddling
end Http1
