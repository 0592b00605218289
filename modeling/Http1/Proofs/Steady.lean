import Mathlib
import Http1.Inlet

/-! A source that gives what it has in non-empty pieces and then ends: no read fails, and a read
that gives nothing means that nothing is left. Reading a message head over such a source is
settled by the bytes that are ahead, wherever the pieces end (`readHead_headOf`). -/

namespace Http1

def Source.Steady (source : Source) : Prop :=
  ∀ event ∈ source.script, ∃ bytes : Bytes, bytes ≠ [] ∧ event = .data bytes

theorem Source.read_steady {source : Source} (h : source.Steady) {offered : Nat}
    (ho : 0 < offered) :
    ∃ bytes next, source.read offered = (.ok bytes, next) ∧ next.Steady
      ∧ (bytes = [] → next.undelivered = []) := by
  obtain ⟨script, calls⟩ := source
  cases script with
  | nil => exact ⟨[], _, rfl, h, fun _ => rfl⟩
  | cons event rest =>
    obtain ⟨bytes, hne, rfl⟩ := h event List.mem_cons_self
    have hrest : ∀ event ∈ rest, ∃ bytes : Bytes, bytes ≠ [] ∧ event = .data bytes :=
      fun event he => h event (List.mem_cons_of_mem _ he)
    refine ⟨bytes.take offered, _, rfl, ?_, ?_⟩
    · intro event he
      split at he
      · exact hrest event he
      · next hleft =>
        rcases List.mem_cons.1 he with rfl | he
        · exact ⟨_, by simpa using hleft, rfl⟩
        · exact hrest event he
    · intro ht
      rcases List.take_eq_nil_iff.1 ht with hz | hz
      · omega
      · exact absurd hz hne

namespace Inlet

structure Steady (inlet : Inlet) : Prop where
  readSize_pos : 0 < inlet.readSize
  source : inlet.source.Steady

/-- No byte is lost by reading on, and reading nothing means that nothing is left. -/
theorem fill_steady {inlet next : Inlet} {answer : Except IoError Nat} (h : inlet.Steady)
    (hf : inlet.fill = (answer, next)) :
    ∃ n, answer = .ok n ∧ next.Steady ∧ next.ahead = inlet.ahead
      ∧ (n = 0 → next.source.undelivered = [] ∧ next.buffered = inlet.buffered) := by
  obtain ⟨bytes, source, hr, hs, hend⟩ := Source.read_steady h.source h.readSize_pos
  have ha := inlet.fill_ahead
  rw [hf] at ha
  rw [fill, hr] at hf
  cases hf
  refine ⟨bytes.length, rfl, ⟨h.readSize_pos, hs⟩, ha, ?_⟩
  intro hn
  have hb : bytes = [] := List.length_eq_zero_iff.1 hn
  exact ⟨hend hb, by simp [hb]⟩

/-- The end of a message head. -/
def emptyLine : Bytes := Bytes.crlf ++ Bytes.crlf

theorem emptyLine_length : emptyLine.length = 4 := rfl

theorem headEndFrom_cons (before : Nat) (b : UInt8) (rest : Bytes) :
    headEndFrom before (b :: rest)
      = if emptyLine <+: b :: rest then some (before + 4) else headEndFrom (before + 1) rest := by
  by_cases h : emptyLine <+: b :: rest
  · obtain ⟨back, hback⟩ := h
    rw [if_pos ⟨back, hback⟩, ← hback]
    rfl
  · rw [if_neg h, headEndFrom]
    intro back hb hrest
    exact h ⟨back, by rw [hb, hrest]; rfl⟩

theorem headEndFrom_sound {before size : Nat} {text : Bytes}
    (h : headEndFrom before text = some size) :
    ∃ front back, text = front ++ emptyLine ++ back ∧ size = before + front.length + 4 := by
  induction text generalizing before with
  | nil => cases h
  | cons b rest ih =>
    rw [headEndFrom_cons] at h
    split at h
    · next hp =>
      obtain ⟨back, hback⟩ := hp
      cases h
      exact ⟨[], back, hback.symm, rfl⟩
    · obtain ⟨front, back, hrest, hsize⟩ := ih h
      refine ⟨b :: front, back, by rw [hrest]; rfl, ?_⟩
      rw [hsize, List.length_cons]
      omega

/-- Bytes that follow do not move the end of a head. -/
theorem headEndFrom_append {before size : Nat} {text : Bytes}
    (h : headEndFrom before text = some size) (more : Bytes) :
    headEndFrom before (text ++ more) = some size := by
  induction text generalizing before with
  | nil => cases h
  | cons b rest ih =>
    rw [headEndFrom_cons] at h
    rw [List.cons_append, headEndFrom_cons]
    split at h
    · next hp =>
      have hp' : emptyLine <+: b :: (rest ++ more) := List.prefix_append_of_prefix hp
      rw [if_pos hp']
      exact h
    · next hp =>
      obtain ⟨front, back, hrest, -⟩ := headEndFrom_sound h
      have hlen : emptyLine.length ≤ (b :: rest).length := by
        rw [hrest, List.length_cons, List.length_append, List.length_append]
        omega
      have hno : ¬ emptyLine <+: b :: (rest ++ more) := fun hp' =>
        hp (List.prefix_of_prefix_length_le hp' (List.prefix_append (b :: rest) more) hlen)
      rw [if_neg hno]
      exact ih h

theorem headEndFrom_complete (before : Nat) (front back : Bytes) :
    ∃ size, headEndFrom before (front ++ emptyLine ++ back) = some size := by
  induction front generalizing before with
  | nil => exact ⟨before + 4, rfl⟩
  | cons b rest ih =>
    rw [List.cons_append, List.cons_append, headEndFrom_cons]
    split
    · exact ⟨before + 4, rfl⟩
    · exact ih (before + 1)

end Inlet

/-- A message head: it ends with an empty line and holds no other before. -/
structure Head where
  bytes : Bytes
  ends : Inlet.emptyLine <:+ bytes
  first : ∀ front back, bytes = front ++ Inlet.emptyLine ++ back → back = []

namespace Head

theorem headEnd (head : Head) : Inlet.headEnd? head.bytes = some head.bytes.length := by
  obtain ⟨front, hfront⟩ := head.ends
  obtain ⟨size, hsize⟩ := Inlet.headEndFrom_complete 0 front []
  rw [List.append_nil, hfront] at hsize
  obtain ⟨before, after, hbytes, hlen⟩ := Inlet.headEndFrom_sound hsize
  have hnil := head.first before after hbytes
  rw [hnil, List.append_nil] at hbytes
  rw [Inlet.headEnd?, hsize, hlen, hbytes, List.length_append, Inlet.emptyLine_length, Nat.zero_add]

end Head

namespace Inlet

/-- As long as no empty line is buffered, a head that ends in what follows is longer than the
buffer. -/
theorem headEnd_lt {front back : Bytes} {size : Nat} (hn : headEnd? front = none)
    (hs : headEnd? (front ++ back) = some size) : front.length < size := by
  apply Nat.lt_of_not_le
  intro hle
  obtain ⟨before, after, htext, hsize⟩ := headEndFrom_sound hs
  have hfront : before ++ emptyLine <+: front := by
    refine List.prefix_of_prefix_length_le ⟨after, htext.symm⟩ (List.prefix_append front back) ?_
    rw [List.length_append, emptyLine_length]
    omega
  obtain ⟨more, rfl⟩ := hfront
  obtain ⟨found, hfound⟩ := headEndFrom_complete 0 before more
  rw [headEnd?, hfound] at hn
  cases hn

theorem headEnd_le {text : Bytes} {size : Nat} (hs : headEnd? text = some size) :
    size ≤ text.length := by
  obtain ⟨front, back, rfl, hsize⟩ := headEndFrom_sound hs
  rw [List.length_append, List.length_append, emptyLine_length]
  omega

/-- What reading a head makes of all that is ever going to come, and what it leaves. -/
def headOf (max : Nat) (text : Bytes) : Except ParseError (Option Bytes) × Bytes :=
  match headEnd? text with
  | some size =>
    if size ≤ max then (.ok (some (text.take size)), text.drop size)
    else (.error (.tooLargeHeader size max), text)
  | none =>
    if text.length ≤ max then
      (if text.isEmpty then .ok none else .error (.truncatedHead text.length), text)
    else (.error (.tooLargeHeader text.length max), text)

/-- The same answer, but for how much of a head there was when it was found to be too large. -/
inductive SameHead : Except ParseError (Option Bytes) → Except ParseError (Option Bytes) → Prop
  | same (answer : Except ParseError (Option Bytes)) : SameHead answer answer
  | tooLarge (one other max : Nat) :
    SameHead (.error (.tooLargeHeader one max)) (.error (.tooLargeHeader other max))

theorem headOf_tooLarge {front : Bytes} {max : Nat} (hn : headEnd? front = none)
    (hm : ¬ front.length ≤ max) (back : Bytes) :
    ∃ size, headOf max (front ++ back) = (.error (.tooLargeHeader size max), front ++ back) := by
  unfold headOf
  split
  · next size hs =>
    have hlt := headEnd_lt hn hs
    exact ⟨size, if_neg (by omega)⟩
  · exact ⟨_, if_neg (by rw [List.length_append]; omega)⟩

/-- Over a steady source, reading a head is settled by the bytes ahead alone. -/
theorem readHead_headOf (max : Nat) (inlet : Inlet) (h : inlet.Steady) :
    ∃ answer next, inlet.readHead max = (answer, next) ∧ next.Steady
      ∧ SameHead answer (headOf max inlet.ahead).1 ∧ next.ahead = (headOf max inlet.ahead).2 := by
  fun_induction readHead max inlet with
  | case1 inlet size hs hm =>
    have hle := headEnd_le hs
    have hall : headEnd? inlet.ahead = some size := headEndFrom_append hs inlet.source.undelivered
    have hof : headOf max inlet.ahead
        = (.ok (some (inlet.take size).1), (inlet.take size).2.ahead) := by
      rw [headOf, hall]
      simp only [if_pos hm, ahead, take, List.take_append_of_le_length hle,
        List.drop_append_of_le_length hle]
    rw [hof]
    exact ⟨_, _, rfl, ⟨h.readSize_pos, h.source⟩, .same _, rfl⟩
  | case2 inlet size hs hm =>
    have hall : headEnd? inlet.ahead = some size := headEndFrom_append hs inlet.source.undelivered
    rw [headOf, hall]
    simp only [if_neg hm]
    exact ⟨_, _, rfl, h, .same _, rfl⟩
  | case3 inlet hs hm error next hr =>
    obtain ⟨n, hn, -⟩ := fill_steady h hr
    cases hn
  | case4 inlet hs hm next hr =>
    -- all that was ahead is buffered
    obtain ⟨n, hn, hsteady, ha, hend⟩ := fill_steady h hr
    cases hn
    obtain ⟨hundelivered, hsame⟩ := hend rfl
    have hnext : next.ahead = next.buffered := by
      rw [ahead, hundelivered, List.append_nil]
    rw [← ha, hnext, headOf, hsame, hs]
    simp only [if_pos hm]
    exact ⟨_, _, rfl, hsteady, .same _, hnext.trans hsame⟩
  | case5 inlet hs hm n next hr ih =>
    obtain ⟨n', hn, hsteady, ha, -⟩ := fill_steady h hr
    rw [← ha]
    exact ih hsteady
  | case6 inlet hs hm =>
    obtain ⟨size, hof⟩ := headOf_tooLarge hs hm inlet.source.undelivered
    rw [ahead, hof]
    exact ⟨_, _, rfl, h, .tooLarge _ _ max, rfl⟩

/-- A head that is ahead is taken, and what follows it is left. -/
theorem headOf_head (head : Head) (rest : Bytes) {max : Nat} (hmax : head.bytes.length ≤ max) :
    headOf max (head.bytes ++ rest) = (.ok (some head.bytes), rest) := by
  have hend : headEnd? (head.bytes ++ rest) = some head.bytes.length :=
    headEndFrom_append head.headEnd rest
  rw [headOf, hend]
  simp only [if_pos hmax, List.take_left, List.drop_left]

end Inlet
end Http1
