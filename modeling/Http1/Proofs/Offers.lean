import Mathlib
import Http1.Outlet

/-! What a sink sees of a write. It is offered all of the bytes from the front, each time what is
left of them, until nothing is left or a write fails (`Offers`). The failure that ends the offers is
the first in their calls, and so an operation that sends before it does anything else fails with
the first failure of its calls. -/

namespace Http1

namespace Call

/-- The failure that a call passes on. A write that was interrupted is made again, and a write that
takes nothing has failed. -/
def fault? : Call → Option IoError
  | .write _ (.ok 0) => some .writeZero
  | .write _ (.error error) => if error.kind = .interrupted then none else some error
  | .flush (.error error) | .close (.error error) => some error
  | _ => none

/-- The first failure of some calls, or success. -/
def firstFault : List Call → Except IoError Unit
  | [] => .ok ()
  | call :: rest =>
    match call.fault? with
    | some error => .error error
    | none => firstFault rest

variable {call : Call} {rest : List Call}

theorem firstFault_none (h : call.fault? = none) : firstFault (call :: rest) = firstFault rest := by
  rw [firstFault, h]

theorem firstFault_some {error : IoError} (h : call.fault? = some error) :
    firstFault (call :: rest) = .error error := by
  rw [firstFault, h]

theorem firstFault_flush (answer : Except IoError Unit) : firstFault [.flush answer] = answer := by
  rcases answer with error | u
  · rfl
  · rfl

theorem firstFault_close (answer : Except IoError Unit) : firstFault [.close answer] = answer := by
  rcases answer with error | u
  · rfl
  · rfl

theorem firstFault_append (calls rest : List Call) :
    firstFault (calls ++ rest) = (firstFault calls).bind fun _ => firstFault rest := by
  induction calls with
  | nil => rfl
  | cons call calls ih =>
    rw [List.cons_append]
    cases hf : call.fault? with
    | none => rw [firstFault_none hf, firstFault_none hf, ih]
    | some error => rw [firstFault_some hf, firstFault_some hf]; rfl

theorem firstFault_ok {calls : List Call} (h : firstFault calls = .ok ()) :
    ∀ call ∈ calls, call.fault? = none := by
  induction calls with
  | nil => simp
  | cons first others ih =>
    cases hf : first.fault? with
    | none =>
      rw [firstFault_none hf] at h
      intro call hc
      rcases List.mem_cons.1 hc with rfl | hc
      · exact hf
      · exact ih h call hc
    | some error =>
      rw [firstFault_some hf] at h
      cases h

end Call

/-- The calls that offer all of `bytes` to a sink, and what they come to. -/
inductive Offers : Bytes → List Call → Except IoError Unit → Prop
  | done : Offers [] [] (.ok ())
  | taken {bytes : Bytes} {n : Nat} {calls : List Call} {answer : Except IoError Unit}
    (hn : 0 < n) (hle : n ≤ bytes.length) (h : Offers (bytes.drop n) calls answer) :
    Offers bytes (.write bytes (.ok n) :: calls) answer
  | again {bytes : Bytes} {error : IoError} {calls : List Call} {answer : Except IoError Unit}
    (hb : bytes ≠ []) (hk : error.kind = .interrupted) (h : Offers bytes calls answer) :
    Offers bytes (.write bytes (.error error) :: calls) answer
  | failed {bytes : Bytes} {answer : Except IoError Nat} {error : IoError}
    (hb : bytes ≠ []) (hf : (Call.write bytes answer).fault? = some error) :
    Offers bytes [.write bytes answer] (.error error)

namespace Offers

variable {bytes : Bytes} {calls : List Call} {answer : Except IoError Unit}

theorem nil_calls (h : Offers [] calls answer) : calls = [] := by
  generalize hbytes : ([] : Bytes) = bytes at h
  cases h with
  | done => rfl
  | taken hn hle => subst hbytes; simp at hle; omega
  | again hb => exact absurd hbytes.symm hb
  | failed hb => exact absurd hbytes.symm hb

/-- Bytes are taken from the front only. -/
theorem accepted_prefix (h : Offers bytes calls answer) :
    calls.flatMap Call.accepted <+: bytes := by
  induction h with
  | done => exact List.prefix_refl _
  | @taken bytes n calls answer hn hle h ih =>
    obtain ⟨more, hmore⟩ := ih
    refine ⟨more, ?_⟩
    rw [List.flatMap_cons, Call.accepted, List.append_assoc, hmore, List.take_append_drop]
  | again hb hk h ih => exact ih
  | @failed bytes answer error hb hf =>
    rw [List.flatMap_singleton]
    cases answer with
    | error cause => exact List.nil_prefix
    | ok n => exact List.take_prefix n bytes

/-- Offers that come to a success have had all bytes taken. -/
theorem accepted_ok (h : Offers bytes calls (.ok ())) : calls.flatMap Call.accepted = bytes := by
  generalize hanswer : (.ok () : Except IoError Unit) = answer at h
  induction h with
  | done => rfl
  | taken hn hle h ih =>
    rw [List.flatMap_cons, Call.accepted, ih hanswer, List.take_append_drop]
  | again hb hk h ih => exact ih hanswer
  | failed hb hf => cases hanswer

/-- The failure that the offers come to is the first in their calls. -/
theorem firstFault (h : Offers bytes calls answer) : Call.firstFault calls = answer := by
  induction h with
  | done => rfl
  | @taken bytes n calls answer hn hle h ih =>
    have hnone : (Call.write bytes (.ok n)).fault? = none := by
      cases n with
      | zero => omega
      | succ n => rfl
    rw [Call.firstFault_none hnone, ih]
  | @again bytes error calls answer hb hk h ih =>
    have hnone : (Call.write bytes (.error error)).fault? = none := if_pos hk
    rw [Call.firstFault_none hnone, ih]
  | failed hb hf => exact Call.firstFault_some hf

end Offers

namespace Sink

theorem pushTo_offers (bytes : Bytes) (calls : Array Call) (events : List WriteEvent) :
    ∃ made, (pushTo bytes calls events).2.2.toList = calls.toList ++ made
      ∧ Offers bytes made (pushTo bytes calls events).1 := by
  induction events generalizing bytes calls with
  | nil =>
    by_cases hb : bytes = []
    · subst hb
      exact ⟨[], by simp [pushTo], .done⟩
    · have hlen := List.length_pos_iff.2 hb
      refine ⟨[.write bytes (.ok bytes.length)], by simp [pushTo, hb], ?_⟩
      have hrest : Offers (bytes.drop bytes.length) [] (.ok ()) := by
        rw [List.drop_length]
        exact .done
      simpa [pushTo, hb] using Offers.taken hlen le_rfl hrest
  | cons event rest ih =>
    by_cases hb : bytes = []
    · subst hb
      exact ⟨[], by simp [pushTo], by simpa [pushTo] using Offers.done⟩
    have hempty : bytes.isEmpty = false := by simpa using hb
    cases event with
    | accept n =>
      by_cases hn : min n bytes.length = 0
      · refine ⟨[.write bytes (.ok 0)], by simp [pushTo, hb, hn], ?_⟩
        have hfault : (Call.write bytes (.ok 0)).fault? = some .writeZero := rfl
        simpa [pushTo, hb, hn] using Offers.failed hb hfault
      · obtain ⟨made, hmade, hoffers⟩ := ih (bytes.drop (min n bytes.length))
          (calls.push (.write bytes (.ok (min n bytes.length))))
        refine ⟨.write bytes (.ok (min n bytes.length)) :: made, ?_, ?_⟩
        · rw [pushTo, hempty]
          simp only [Bool.false_eq_true, if_false, hn, hmade, Array.toList_push,
            List.append_assoc, List.singleton_append]
        · rw [pushTo, hempty]
          simp only [Bool.false_eq_true, if_false, hn]
          exact .taken (Nat.pos_of_ne_zero hn) (Nat.min_le_right _ _) hoffers
    | fail error =>
      by_cases hk : error.kind = .interrupted
      · obtain ⟨made, hmade, hoffers⟩ := ih bytes (calls.push (.write bytes (.error error)))
        refine ⟨.write bytes (.error error) :: made, ?_, ?_⟩
        · rw [pushTo, hempty]
          simp only [Bool.false_eq_true, if_false, hk, if_true, hmade, Array.toList_push,
            List.append_assoc, List.singleton_append]
        · rw [pushTo, hempty]
          simp only [Bool.false_eq_true, if_false, hk, if_true]
          exact .again hb hk hoffers
      · refine ⟨[.write bytes (.error error)], by simp [pushTo, hb, hk], ?_⟩
        have hfault : (Call.write bytes (.error error)).fault? = some error := if_neg hk
        simpa [pushTo, hb, hk] using Offers.failed hb hfault

/-- A write adds its offers to the calls. -/
theorem writeAll_offers (sink : Sink) (bytes : Bytes) :
    ∃ made, (sink.writeAll bytes).2.calls.toList = sink.calls.toList ++ made
      ∧ Offers bytes made (sink.writeAll bytes).1 :=
  pushTo_offers bytes sink.calls sink.writes

end Sink
end Http1
