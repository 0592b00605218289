import Mathlib
import Http1.Inlet

/-! What comes in through an inlet and when. All that happens to an inlet are reads of its source
and bytes that are taken from its front; `Uptake.Leads` follows them one by one and says of every
single read whether it was allowed at its moment. The bytes obtained so far only ever grow
(`Leads.obtained`), and where no read is allowed the source is left alone (`Leads.source_eq`). -/

namespace Http1

/-- An inlet with the bytes that have been taken from its front so far. -/
structure Uptake where
  used : Bytes
  inlet : Inlet

namespace Uptake

/-- All that has come in so far, used or not. -/
def obtained (uptake : Uptake) : Bytes := uptake.used ++ uptake.inlet.buffered

/-- How one uptake becomes another, with every read of the source at an allowed moment. -/
inductive Leads (allowed : Uptake → Prop) (first : Uptake) : Uptake → Prop
  | refl : Leads allowed first first
  | fill {between : Uptake} (h : Leads allowed first between) (ha : allowed between) :
    Leads allowed first ⟨between.used, between.inlet.fill.2⟩
  | take {between : Uptake} (h : Leads allowed first between) {front rest : Bytes}
    (hb : between.inlet.buffered = front ++ rest) :
    Leads allowed first ⟨between.used ++ front, { between.inlet with buffered := rest }⟩

variable {allowed : Uptake → Prop} {first between last : Uptake}

theorem Leads.trans (h1 : Leads allowed first between) (h2 : Leads allowed between last) :
    Leads allowed first last := by
  induction h2 with
  | refl => exact h1
  | fill _ ha ih => exact ih.fill ha
  | take _ hb ih => exact ih.take hb

/-- A fill adds bytes at the back and touches none of those that are there. -/
theorem buffered_fill (inlet : Inlet) : inlet.buffered <+: inlet.fill.2.buffered := by
  unfold Inlet.fill
  rcases inlet.source.read inlet.readSize with ⟨error | bytes, source⟩
  · exact List.prefix_refl _
  · exact List.prefix_append _ _

theorem Leads.obtained (h : Leads allowed first last) : first.obtained <+: last.obtained := by
  induction h with
  | refl => exact List.prefix_refl _
  | fill _ _ ih =>
    apply ih.trans
    exact (List.prefix_append_right_inj _).2 (buffered_fill _)
  | take _ hb ih => simpa [Uptake.obtained, hb] using ih

/-- What has been used is what is missing at the front. -/
theorem Leads.ahead (h : Leads allowed first last) :
    last.used ++ last.inlet.ahead = first.used ++ first.inlet.ahead := by
  induction h with
  | refl => rfl
  | fill _ _ ih => rw [← ih, Inlet.fill_ahead]
  | take _ hb ih =>
    rw [← ih, Inlet.ahead, Inlet.ahead, hb]
    simp only [List.append_assoc]

/-- Without an allowed moment there is no read. -/
theorem Leads.source_eq (h : Leads allowed first last)
    (hno : ∀ uptake, first.obtained <+: uptake.obtained → ¬ allowed uptake) :
    last.inlet.source = first.inlet.source := by
  induction h with
  | refl => rfl
  | fill h ha _ => exact absurd ha (hno _ h.obtained)
  | take _ _ ih => exact ih

end Uptake
end Http1
