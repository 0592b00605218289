import Mathlib.Algebra.Order.Floor.Div
import Http1.Timeout

/-! From spans of time to timeouts and back. A span is first narrowed to 64 bits and then rounded
up, and each of the two steps may meet the largest timeout; together they come to the milliseconds
of the span, rounded up once and cut off once (`Timeout.toNat_ofDuration`). A timeout is a whole
number of milliseconds, so nothing of it is lost on the way back. -/

namespace Http1

namespace Duration

theorem totalNanos_split (span : Duration) :
    span.totalNanos = span.wholeMillis * 1000000 + span.nanos % 1000000 := by
  rw [totalNanos, wholeMillis]
  omega

theorem totalNanos_ofMillis (millis : UInt64) :
    (ofMillis millis).totalNanos = millis.toNat * 1000000 := by
  have hseconds : (millis / 1000).toNat = millis.toNat / 1000 := UInt64.toNat_div _ _
  simp only [totalNanos, ofMillis, hseconds]
  omega

/-- The milliseconds of a span, with a part of one counted as a whole one. -/
def ceilMillis (span : Duration) : Nat := span.totalNanos ⌈/⌉ 1000000

theorem ceilMillis_eq (span : Duration) : span.ceilMillis
    = if span.nanos % 1000000 = 0 then span.wholeMillis else span.wholeMillis + 1 := by
  rw [ceilMillis, Nat.ceilDiv_eq_add_pred_div, totalNanos_split]
  split <;> omega

theorem ceilMillis_mono {span longer : Duration} (h : span.totalNanos ≤ longer.totalNanos) :
    span.ceilMillis ≤ longer.ceilMillis := by
  rw [ceilMillis, ceilMillis, Nat.ceilDiv_eq_add_pred_div, Nat.ceilDiv_eq_add_pred_div]
  omega

/-- Rounding up adds less than a millisecond. -/
theorem ceilMillis_near (span : Duration) :
    span.totalNanos ≤ span.ceilMillis * 1000000
      ∧ span.ceilMillis * 1000000 < span.totalNanos + 1000000 := by
  rw [ceilMillis, Nat.ceilDiv_eq_add_pred_div]
  omega

end Duration

namespace Timeout

theorem toNat_largest : largest.toNat = 2 ^ 64 - 1 := rfl

theorem toNat_narrowed (count : Nat) : (narrowed count).toNat = min count (2 ^ 64 - 1) := by
  unfold narrowed
  split
  · next hfits =>
    have hsize : count < 2 ^ 64 := hfits
    rw [UInt64.toNat_ofNat_of_lt' hfits]
    omega
  · next hlarge =>
    have hsize : ¬ count < 2 ^ 64 := hlarge
    rw [toNat_largest]
    omega

theorem toNat_raised (millis : UInt64) :
    (raised millis).toNat = min (millis.toNat + 1) (2 ^ 64 - 1) := by
  have hlt := millis.toNat_lt
  unfold raised
  split
  · next hlargest =>
    rw [hlargest, toNat_largest]
    omega
  · next hother =>
    have hne : millis.toNat ≠ 2 ^ 64 - 1 := fun h => hother (UInt64.toNat_inj.1 h)
    have hadd : (millis + 1).toNat = (millis.toNat + 1) % 2 ^ 64 := UInt64.toNat_add _ _
    rw [hadd]
    omega

/-- The two steps saturate like one: what does not fit when it is narrowed stays the largest when it
is raised. -/
theorem toNat_ofDuration (span : Duration) :
    (ofDuration span).millis.toNat = min span.ceilMillis (2 ^ 64 - 1) := by
  rw [span.ceilMillis_eq]
  unfold ofDuration
  dsimp only
  split
  · exact toNat_narrowed _
  · rw [toNat_raised, toNat_narrowed]
    omega

/-- How long a timeout lasts in nanoseconds. None at all counts as zero. -/
def lastingNanos (timeout : Timeout) : Nat := (timeout.toDuration?.map Duration.totalNanos).getD 0

theorem isDisabled_iff (timeout : Timeout) : timeout.isDisabled ↔ timeout.millis.toNat = 0 := by
  rw [isDisabled, beq_iff_eq]
  exact UInt64.toNat_inj.symm

theorem lastingNanos_eq (timeout : Timeout) :
    timeout.lastingNanos = timeout.millis.toNat * 1000000 := by
  unfold lastingNanos toDuration?
  split
  · next hdisabled =>
    rw [timeout.isDisabled_iff.1 hdisabled, Nat.zero_mul, Option.map_none, Option.getD_none]
  · rw [Option.map_some, Option.getD_some, Duration.totalNanos_ofMillis]

/-- A timeout comes back from the span it stands for. -/
theorem ofDuration?_toDuration? (timeout : Timeout) :
    ofDuration? timeout.toDuration? = timeout := by
  unfold toDuration?
  split
  · next hdisabled =>
    have hzero : timeout.millis = 0 := UInt64.toNat_inj.1 (timeout.isDisabled_iff.1 hdisabled)
    exact congrArg Timeout.mk hzero.symm
  · have hlt := timeout.millis.toNat_lt
    have hceil : (Duration.ofMillis timeout.millis).ceilMillis = timeout.millis.toNat := by
      rw [Duration.ceilMillis, Duration.totalNanos_ofMillis, Nat.ceilDiv_eq_add_pred_div]
      omega
    have hmillis : (ofDuration (.ofMillis timeout.millis)).millis = timeout.millis := by
      rw [← UInt64.toNat_inj, toNat_ofDuration, hceil]
      omega
    exact congrArg Timeout.mk hmillis

/-- A span becomes its milliseconds, rounded up and at most the largest timeout. So only an empty
span means no timeout, a longer span no shorter timeout, and a timeout that is not cut off lasts for
the span and less than a millisecond more; and every timeout comes back from what it stands for. -/
theorem ofDuration_rounded (span : Duration) :
    (ofDuration span).millis.toNat = min (span.totalNanos ⌈/⌉ 1000000) (2 ^ 64 - 1)
      ∧ ((ofDuration span).isDisabled ↔ span.totalNanos = 0)
      ∧ (∀ longer : Duration, span.totalNanos ≤ longer.totalNanos →
        (ofDuration span).millis ≤ (ofDuration longer).millis)
      ∧ (span.totalNanos ⌈/⌉ 1000000 ≤ 2 ^ 64 - 1 →
        span.totalNanos ≤ (ofDuration span).lastingNanos
          ∧ (ofDuration span).lastingNanos < span.totalNanos + 1000000)
      ∧ ∀ timeout : Timeout, ofDuration? timeout.toDuration? = timeout := by
  have hmillis := toNat_ofDuration span
  have hnear := span.ceilMillis_near
  refine ⟨hmillis, ?_, fun longer hle => ?_, fun hfits => ?_, ofDuration?_toDuration?⟩
  · rw [isDisabled_iff, hmillis]
    omega
  · have hceil := Duration.ceilMillis_mono hle
    rw [UInt64.le_iff_toNat_le, hmillis, toNat_ofDuration]
    omega
  · have hwhole : min span.ceilMillis (2 ^ 64 - 1) = span.ceilMillis := Nat.min_eq_left hfits
    rw [lastingNanos_eq, hmillis, hwhole]
    exact hnear

/-- 2 ^ 64 - 1 milliseconds. -/
def longest : Duration := ⟨18446744073709551, 615000000, by decide⟩

def tooLong : Duration := ⟨18446744073709551, 615000001, by decide⟩

/-- The longest span that is not cut off, beside the one that is a nanosecond longer. -/
theorem ofDuration_rounded_longest :
    longest.totalNanos ⌈/⌉ 1000000 ≤ 2 ^ 64 - 1 ∧ longest.totalNanos ≤ tooLong.totalNanos
      ∧ (ofDuration longest).millis.toNat = 2 ^ 64 - 1
      ∧ (ofDuration tooLong).millis.toNat = 2 ^ 64 - 1
      ∧ (ofDuration longest).lastingNanos < longest.totalNanos + 1000000
      ∧ (ofDuration longest).millis ≤ (ofDuration tooLong).millis := by
  have hfits : longest.totalNanos ⌈/⌉ 1000000 ≤ 2 ^ 64 - 1 := by decide
  have hle : longest.totalNanos ≤ tooLong.totalNanos := by decide
  obtain ⟨hmillis, -, hmono, hnear, -⟩ := ofDuration_rounded longest
  obtain ⟨hcut, -⟩ := ofDuration_rounded tooLong
  have hlongest : longest.totalNanos ⌈/⌉ 1000000 = 2 ^ 64 - 1 := by decide
  have htooLong : tooLong.totalNanos ⌈/⌉ 1000000 = 2 ^ 64 := by decide
  exact ⟨hfits, hle, by rw [hmillis, hlongest, Nat.min_self], by rw [hcut, htooLong]; decide,
    (hnear hfits).2, hmono tooLong hle⟩

end Timeout
end Http1
