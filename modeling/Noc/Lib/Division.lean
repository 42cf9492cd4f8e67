import Mathlib.Tactic.Linarith
import Mathlib.Tactic.Ring

/-! # Long division

Division in a base `B`, one digit after the other. `Knuth` collects the numbers of one step with a
two-digit divisor `d = dHi * B + dLo` that is *normalised*: its top digit is at least half the base.
The quotient by the top digit alone, `n / dHi`, is then never too small and at most two too big
(`Knuth.digit_cases`), and all numbers of the step stay below `B * B` (`Knuth.bounds`).

`ediv_step` and `emod_step` put the digits of a quotient together. -/

namespace Noc.Lib.Division

/-! ### Digits of a quotient -/

section Step
variable {a b d B : ℤ}

/-- The dividend `a` with a further digit `b`, after `a` itself has been divided. -/
theorem step_eq : a * B + b = (a % d * B + b) + a / d * B * d := by
  conv_lhs => rw [← Int.emod_add_mul_ediv a d]
  ring

theorem ediv_step (hd : d ≠ 0) : (a * B + b) / d = a / d * B + (a % d * B + b) / d := by
  rw [step_eq (d := d), Int.add_mul_ediv_right _ _ hd, Int.add_comm]

theorem emod_step : (a * B + b) % d = (a % d * B + b) % d := by
  rw [step_eq (d := d), Int.add_mul_emod_self_right]

end Step

/-! ### The estimate of a digit -/

/-- One step of a long division: the remainder `n` so far, the next digit `n₁` of the dividend, and
the normalised divisor with digits `dHi` and `dLo`. -/
structure Knuth (B n n₁ d dHi dLo : ℤ) : Prop where
  divisor : d = dHi * B + dLo
  normal : B ≤ 2 * dHi
  hi_lt : dHi < B
  lo_nonneg : 0 ≤ dLo
  lo_lt : dLo < B
  nonneg : 0 ≤ n
  lt : n < d
  digit_nonneg : 0 ≤ n₁
  digit_lt : n₁ < B

namespace Knuth

variable {B n n₁ d dHi dLo : ℤ} (hk : Knuth B n n₁ d dHi dLo)
include hk

theorem base_pos : 0 < B := by have := hk.digit_nonneg; have := hk.digit_lt; omega

theorem hi_pos : 0 < dHi := by have := hk.base_pos; have := hk.normal; omega

theorem estimate_le : n / dHi ≤ B + 1 := by
  have h1 := Int.ediv_mul_le n (ne_of_gt hk.hi_pos)
  have h2 := hk.lt
  have h3 := hk.divisor
  have h4 := hk.lo_lt
  have h5 := hk.normal
  have hlt : n / dHi * dHi < (B + 2) * dHi := by linarith
  have := lt_of_mul_lt_mul_right hlt hk.hi_pos.le
  omega

/-- The number that the estimate leaves of the dividend, before the low digit is taken off. -/
theorem left_nonneg : 0 ≤ n % dHi * B + n₁ :=
  add_nonneg (mul_nonneg (Int.emod_nonneg n (ne_of_gt hk.hi_pos)) hk.base_pos.le) hk.digit_nonneg

theorem left_lt : n % dHi * B + n₁ < dHi * B := by
  have h1 : n % dHi + 1 ≤ dHi := Int.emod_lt_of_pos n hk.hi_pos
  have h2 := mul_le_mul_of_nonneg_right h1 hk.base_pos.le
  have h3 := hk.digit_lt
  linarith

theorem low_nonneg : 0 ≤ n / dHi * dLo :=
  mul_nonneg (Int.ediv_nonneg hk.nonneg hk.hi_pos.le) hk.lo_nonneg

theorem low_lt : n / dHi * dLo < B * B := by
  have h1 := hk.estimate_le
  have h2 := hk.lo_lt
  have h3 : n / dHi * dLo ≤ (B + 1) * (B - 1) :=
    mul_le_mul h1 (by omega) hk.lo_nonneg (by have := hk.base_pos; omega)
  linarith

/-- **All numbers of the step stay below** `B * B`. -/
theorem bounds : n / dHi * dHi < B * B ∧ n % dHi * B + n₁ < B * B ∧ n / dHi * dLo < B * B := by
  have h1 := Int.ediv_mul_le n (ne_of_gt hk.hi_pos)
  have h2 := hk.lt
  have h3 := hk.divisor
  have h4 := hk.lo_lt
  have hB := hk.base_pos
  have h5 : dHi * B ≤ (B - 1) * B :=
    mul_le_mul_of_nonneg_right (by have := hk.hi_lt; omega) hB.le
  exact ⟨by linarith, lt_of_lt_of_le hk.left_lt (by linarith), hk.low_lt⟩

theorem two_mul_le : B * B ≤ 2 * d := by
  have h1 := mul_le_mul_of_nonneg_right hk.normal hk.base_pos.le
  have h2 := hk.divisor
  have h3 := hk.lo_nonneg
  linarith

/-- What the step divides, through the estimate. -/
theorem dividend_eq : n * B + n₁ = n / dHi * d + (n % dHi * B + n₁ - n / dHi * dLo) := by
  conv_lhs => rw [← Int.emod_add_mul_ediv n dHi]
  rw [hk.divisor]
  ring

/-- An estimate `k` too big, from the remainder it leaves. -/
theorem digit_of_remainder {k r : ℤ} (hr : r = n % dHi * B + n₁ - n / dHi * dLo + k * d)
    (h0 : 0 ≤ r) (hlt : r < d) :
    (n * B + n₁) / d = n / dHi - k ∧ (n * B + n₁) % d = r := by
  refine (Int.ediv_emod_unique (by omega)).mpr ⟨?_, h0, hlt⟩
  rw [hk.dividend_eq, hr]
  ring

/-- **The digit and the remainder**, by how the number left compares with the low product. -/
theorem digit_cases :
    let left := n % dHi * B + n₁
    let low := n / dHi * dLo
    (low ≤ left → (n * B + n₁) / d = n / dHi ∧ (n * B + n₁) % d = left - low) ∧
    (left < low → low ≤ left + d →
      (n * B + n₁) / d = n / dHi - 1 ∧ (n * B + n₁) % d = left + d - low) ∧
    (left + d < low → (n * B + n₁) / d = n / dHi - 2 ∧ (n * B + n₁) % d = left + d + d - low) := by
  dsimp only
  have h0 := hk.left_nonneg
  have h1 := hk.left_lt
  have h2 := hk.low_nonneg
  have h3 := hk.low_lt
  have h4 := hk.two_mul_le
  have h5 := hk.divisor
  have h6 := hk.lo_nonneg
  refine ⟨fun h => ?_, fun h h' => ?_, fun h => ?_⟩
  · have := hk.digit_of_remainder (k := 0) rfl (by omega) (by omega)
    rw [Int.sub_zero] at this
    exact ⟨this.1, this.2.trans (by ring)⟩
  · have := hk.digit_of_remainder (k := 1) rfl (by omega) (by omega)
    exact ⟨this.1, this.2.trans (by ring)⟩
  · have := hk.digit_of_remainder (k := 2) rfl (by omega) (by omega)
    exact ⟨this.1, this.2.trans (by ring)⟩

/-- The digit is a digit. -/
theorem digit_bounds : 0 ≤ (n * B + n₁) / d ∧ (n * B + n₁) / d < B := by
  have hd : 0 < d := by have := hk.nonneg; have := hk.lt; omega
  have hB := hk.base_pos
  constructor
  · exact Int.ediv_nonneg (add_nonneg (mul_nonneg hk.nonneg hB.le) hk.digit_nonneg) hd.le
  · refine Int.ediv_lt_of_lt_mul hd ?_
    have h1 : n + 1 ≤ d := hk.lt
    have h2 := mul_le_mul_of_nonneg_right h1 hB.le
    have h3 := hk.digit_lt
    linarith [mul_comm B d]

end Knuth

end Noc.Lib.Division
