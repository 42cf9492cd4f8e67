import Noc.Lib.Division
import Mathlib.Data.Nat.Bitwise
import Mathlib.Tactic.LinearCombination
import Mathlib.Tactic.Positivity
import Mathlib.Tactic.SplitIfs

/-! # `umoddiv.c`: 64-bit by 32-bit division

The software division that `printf.c` uses where the hardware has none. Numbers are integers, and
`u32` reduces the result of an operation as `uint32_t` does. A shift by 32 or more is undefined and
division by zero faults: the result is then `none`.

The functions on the digits take the reduction as a parameter, so that the code (`u32`) can be
compared with the same steps on unbounded integers (`id`). `umoddiv32_eq` says that both give the
quotient and the remainder, as the version of `common.h` that uses the hardware does. -/

namespace Noc.Support.Umoddiv

open Noc.Lib.Division

/-! ### Operations -/

/-- A value as `uint32_t`. -/
def u32 (x : ℤ) : ℤ := x % 2 ^ 32

/-- `a | b` -/
def bitOr (a b : ℤ) : ℤ := ((a.toNat ||| b.toNat : ℕ) : ℤ)

/-- `a << k` -/
def shl (a : ℤ) (k : ℕ) : Option ℤ := if k < 32 then some (u32 (a * 2 ^ k)) else none

/-- `a >> k` -/
def shr (a : ℤ) (k : ℕ) : Option ℤ := if k < 32 then some (a / 2 ^ k) else none

/-- `stdc_leading_zerosui` -/
def stdcLeadingZerosui (x : ℤ) : ℕ := if x ≠ 0 then 31 - x.toNat.log2 else 32

/-- `umoddiv32` of `common.h`, on the hardware: the quotient and the remainder. -/
def umoddiv32Platform (n d : ℤ) : Option (ℤ × ℤ) :=
  if d = 0 then none else some (n / d, u32 (n % d))

/-! ### `udiv_adjusted` -/

section Digits
variable (wrap : ℤ → ℤ)

/-- The fine tuning of an estimated digit `q`, with what it leaves in `r`, and the low product
`m`. -/
def fineTune (q r m d : ℤ) : ℤ × ℤ :=
  if r < m then
    let q := wrap (q - 1)
    let r := wrap (r + d)
    if d ≤ r then
      if r < m then (wrap (q - 1), wrap (r + d)) else (q, r)
    else (q, r)
  else (q, r)

/-- One half of `udiv_adjusted`: the digit of the quotient for the digit `n1` of the dividend, and
the remainder. -/
def udivDigit (n n1 d dHi dLo : ℤ) : ℤ × ℤ :=
  let q := n / dHi
  let r := wrap (n - wrap (q * dHi))
  let m := wrap (q * dLo)
  let r := bitOr (wrap (r * 2 ^ 16)) n1
  let (q, r) := fineTune wrap q r m d
  (q, wrap (r - m))

/-- `udiv_adjusted`: the quotient and the remainder. -/
def udivAdjusted (nHi32 nLo32 d : ℤ) : Option (ℤ × ℤ) :=
  let dHi := d / 2 ^ 16
  let dLo := d % 2 ^ 16
  if dHi = 0 then none
  else
    let (qHi, rHi) := udivDigit wrap nHi32 (nLo32 / 2 ^ 16) d dHi dLo
    let (qLo, rLo) := udivDigit wrap rHi (nLo32 % 2 ^ 16) d dHi dLo
    some (bitOr (wrap (qHi * 2 ^ 16)) qLo, rLo)

/-! ### `umoddiv32` -/

/-- The normalisation in `umoddiv32`: `d`, `n_hi32`, `n_lo32` and `q_hi` for the last step. -/
def normalize (nHi32 nLo32 d : ℤ) (bm : ℕ) : Option (ℤ × ℤ × ℤ × ℤ) :=
  if nHi32 < d then
    if bm ≠ 0 then do
      let d ← shl d bm
      let nHi32 := bitOr (← shl nHi32 bm) (← shr nLo32 (32 - bm))
      let nLo32 ← shl nLo32 bm
      pure (d, nHi32, nLo32, 0)
    else pure (d, nHi32, nLo32, 0)
  else
    if bm = 0 then pure (d, u32 (nHi32 - d), nLo32, 1)
    else do
      let d ← shl d bm
      let nTop ← shr nHi32 (32 - bm)
      let nHi32 := bitOr (← shl nHi32 bm) (← shr nLo32 (32 - bm))
      let nLo32 ← shl nLo32 bm
      let (qHi, nHi32) ← udivAdjusted wrap nTop nHi32 d
      pure (d, nHi32, nLo32, qHi)

/-- `umoddiv32`: the quotient, which the source leaves in `*n`, and the remainder. -/
def umoddiv32 (n d : ℤ) : Option (ℤ × ℤ) :=
  let nHi32 := u32 (n / 2 ^ 32)
  let nLo32 := u32 n
  if d = 0 ∨ nHi32 = 0 then
    if d = 0 then none else some (nLo32 / d, nLo32 % d)
  else do
    let bm := stdcLeadingZerosui d
    let (d, nHi32, nLo32, qHi) ← normalize wrap nHi32 nLo32 d bm
    let (qLo, nLo32) ← udivAdjusted wrap nHi32 nLo32 d
    pure (bitOr (qHi * 2 ^ 32) qLo, ← shr nLo32 bm)

end Digits

/-! ### Facts about the operations -/

/-- A reduction that does not change the numbers of `uint32_t`, and that subtraction cannot tell. -/
structure Wraps (wrap : ℤ → ℤ) : Prop where
  of_lt : ∀ {x}, 0 ≤ x → x < 2 ^ 32 → wrap x = x
  carry : ∀ {x}, 2 ^ 32 ≤ x → x < 2 ^ 33 → wrap x = x ∨ wrap x = x - 2 ^ 32
  wrap_sub : ∀ x m, wrap (wrap x - m) = wrap (x - m)

theorem wraps_u32 : Wraps u32 where
  of_lt h0 h := Int.emod_eq_of_lt h0 h
  carry h0 h := by unfold u32; omega
  wrap_sub x m := Int.emod_sub_emod x (2 ^ 32) m

theorem wraps_id : Wraps id where
  of_lt _ _ := rfl
  carry _ _ := Or.inl rfl
  wrap_sub _ _ := rfl

theorem bitOr_shift {a b : ℤ} {k : ℕ} (ha : 0 ≤ a) (hb : 0 ≤ b) (hlt : b < 2 ^ k) :
    bitOr (a * 2 ^ k) b = a * 2 ^ k + b := by
  obtain ⟨m, rfl⟩ := Int.eq_ofNat_of_zero_le ha
  obtain ⟨n, rfl⟩ := Int.eq_ofNat_of_zero_le hb
  have hm : ((m : ℤ) * 2 ^ k).toNat = 2 ^ k * m := by
    rw [Int.mul_comm]
    exact_mod_cast Int.toNat_natCast (2 ^ k * m)
  have hn : n < 2 ^ k := by exact_mod_cast hlt
  unfold bitOr
  rw [hm, Int.toNat_natCast, ← Nat.two_pow_add_eq_or_of_lt hn]
  push_cast
  ring

theorem stdcLeadingZerosui_spec {d : ℤ} (h0 : 0 < d) (h : d < 2 ^ 32) :
    stdcLeadingZerosui d ≤ 31 ∧ 2 ^ 31 ≤ d * 2 ^ stdcLeadingZerosui d ∧
      d * 2 ^ stdcLeadingZerosui d < 2 ^ 32 := by
  obtain ⟨n, rfl⟩ := Int.eq_ofNat_of_zero_le h0.le
  have hn0 : n ≠ 0 := by omega
  have hn : n < 2 ^ 32 := by exact_mod_cast h
  have hlog : n.log2 < 32 := (Nat.log2_lt hn0).mpr hn
  unfold stdcLeadingZerosui
  rw [if_pos h0.ne', Int.toNat_natCast]
  refine ⟨Nat.sub_le _ _, ?_, ?_⟩
  · have h1 := Nat.mul_le_mul_right (2 ^ (31 - n.log2)) (Nat.log2_self_le hn0)
    rw [← Nat.pow_add, show n.log2 + (31 - n.log2) = 31 by omega] at h1
    exact_mod_cast h1
  · have h1 := Nat.mul_lt_mul_of_pos_right (Nat.lt_log2_self (n := n))
      (Nat.two_pow_pos (31 - n.log2))
    rw [← Nat.pow_add, show n.log2 + 1 + (31 - n.log2) = 32 by omega] at h1
    exact_mod_cast h1

/-! ### `udiv_adjusted` divides -/

section Digits
variable {wrap : ℤ → ℤ} (hw : Wraps wrap)
include hw

/-- The fine tuning of an estimate that is at most two too big. The first add-back may wrap: then it
has gone past the low product, and the comparison with `d` keeps the second one out. -/
theorem fineTune_eq {q r m d digit rem : ℤ} (hq : q < 2 ^ 32) (hr : 0 ≤ r) (hrd : r < d)
    (hd : d < 2 ^ 32) (hm : m < 2 ^ 32) (hdigit : 0 ≤ digit) (hrem : 0 ≤ rem ∧ rem < d)
    (h1 : m ≤ r → digit = q ∧ rem = r - m)
    (h2 : r < m → m ≤ r + d → digit = q - 1 ∧ rem = r + d - m)
    (h3 : r + d < m → digit = q - 2 ∧ rem = r + d + d - m) :
    (fineTune wrap q r m d).1 = digit ∧ wrap ((fineTune wrap q r m d).2 - m) = rem := by
  have hwrap : wrap rem = rem := hw.of_lt hrem.1 (by omega)
  unfold fineTune
  by_cases hlow : r < m
  · have hq1 : wrap (q - 1) = q - 1 := by
      refine hw.of_lt ?_ (by omega)
      by_cases hle : m ≤ r + d
      · have := h2 hlow hle
        omega
      · have := h3 (by omega)
        omega
    rw [if_pos hlow]
    dsimp only
    rw [hq1]
    by_cases hle : m ≤ r + d
    · obtain ⟨rfl, hrem'⟩ := h2 hlow hle
      -- one correction is enough, and the second test says so
      have hstop : ¬ (d ≤ wrap (r + d) ∧ wrap (r + d) < m) := by
        by_cases hfit : r + d < 2 ^ 32
        · rw [hw.of_lt (by omega) hfit]
          omega
        · rcases hw.carry (show 2 ^ 32 ≤ r + d by omega) (by omega) with h | h <;> omega
      have hsub : wrap (wrap (r + d) - m) = rem := by
        rw [hw.wrap_sub, ← hrem', hwrap]
      by_cases hcarry : d ≤ wrap (r + d)
      · rw [if_pos hcarry, if_neg fun h => hstop ⟨hcarry, h⟩]
        exact ⟨rfl, hsub⟩
      · rw [if_neg hcarry]
        exact ⟨rfl, hsub⟩
    · obtain ⟨rfl, hrem'⟩ := h3 (by omega)
      have hadd : wrap (r + d) = r + d := hw.of_lt (by omega) (by omega)
      rw [hadd, if_pos (by omega), if_pos (by omega), hw.of_lt (by omega) (by omega), hw.wrap_sub,
        ← hrem', hwrap]
      exact ⟨by ring, rfl⟩
  · obtain ⟨rfl, hrem'⟩ := h1 (by omega)
    rw [if_neg hlow]
    exact ⟨rfl, by rw [← hrem', hwrap]⟩

/-- **One half of `udiv_adjusted`** gives the digit and the remainder; the products and the shift do
not wrap. -/
theorem udivDigit_eq {n n1 d dHi dLo : ℤ} (hk : Knuth (2 ^ 16) n n1 d dHi dLo) :
    udivDigit wrap n n1 d dHi dLo = ((n * 2 ^ 16 + n1) / d, (n * 2 ^ 16 + n1) % d) := by
  obtain ⟨hb1, hb2, hb3⟩ := hk.bounds
  obtain ⟨h1, h2, h3⟩ := hk.digit_cases
  have hest := hk.estimate_le
  have hq0 : 0 ≤ n / dHi := Int.ediv_nonneg hk.nonneg hk.hi_pos.le
  have hr0 := Int.emod_nonneg n hk.hi_pos.ne'
  have hrlt := Int.emod_lt_of_pos n hk.hi_pos
  have hd := hk.divisor
  have hdHi := hk.hi_lt
  have hdHi0 := hk.hi_pos
  have hdLo := hk.lo_lt
  have hdLo0 := hk.lo_nonneg
  have hleft := hk.left_lt
  -- the values before the fine tuning
  have hq : wrap (n / dHi * dHi) = n / dHi * dHi := hw.of_lt (mul_nonneg hq0 hdHi0.le) hb1
  have hr : wrap (n - n / dHi * dHi) = n % dHi := by
    rw [show n - n / dHi * dHi = n % dHi by rw [Int.emod_def, Int.mul_comm]]
    exact hw.of_lt hr0 (by omega)
  have hm : wrap (n / dHi * dLo) = n / dHi * dLo := hw.of_lt hk.low_nonneg hb3
  have hs : bitOr (wrap (n % dHi * 2 ^ 16)) n1 = n % dHi * 2 ^ 16 + n1 := by
    rw [hw.of_lt (by omega) (by omega)]
    exact bitOr_shift hr0 hk.digit_nonneg hk.digit_lt
  have htune := fineTune_eq hw (by omega) hk.left_nonneg (by omega) (by omega) hb3
    hk.digit_bounds.1 ⟨Int.emod_nonneg _ (by omega), Int.emod_lt_of_pos _ (by omega)⟩ h1 h2 h3
  unfold udivDigit
  dsimp only
  rw [hq, hr, hm, hs]
  exact Prod.ext htune.1 htune.2

/-- **`udiv_adjusted`** divides the dividend with the halves `nHi` and `nLo`. -/
theorem udivAdjusted_eq {nHi nLo d : ℤ} (hd : 2 ^ 31 ≤ d) (hd' : d < 2 ^ 32) (h0 : 0 ≤ nHi)
    (hlt : nHi < d) (hlo : 0 ≤ nLo) (hlo' : nLo < 2 ^ 32) :
    udivAdjusted wrap nHi nLo d =
      some ((nHi * 2 ^ 32 + nLo) / d, (nHi * 2 ^ 32 + nLo) % d) := by
  have hk : ∀ {n : ℤ} (n1 : ℤ), 0 ≤ n → n < d → 0 ≤ n1 → n1 < 2 ^ 16 →
      Knuth (2 ^ 16) n n1 d (d / 2 ^ 16) (d % 2 ^ 16) := fun _ hn hn' hn1 hn1' =>
    ⟨by omega, by omega, by omega, by omega, by omega, hn, hn', hn1, hn1'⟩
  have hk1 := hk (nLo / 2 ^ 16) h0 hlt (by omega) (by omega)
  have hr0 := Int.emod_nonneg (nHi * 2 ^ 16 + nLo / 2 ^ 16) (show d ≠ 0 by omega)
  have hrlt := Int.emod_lt_of_pos (nHi * 2 ^ 16 + nLo / 2 ^ 16) (show 0 < d by omega)
  have hk2 := hk (nLo % 2 ^ 16) hr0 hrlt (by omega) (by omega)
  have hn : nHi * 2 ^ 32 + nLo = (nHi * 2 ^ 16 + nLo / 2 ^ 16) * 2 ^ 16 + nLo % 2 ^ 16 := by omega
  have hq1 := hk1.digit_bounds
  have hq0 := hk2.digit_bounds
  unfold udivAdjusted
  dsimp only
  rw [if_neg (by omega), udivDigit_eq hw hk1]
  dsimp only
  rw [udivDigit_eq hw hk2]
  dsimp only
  rw [hw.of_lt (by omega) (by omega), bitOr_shift hq1.1 hq0.1 hq0.2, hn,
    ediv_step (a := nHi * 2 ^ 16 + nLo / 2 ^ 16) (by omega),
    emod_step (a := nHi * 2 ^ 16 + nLo / 2 ^ 16)]

end Digits

/-! ### The normalisation -/

/-- A 64-bit number in halves shifted left, from the shifts of the halves. -/
theorem shift_halves {hi lo : ℤ} {k : ℕ} (hk0 : 0 < k) (hk : k < 32) (h0 : 0 ≤ hi)
    (hlo : 0 ≤ lo) (hlo' : lo < 2 ^ 32) : ∃ a b c t, shl hi k = some a ∧
      shr lo (32 - k) = some b ∧ shl lo k = some c ∧ shr hi (32 - k) = some t ∧
      (hi * 2 ^ 32 + lo) * 2 ^ k = t * 2 ^ 64 + bitOr a b * 2 ^ 32 + c ∧ 0 ≤ t ∧
      0 ≤ bitOr a b ∧ bitOr a b < 2 ^ 32 ∧ 0 ≤ c ∧ c < 2 ^ 32 := by
  have hpow : (2 : ℤ) ^ (32 - k) * 2 ^ k = 2 ^ 32 := by
    rw [← pow_add, Nat.sub_add_cancel hk.le]
  have hP : (0 : ℤ) < 2 ^ k := by positivity
  have hQ : (0 : ℤ) < 2 ^ (32 - k) := by positivity
  have hu : ∀ x : ℤ, u32 (x * 2 ^ k) = x % 2 ^ (32 - k) * 2 ^ k := fun x => by
    rw [u32, ← hpow, Int.mul_comm x, Int.mul_comm (2 ^ (32 - k)), Int.mul_emod_mul_of_pos _ _ hP,
      Int.mul_comm]
  have hx0 := Int.emod_nonneg hi hQ.ne'
  have hx := Int.emod_lt_of_pos hi hQ
  have hy0 := Int.emod_nonneg lo hQ.ne'
  have hy := Int.emod_lt_of_pos lo hQ
  have hhi := Int.emod_add_mul_ediv hi (2 ^ (32 - k))
  have hlo2 := Int.emod_add_mul_ediv lo (2 ^ (32 - k))
  have hb0 : 0 ≤ lo / 2 ^ (32 - k) := Int.ediv_nonneg hlo hQ.le
  have hb : lo / 2 ^ (32 - k) < 2 ^ k :=
    Int.ediv_lt_of_lt_mul hQ (by rw [Int.mul_comm, hpow]; exact hlo')
  have hsmall : ∀ x : ℤ, x < 2 ^ (32 - k) → x * 2 ^ k + 2 ^ k ≤ 2 ^ 32 := fun x hx => by
    rw [← hpow, ← add_one_mul]
    exact Int.mul_le_mul_of_nonneg_right hx hP.le
  have hor : bitOr (u32 (hi * 2 ^ k)) (lo / 2 ^ (32 - k)) =
      hi % 2 ^ (32 - k) * 2 ^ k + lo / 2 ^ (32 - k) := by
    rw [hu, bitOr_shift hx0 hb0 hb]
  have hsum0 := mul_nonneg hx0 hP.le
  have hsum := hsmall _ hx
  refine ⟨_, _, _, _, if_pos hk, if_pos (by omega), if_pos hk, if_pos (by omega), ?_,
    Int.ediv_nonneg h0 hQ.le, ?_⟩
  · rw [hor, hu]
    linear_combination (hi / 2 ^ (32 - k) * 2 ^ 32 + lo / 2 ^ (32 - k)) * hpow -
      2 ^ 32 * 2 ^ k * hhi - 2 ^ k * hlo2
  · rw [hor, hu]
    have h1 := mul_nonneg hy0 hP.le
    have h2 := hsmall _ hy
    omega

section Digits
variable {wrap : ℤ → ℤ} (hw : Wraps wrap)
include hw

/-- **The normalisation** scales dividend and divisor by `2 ^ bm`, and leaves a last step with the
normalised divisor. -/
theorem normalize_eq {nHi nLo d : ℤ} {bm : ℕ} (hd : 0 < d) (hbm : bm ≤ 31)
    (hnorm : 2 ^ 31 ≤ d * 2 ^ bm) (hnorm' : d * 2 ^ bm < 2 ^ 32)
    (h0 : 0 ≤ nHi) (hlt : nHi < 2 ^ 32) (hlo : 0 ≤ nLo) (hlo' : nLo < 2 ^ 32) :
    ∃ hi lo q, normalize wrap nHi nLo d bm = some (d * 2 ^ bm, hi, lo, q) ∧
      0 ≤ hi ∧ hi < d * 2 ^ bm ∧ 0 ≤ lo ∧ lo < 2 ^ 32 ∧ 0 ≤ q ∧
      (nHi * 2 ^ 32 + nLo) * 2 ^ bm = q * 2 ^ 32 * (d * 2 ^ bm) + (hi * 2 ^ 32 + lo) := by
  have hshl : shl d bm = some (d * 2 ^ bm) := by
    rw [shl, if_pos (by omega), wraps_u32.of_lt (by omega) hnorm']
  rcases Nat.eq_zero_or_pos bm with rfl | hpos
  · rw [pow_zero, Int.mul_one] at hnorm hnorm' ⊢
    unfold normalize
    by_cases hcmp : nHi < d
    · rw [if_pos hcmp, if_neg (by simp)]
      exact ⟨_, _, _, rfl, h0, hcmp, hlo, hlo', le_rfl, by ring⟩
    · rw [if_neg hcmp, if_pos rfl, wraps_u32.of_lt (by omega) (by omega)]
      exact ⟨_, _, _, rfl, by omega, by omega, hlo, hlo', by omega, by ring⟩
  · obtain ⟨a, b, c, t, ha, hb, hc, ht, heq, ht0, hab0, hab, hc0, hc'⟩ :=
      shift_halves hpos (by omega) h0 hlo hlo'
    have hP : (0 : ℤ) < 2 ^ bm := by positivity
    unfold normalize
    by_cases hcmp : nHi < d
    · have hsmall : (nHi * 2 ^ 32 + nLo) * 2 ^ bm < d * 2 ^ bm * 2 ^ 32 := by
        have := mul_lt_mul_of_pos_right (show nHi * 2 ^ 32 + nLo < d * 2 ^ 32 by omega) hP
        linarith
      -- nothing is shifted out of the top
      have ht0' : t = 0 := by omega
      rw [if_pos hcmp, if_pos hpos.ne', hshl, ha, hb, hc]
      refine ⟨_, _, _, rfl, hab0, by omega, hc0, hc', le_rfl, ?_⟩
      rw [heq, ht0']
      ring
    · have htop : t < d * 2 ^ bm := by
        have h1 := mul_lt_mul_of_pos_right (show nHi * 2 ^ 32 + nLo < 2 ^ 64 by omega) hP
        have h2 : (2 : ℤ) ^ bm ≤ 2 ^ 31 := pow_le_pow_right₀ (by norm_num) hbm
        omega
      have hdiv := udivAdjusted_eq hw hnorm hnorm' ht0 htop hab0 hab
      have hr0 := Int.emod_nonneg (t * 2 ^ 32 + bitOr a b) (show d * 2 ^ bm ≠ 0 by omega)
      have hr := Int.emod_lt_of_pos (t * 2 ^ 32 + bitOr a b) (show 0 < d * 2 ^ bm by omega)
      have hq := Int.ediv_nonneg (show 0 ≤ t * 2 ^ 32 + bitOr a b by omega)
        (show 0 ≤ d * 2 ^ bm by omega)
      rw [if_neg hcmp, if_neg hpos.ne', hshl, ha, hb, hc, ht]
      dsimp only [Option.bind_eq_bind, Option.bind_some]
      rw [hdiv]
      refine ⟨_, _, _, rfl, hr0, hr, hc0, hc', hq, ?_⟩
      linear_combination heq - 2 ^ 32 * Int.emod_add_mul_ediv (t * 2 ^ 32 + bitOr a b) (d * 2 ^ bm)

/-- `umoddiv32` divides, whichever reduction `udiv_adjusted` uses. -/
theorem umoddiv32_wraps {n d : ℤ} (hn : 0 ≤ n) (hn' : n < 2 ^ 64) (hd : 0 < d)
    (hd' : d < 2 ^ 32) : umoddiv32 wrap n d = some (n / d, n % d) := by
  have hhi : u32 (n / 2 ^ 32) = n / 2 ^ 32 := wraps_u32.of_lt (by omega) (by omega)
  have hsplit : n = n / 2 ^ 32 * 2 ^ 32 + u32 n := by unfold u32; omega
  have hlo0 : 0 ≤ u32 n := by unfold u32; omega
  have hlo : u32 n < 2 ^ 32 := by unfold u32; omega
  unfold umoddiv32
  dsimp only
  rw [hhi]
  by_cases h0 : n / 2 ^ 32 = 0
  · have : u32 n = n := by omega
    rw [if_pos (Or.inr h0), if_neg hd.ne', this]
  · obtain ⟨hbm, hnorm, hnorm'⟩ := stdcLeadingZerosui_spec hd hd'
    obtain ⟨hi, lo, q, hres, hhi0, hhi', hlo0', hlo', hq0, heq⟩ :=
      normalize_eq hw hd hbm hnorm hnorm' (show 0 ≤ n / 2 ^ 32 by omega) (by omega) hlo0 hlo
    rw [if_neg (by omega), hres]
    dsimp only [Option.bind_eq_bind, Option.bind_some]
    rw [udivAdjusted_eq hw hnorm hnorm' hhi0 hhi' hlo0' hlo']
    dsimp only [Option.bind_eq_bind, Option.bind_some]
    rw [← hsplit] at heq
    have hP : (0 : ℤ) < 2 ^ stdcLeadingZerosui d := by positivity
    have hM0 : 0 ≤ hi * 2 ^ 32 + lo := by omega
    have hquot : n / d = q * 2 ^ 32 + (hi * 2 ^ 32 + lo) / (d * 2 ^ stdcLeadingZerosui d) := by
      rw [← Int.mul_ediv_mul_of_pos_left n d hP, heq, Int.add_comm,
        Int.add_mul_ediv_right _ _ (by omega), Int.add_comm]
    have hrem : (hi * 2 ^ 32 + lo) % (d * 2 ^ stdcLeadingZerosui d) =
        n % d * 2 ^ stdcLeadingZerosui d := by
      have h := Int.mul_emod_mul_of_pos n d hP
      rw [Int.mul_comm _ n, Int.mul_comm _ d, heq, Int.add_comm, Int.add_mul_emod_self_right] at h
      rw [h, Int.mul_comm]
    have hdig := Int.ediv_nonneg hM0 (show 0 ≤ d * 2 ^ stdcLeadingZerosui d by omega)
    have hdig' : (hi * 2 ^ 32 + lo) / (d * 2 ^ stdcLeadingZerosui d) < 2 ^ 32 :=
      Int.ediv_lt_of_lt_mul (by omega) (by omega)
    rw [hrem, bitOr_shift hq0 hdig hdig', ← hquot, shr, if_pos (by omega),
      Int.mul_ediv_cancel _ hP.ne']
    rfl

end Digits

/-! ### The division -/

/-- **The software division agrees with the hardware.** For every 64-bit dividend and every 32-bit
divisor that is not 0, `umoddiv32` returns (no shift by 32 or more, no division by 0) the quotient
and the remainder, as the version of `common.h` does; and `udiv_adjusted` gives on `uint32_t` what
it gives without any wrapping. -/
theorem umoddiv32_eq {n d : ℤ} (hn : 0 ≤ n) (hn' : n < 2 ^ 64) (hd : 0 < d) (hd' : d < 2 ^ 32) :
    umoddiv32 u32 n d = some (n / d, n % d) ∧ umoddiv32 u32 n d = umoddiv32Platform n d ∧
      umoddiv32 u32 n d = umoddiv32 id n d := by
  have hrem : u32 (n % d) = n % d := by
    refine wraps_u32.of_lt (Int.emod_nonneg _ hd.ne') ?_
    have := Int.emod_lt_of_pos n hd
    omega
  refine ⟨umoddiv32_wraps wraps_u32 hn hn' hd hd', ?_, ?_⟩
  · rw [umoddiv32_wraps wraps_u32 hn hn' hd hd', umoddiv32Platform, if_neg hd.ne', hrem]
  · rw [umoddiv32_wraps wraps_u32 hn hn' hd hd', umoddiv32_wraps wraps_id hn hn' hd hd']

/-- A dividend whose first digit is estimated two too big. -/
theorem umoddiv32_eq_corrected :
    umoddiv32 u32 0xb0992553c9650000 0xb099fdf5 = some (0xfffec5f9, 0x7f1973b3) :=
  (umoddiv32_eq (by decide) (by decide) (by decide) (by decide)).1

end Noc.Support.Umoddiv
