import Mathlib

/-! # Polynomials over two elements, as numbers

The bits of a number are the coefficients of a polynomial over `ZMod 2` (`poly`). Addition is the
exclusive or of the numbers; `mulX`, `mulMod` and `powX` compute the products with `X`, products and
powers of `X` modulo a polynomial `p` of degree `w`.

A polynomial is evaluated at a linear map `T` and a vector `v` by `horner`. If `p` is zero there,
only the remainder modulo `p` matters, so a far iterate of `T` can be computed:
`T^[n] v = horner T v w (powX p w n)` (`iterate_eq_horner`). -/

namespace Noc.Lib.Gf2

open Polynomial

/-! ### Numbers as polynomials -/

/-- The polynomial whose coefficients are the bits of `a`. -/
noncomputable def poly (a : ℕ) : (ZMod 2)[X] :=
  ∑ i ∈ Finset.range a, if a.testBit i then X ^ i else 0

theorem coeff_poly (a i : ℕ) : (poly a).coeff i = if a.testBit i then 1 else 0 := by
  unfold poly
  rw [finsetSum_coeff]
  have hterm : ∀ j, ((if a.testBit j then X ^ j else 0 : (ZMod 2)[X])).coeff i =
      if i = j then (if a.testBit i then 1 else 0) else 0 := by
    intro j
    by_cases hij : i = j
    · subst hij
      cases a.testBit i <;> simp
    · cases a.testBit j <;> simp [hij]
  simp only [hterm, Finset.sum_ite_eq, Finset.mem_range]
  by_cases hi : i < a
  · simp [hi]
  · have hlt : a < 2 ^ i := lt_of_le_of_lt (Nat.le_of_not_lt hi) Nat.lt_two_pow_self
    simp [hi, Nat.testBit_lt_two_pow hlt]

@[simp] theorem poly_zero : poly 0 = 0 := rfl

@[simp] theorem poly_one : poly 1 = 1 := by
  simp [poly]

theorem poly_xor (a b : ℕ) : poly (a ^^^ b) = poly a + poly b := by
  ext i
  rw [coeff_add, coeff_poly, coeff_poly, coeff_poly, Nat.testBit_xor]
  cases a.testBit i <;> cases b.testBit i <;> decide

theorem poly_two_mul (a : ℕ) : poly (2 * a) = X * poly a := by
  ext i
  cases i with
  | zero => simp [coeff_poly]
  | succ i =>
    rw [coeff_X_mul, coeff_poly, coeff_poly, Nat.testBit_succ,
      Nat.mul_div_cancel_left a (by decide)]

/-- The lowest bit, and the others. -/
theorem poly_eq (a : ℕ) : poly a = poly (a % 2) + X * poly (a / 2) := by
  rw [← poly_two_mul, ← poly_xor]
  congr 1
  refine Nat.eq_of_testBit_eq fun i => ?_
  cases i with
  | zero => simp [Nat.testBit_zero]
  | succ i =>
    have hlow : (a % 2).testBit (i + 1) = false :=
      Nat.testBit_lt_two_pow ((Nat.mod_lt a two_pos).trans_le (Nat.le_self_pow (by simp) 2))
    rw [Nat.testBit_xor, hlow]
    simp [Nat.testBit_succ]

/-! ### Arithmetic modulo a polynomial -/

section Mod
variable (p w : ℕ)

/-- `X * a` modulo `p`. -/
def mulX (a : ℕ) : ℕ := (2 * a) ^^^ (2 * a / 2 ^ w % 2 * p)

/-- `a * b` modulo `p`, for an `a` of `k` bits. -/
def mulMod (b : ℕ) : ℕ → ℕ → ℕ
  | 0, _ => 0
  | k + 1, a => (a % 2 * b) ^^^ mulX p w (mulMod b k (a / 2))

/-- `a * a` modulo `p`. -/
def square (a : ℕ) : ℕ := mulMod p w a (a.log2 + 1) a

/-- `X ^ n` modulo `p`, for an `n` of `k` bits. -/
def powLoop : ℕ → ℕ → ℕ
  | 0, _ => 1
  | k + 1, n => if n % 2 = 1 then mulX p w (square p w (powLoop k (n / 2)))
    else square p w (powLoop k (n / 2))

/-- `X ^ n` modulo `p`. -/
def powX (n : ℕ) : ℕ := powLoop p w (n.log2 + 1) n

end Mod

variable {p w : ℕ}

theorem poly_bit_mul (b c : ℕ) : poly (b % 2 * c) = poly (b % 2) * poly c := by
  rcases Nat.mod_two_eq_zero_or_one b with h | h <;> simp [h]

theorem mk_mulX (a : ℕ) : AdjoinRoot.mk (poly p) (poly (mulX p w a)) =
    AdjoinRoot.mk (poly p) (X * poly a) := by
  unfold mulX
  rw [poly_xor, poly_two_mul, poly_bit_mul, map_add, map_mul _ (poly _) (poly p),
    AdjoinRoot.mk_self, mul_zero, add_zero]

theorem mk_mulMod (b : ℕ) : ∀ {k a : ℕ}, a < 2 ^ k →
    AdjoinRoot.mk (poly p) (poly (mulMod p w b k a)) = AdjoinRoot.mk (poly p) (poly a * poly b)
  | 0, a, ha => by
    obtain rfl : a = 0 := by omega
    simp [mulMod]
  | k + 1, a, ha => by
    have ih := mk_mulMod b (show a / 2 < 2 ^ k by omega)
    rw [mulMod, poly_xor, poly_bit_mul, map_add, mk_mulX, map_mul _ X, ih, poly_eq a, add_mul,
      map_add, mul_assoc, map_mul _ X]

theorem mk_square (a : ℕ) : AdjoinRoot.mk (poly p) (poly (square p w a)) =
    AdjoinRoot.mk (poly p) (poly a) ^ 2 := by
  unfold square
  rw [mk_mulMod a Nat.lt_log2_self, map_mul, pow_two]

theorem mk_powLoop : ∀ {k n : ℕ}, n < 2 ^ k →
    AdjoinRoot.mk (poly p) (poly (powLoop p w k n)) = AdjoinRoot.mk (poly p) (X ^ n)
  | 0, n, hn => by
    obtain rfl : n = 0 := by omega
    simp [powLoop]
  | k + 1, n, hn => by
    have ih := mk_powLoop (show n / 2 < 2 ^ k by omega)
    rw [powLoop]
    split_ifs with hbit
    · have hsplit : n = n / 2 * 2 + 1 := by omega
      rw [mk_mulX, map_mul, mk_square, ih, ← map_pow, ← map_mul, ← pow_mul, ← pow_succ', ← hsplit]
    · have hsplit : n = n / 2 * 2 := by omega
      rw [mk_square, ih, ← map_pow, ← pow_mul, ← hsplit]

/-- **The power of `X` modulo `p`.** -/
theorem dvd_powX_sub (p w n : ℕ) : poly p ∣ poly (powX p w n) - X ^ n :=
  AdjoinRoot.mk_eq_mk.mp (mk_powLoop Nat.lt_log2_self)

/-! ### Evaluation -/

section Horner
variable {V : Type*} [AddCommGroup V]

/-- The polynomial of the `k` lowest bits of `a`, at a map `f` and a vector `v`. -/
def horner (f : V → V) (v : V) : ℕ → ℕ → V
  | 0, _ => 0
  | k + 1, a => (if a % 2 = 1 then v else 0) + f (horner f v k (a / 2))

variable [Module (ZMod 2) V] (T : V →ₗ[ZMod 2] V) (v : V)

theorem horner_eq_aeval : ∀ {k a : ℕ}, a < 2 ^ k → horner T v k a = aeval T (poly a) v
  | 0, a, ha => by
    obtain rfl : a = 0 := by omega
    simp [horner]
  | k + 1, a, ha => by
    have hbit : (if a % 2 = 1 then v else 0) = aeval T (poly (a % 2)) v := by
      rcases Nat.mod_two_eq_zero_or_one a with h | h <;> simp [h]
    rw [horner, horner_eq_aeval (show a / 2 < 2 ^ k by omega), hbit, poly_eq a, map_add, map_mul]
    simp

/-- **A far iterate**, if `p` is zero at `T` and `v`. -/
theorem iterate_eq_horner {k n : ℕ} (hp : p < 2 ^ k) (hzero : horner T v k p = 0)
    (hn : powX p w n < 2 ^ k) : T^[n] v = horner T v k (powX p w n) := by
  obtain ⟨r, hr⟩ := dvd_powX_sub p w n
  have hpow : aeval T (X ^ n : (ZMod 2)[X]) v = T^[n] v := by
    rw [map_pow, aeval_X, Module.End.pow_apply]
  have hsub : aeval T (poly (powX p w n)) v - aeval T (X ^ n : (ZMod 2)[X]) v = 0 := by
    rw [← LinearMap.sub_apply, ← map_sub, hr, mul_comm, map_mul, Module.End.mul_apply,
      ← horner_eq_aeval T v hp, hzero, map_zero]
  rw [horner_eq_aeval T v hn, ← hpow]
  exact (sub_eq_zero.mp hsub).symm

end Horner

end Noc.Lib.Gf2
