import Noc.Lib.Gf2

/-! # Maximal cycles

A map `f` on a finite type that keeps a point `zero` has a *full cycle* if all other points lie on
one cycle (`FullCycle`). Then a run from any of them is in every other one once before it repeats
(`FullCycle.existsUnique`), so what is counted along the cycle can be counted on the points
(`FullCycle.card_filter`).

* `fullCycle_of_period`: one point with the maximal period is enough.
* `minimalPeriod_eq_of_primes`: a period is the least if none of its quotients by a prime is one.
* `fullCycle_of_linear`: for a map that is linear over two elements, both can be computed with the
  polynomials of `Noc.Lib.Gf2`. `FullCycle.of_equiv` is for a map that is so in some coordinates. -/

namespace Noc.Lib.Cycle

open Function Noc.Lib.Gf2

variable {α : Type*} {f : α → α} {zero x y : α} {n : ℕ}

/-! ### Periods -/

/-- **The least period**, by the prime factors of a period. -/
theorem minimalPeriod_eq_of_primes (hx : f^[n] x = x)
    (hprime : ∀ q, q.Prime → q ∣ n → f^[n / q] x ≠ x) : minimalPeriod f x = n := by
  have hdvd : minimalPeriod f x ∣ n := IsPeriodicPt.minimalPeriod_dvd hx
  by_contra hne
  obtain ⟨m, hm⟩ := hdvd
  have hm1 : m ≠ 1 := by
    intro h1
    rw [h1, mul_one] at hm
    exact hne hm.symm
  obtain ⟨q, hq, r, hr⟩ := Nat.exists_prime_and_dvd hm1
  have hquot : n / q = minimalPeriod f x * r := by
    rw [hm, hr, mul_left_comm]
    exact Nat.mul_div_cancel_left _ hq.pos
  refine hprime q hq ⟨minimalPeriod f x * r, ?_⟩ ?_
  · rw [hm, hr, mul_left_comm]
  · rw [hquot]
    exact (isPeriodicPt_minimalPeriod f x).mul_const r

/-! ### Full cycles -/

/-- All points but `zero` are on one cycle of length `n`. -/
structure FullCycle (f : α → α) (zero : α) (n : ℕ) : Prop where
  pos : 0 < n
  ne : ∀ x, x ≠ zero → ∀ k, f^[k] x ≠ zero
  period : ∀ x, x ≠ zero → minimalPeriod f x = n
  reach : ∀ x, x ≠ zero → ∀ y, y ≠ zero → ∃ k < n, f^[k] x = y

/-- **One point with as large a period as there are points is enough.** -/
theorem fullCycle_of_period [Fintype α] [DecidableEq α] (hcard : Fintype.card α = n + 1)
    (hn : 0 < n) (hzero : f zero = zero) (hx0 : x ≠ zero) (hx : minimalPeriod f x = n) :
    FullCycle f zero n := by
  have hper : ∀ k, minimalPeriod f (f^[k] x) = n := by
    intro k
    rw [minimalPeriod_apply_iterate (minimalPeriod_pos_iff_mem_periodicPts.mp (hx ▸ hn)), hx]
  have hxn : f^[n] x = x := hx ▸ iterate_minimalPeriod
  -- from `zero` there would be no way back
  have hne : ∀ k, f^[k] x ≠ zero := by
    intro k hk
    have hfix : f^[n - k % n + k] x = zero := by
      rw [iterate_add_apply, hk]
      exact iterate_fixed hzero _
    have hback : f^[n - k % n + k] x = x := by
      have hdvd : n ∣ n - k % n + k := by
        have hmod := Nat.mod_lt k hn
        have hdiv := Nat.div_add_mod k n
        refine ⟨k / n + 1, ?_⟩
        rw [mul_add, mul_one]
        omega
      exact IsPeriodicPt.trans_dvd (f := f) (x := x) hxn hdvd
    exact hx0 (hback.symm.trans hfix)
  -- the points of the orbit are as many as the points that are not `zero`
  have horbit : (Finset.range n).image (fun k => f^[k] x) = Finset.univ.erase zero := by
    refine Finset.eq_of_subset_of_card_le ?_ ?_
    · intro y hy
      obtain ⟨k, -, rfl⟩ := Finset.mem_image.mp hy
      exact Finset.mem_erase.mpr ⟨hne k, Finset.mem_univ _⟩
    · rw [Finset.card_erase_of_mem (Finset.mem_univ _), Finset.card_univ, hcard,
        Finset.card_image_of_injOn, Finset.card_range]
      · omega
      · intro i hi j hj hij
        have hi' : i < minimalPeriod f x := hx ▸ Finset.mem_range.mp hi
        have hj' : j < minimalPeriod f x := hx ▸ Finset.mem_range.mp hj
        exact (iterate_eq_iterate_iff_of_lt_minimalPeriod hi' hj').mp hij
  have hmem : ∀ y, y ≠ zero → ∃ k < n, f^[k] x = y := by
    intro y hy
    have hin : y ∈ (Finset.range n).image (fun k => f^[k] x) := by
      rw [horbit]
      exact Finset.mem_erase.mpr ⟨hy, Finset.mem_univ _⟩
    obtain ⟨k, hk, rfl⟩ := Finset.mem_image.mp hin
    exact ⟨k, Finset.mem_range.mp hk, rfl⟩
  constructor
  · exact hn
  · intro y hy k
    obtain ⟨j, -, rfl⟩ := hmem y hy
    rw [← iterate_add_apply]
    exact hne _
  · intro y hy
    obtain ⟨j, -, rfl⟩ := hmem y hy
    exact hper j
  · intro y hy z hz
    obtain ⟨i, hi, rfl⟩ := hmem y hy
    obtain ⟨j, hj, rfl⟩ := hmem z hz
    have hyn : IsPeriodicPt f n x := hxn
    refine ⟨(n - i + j) % n, Nat.mod_lt _ hn, ?_⟩
    rw [(hyn.apply_iterate i).iterate_mod_apply, ← iterate_add_apply,
      show n - i + j + i = j + n by omega, iterate_add_apply, hxn]

namespace FullCycle
variable (hc : FullCycle f zero n)
include hc

theorem iterate_eq_self_iff (hx : x ≠ zero) (k : ℕ) : f^[k] x = x ↔ n ∣ k := by
  rw [← hc.period x hx]
  exact isPeriodicPt_iff_minimalPeriod_dvd

/-- **Every point is reached once** before the run repeats. -/
theorem existsUnique (hx : x ≠ zero) (hy : y ≠ zero) : ∃! k, k < n ∧ f^[k] x = y := by
  obtain ⟨k, hk, hky⟩ := hc.reach x hx y hy
  refine ⟨k, ⟨hk, hky⟩, ?_⟩
  rintro j ⟨hj, hjy⟩
  have hper := hc.period x hx
  exact (iterate_eq_iterate_iff_of_lt_minimalPeriod (hper ▸ hj) (hper ▸ hk)).mp
    (hjy.trans hky.symm)

/-- **Counting along the cycle** is counting the points. -/
theorem card_filter [Fintype α] [DecidableEq α] (hx : x ≠ zero) (P : α → Prop) [DecidablePred P] :
    ((Finset.range n).filter fun k => P (f^[k] x)).card =
      (Finset.univ.filter fun y => y ≠ zero ∧ P y).card := by
  refine Finset.card_bij (fun k _ => f^[k] x) ?_ ?_ ?_
  · intro k hk
    exact Finset.mem_filter.mpr
      ⟨Finset.mem_univ _, hc.ne x hx k, (Finset.mem_filter.mp hk).2⟩
  · intro i hi j hj hij
    have hper := hc.period x hx
    have hi' := Finset.mem_range.mp (Finset.mem_filter.mp hi).1
    have hj' := Finset.mem_range.mp (Finset.mem_filter.mp hj).1
    exact (iterate_eq_iterate_iff_of_lt_minimalPeriod (hper ▸ hi') (hper ▸ hj')).mp hij
  · intro y hy
    obtain ⟨-, hy0, hP⟩ := Finset.mem_filter.mp hy
    obtain ⟨k, hk, rfl⟩ := hc.reach x hx y hy0
    exact ⟨k, Finset.mem_filter.mpr ⟨Finset.mem_range.mpr hk, hP⟩, rfl⟩

/-- The same cycle in other coordinates. -/
theorem of_equiv {β : Type*} {g : β → β} (e : β ≃ α) (he : ∀ x, e (g x) = f (e x)) :
    FullCycle g (e.symm zero) n := by
  have hiter : ∀ k x, e (g^[k] x) = f^[k] (e x) := fun k x =>
    (show Semiconj e g f from he).iterate_right k x
  have hne : ∀ x, x ≠ e.symm zero → e x ≠ zero := by
    intro x hx hzero
    exact hx (e.symm_apply_eq.mpr hzero.symm).symm
  constructor
  · exact hc.pos
  · intro x hx k hk
    refine hc.ne (e x) (hne x hx) k ?_
    rw [← hiter, hk, e.apply_symm_apply]
  · intro x hx
    rw [← hc.period (e x) (hne x hx), minimalPeriod_eq_minimalPeriod_iff]
    intro k
    exact e.injective.eq_iff.symm.trans (by rw [hiter]; exact Iff.rfl)
  · intro x hx y hy
    obtain ⟨k, hk, hky⟩ := hc.reach (e x) (hne x hx) (e y) (hne y hy)
    exact ⟨k, hk, e.injective (by rw [hiter, hky])⟩

end FullCycle

/-! ### Linear maps -/

section Linear
variable {V : Type*} [AddCommGroup V] [Module (ZMod 2) V] [Fintype V] {T : V →ₗ[ZMod 2] V} {v : V}
variable {p w : ℕ} {qs : List ℕ}

/-- **A full cycle by computation.** The polynomial `p` of degree `w` is zero at `T` and `v`; and
the product of the primes `qs`, as large as there are vectors that are not zero, is the order of `X`
modulo `p`. -/
theorem fullCycle_of_linear (hv : v ≠ 0) (hqs : ∀ q ∈ qs, q.Prime)
    (hcard : Fintype.card V = qs.prod + 1) (hp : p < 2 ^ (w + 1))
    (hzero : horner T v (w + 1) p = 0) (hone : powX p w qs.prod = 1)
    (hlt : ∀ q ∈ qs, powX p w (qs.prod / q) < 2 ^ (w + 1))
    (hne : ∀ q ∈ qs, horner T v (w + 1) (powX p w (qs.prod / q)) ≠ v) :
    FullCycle T 0 qs.prod := by
  classical
  have hpos : 0 < qs.prod := List.prod_pos fun q hq => (hqs q hq).pos
  have hback : T^[qs.prod] v = v := by
    have h1 : (1 : ℕ) < 2 ^ (w + 1) := Nat.one_lt_two_pow (by omega)
    rw [iterate_eq_horner T v hp hzero (by rw [hone]; exact h1), hone, horner_eq_aeval T v h1]
    simp
  refine fullCycle_of_period hcard hpos (map_zero T) hv (minimalPeriod_eq_of_primes hback ?_)
  intro q hq hdvd
  have hmem : q ∈ qs := mem_list_primes_of_dvd_prod hq.prime (fun q hq => (hqs q hq).prime) hdvd
  rw [iterate_eq_horner T v hp hzero (hlt q hmem)]
  exact hne q hmem

end Linear

end Noc.Lib.Cycle
