import Mathlib.Data.Nat.Digits.Defs
import Mathlib.Data.Nat.ModEq
import Mathlib.Tactic.Ring

/-! # Numerals read from the left

The value of a list of digits with the most significant digit first, and what a loop gets that takes
the digits one after the other into an accumulator: in arithmetic modulo `m` (`foldl_mod`), and in
arithmetic with an upper bound (`foldlM_bounded`). -/

namespace Noc.Lib.Numeral

variable {b : ℕ}

/-- The value of a numeral in base `b`, most significant digit first. -/
def value (b : ℕ) (ds : List ℕ) : ℕ := Nat.ofDigits b ds.reverse

@[simp] theorem value_nil : value b [] = 0 := rfl

theorem value_append (ds es : List ℕ) :
    value b (ds ++ es) = value b ds * b ^ es.length + value b es := by
  unfold value
  rw [List.reverse_append, Nat.ofDigits_append, List.length_reverse]
  ring

theorem value_cons (d : ℕ) (ds : List ℕ) :
    value b (d :: ds) = d * b ^ ds.length + value b ds := by
  rw [← List.singleton_append, value_append]
  simp [value]

/-- Zeros in front count for nothing. -/
theorem value_zeros_append {zs : List ℕ} (hzs : ∀ d ∈ zs, d = 0) (ds : List ℕ) :
    value b (zs ++ ds) = value b ds := by
  induction zs with
  | nil => rfl
  | cons d zs ih =>
    obtain ⟨hd, hzs⟩ := List.forall_mem_cons.mp hzs
    rw [List.cons_append, value_cons, hd, Nat.zero_mul, Nat.zero_add, ih hzs]

/-- **An accumulator modulo `m`** gets the value modulo `m`. -/
theorem foldl_mod {m n : ℕ} (hn : n < m) (ds : List ℕ) :
    ds.foldl (fun n d => (b * n + d) % m) n = (n * b ^ ds.length + value b ds) % m := by
  induction ds generalizing n with
  | nil => simp [Nat.mod_eq_of_lt hn]
  | cons d ds ih =>
    have hstep : b * n + d ≡ (b * n + d) % m [MOD m] := (Nat.mod_modEq _ _).symm
    rw [List.foldl_cons, ih (Nat.mod_lt _ (by omega)), value_cons, List.length_cons]
    calc ((b * n + d) % m * b ^ ds.length + value b ds) % m
        = ((b * n + d) * b ^ ds.length + value b ds) % m :=
          ((hstep.mul_right _).add_right _).symm
      _ = _ := by ring_nf

/-- One digit more, up to a bound. -/
def bounded (b bound n d : ℕ) : Option ℕ := if b * n + d ≤ bound then some (b * n + d) else none

/-- **An accumulator with a bound** gets the value if it is not above the bound. -/
theorem foldlM_bounded (hb : 0 < b) {bound n : ℕ} (hn : n ≤ bound) (ds : List ℕ) :
    ds.foldlM (bounded b bound) n =
      if n * b ^ ds.length + value b ds ≤ bound then some (n * b ^ ds.length + value b ds)
      else none := by
  induction ds generalizing n with
  | nil => simp [hn]
  | cons d ds ih =>
    have hvalue : n * b ^ (d :: ds).length + value b (d :: ds) =
        (b * n + d) * b ^ ds.length + value b ds := by
      rw [value_cons, List.length_cons]
      ring
    have hpow : 0 < b ^ ds.length := Nat.pow_pos hb
    rw [List.foldlM_cons, hvalue, bounded]
    by_cases h : b * n + d ≤ bound
    · rw [if_pos h]
      exact ih h
    · have hle : b * n + d ≤ (b * n + d) * b ^ ds.length := Nat.le_mul_of_pos_right _ hpow
      rw [if_neg h, if_neg (by omega)]
      rfl

end Noc.Lib.Numeral
