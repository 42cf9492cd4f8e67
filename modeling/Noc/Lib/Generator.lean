import Mathlib.Logic.Function.Iterate
import Mathlib.Data.Nat.Notation
import Mathlib.Tactic.SplitIfs
import Mathlib.Tactic.TypeStar

/-! # Generators with an escape from zero

A generator is a map `f` that is iterated. A map that is injective and keeps a state `zero` never
gets there from another state; a generator that may start at `zero` therefore takes some other
state `start` in its place (`escape`). Then

* no state after a step is `zero` (`iterate_succ_ne`), so it escapes in the first step only;
* two states have the same successors exactly if the first step takes them for the same
  (`iterate_succ_eq_iff`).

`rotl` is the rotation of a word, written with shifts; it has an inverse, `rotr`. -/

namespace Noc.Lib.Generator

/-! ### Rotations -/

variable {w : ℕ}

/-- `x` with its bits rotated by `k` places to the left. -/
def rotl (x : BitVec w) (k : ℕ) : BitVec w := x <<< k ||| x >>> (w - k)

/-- `x` with its bits rotated by `k` places to the right. -/
def rotr (x : BitVec w) (k : ℕ) : BitVec w := x >>> k ||| x <<< (w - k)

theorem rotr_rotl {k : ℕ} (hk : k ≤ w) (x : BitVec w) : rotr (rotl x k) k = x := by
  refine BitVec.eq_of_getLsbD_eq fun i hi => ?_
  unfold rotr rotl
  simp only [BitVec.getLsbD_or, BitVec.getLsbD_ushiftRight, BitVec.getLsbD_shiftLeft]
  by_cases hlow : i < w - k
  · -- bit `i` has been moved up
    have hbig : x.getLsbD (w - k + (k + i)) = false := BitVec.getLsbD_of_ge x _ (by omega)
    simp [hbig, hlow, show k + i < w by omega]
  · have hbig : x.getLsbD (w - k + (k + i)) = false := BitVec.getLsbD_of_ge x _ (by omega)
    simp [hbig, hlow, hi, show ¬ k + i < w by omega, show i - (w - k) < k by omega,
      show w - k + (i - (w - k)) = i by omega]

theorem rotl_injective {k : ℕ} (hk : k ≤ w) : Function.Injective fun x : BitVec w => rotl x k :=
  Function.LeftInverse.injective (g := fun x => rotr x k) (rotr_rotl hk)

/-! ### Escapes -/

variable {α : Type*} [DecidableEq α]

/-- `start` in place of `zero`. -/
def escape (zero start x : α) : α := if x = zero then start else x

variable {f : α → α} {zero start : α}

theorem escape_ne (hstart : start ≠ zero) (x : α) : escape zero start x ≠ zero := by
  unfold escape
  split_ifs with h
  · exact hstart
  · exact h

theorem escape_of_ne {x : α} (h : x ≠ zero) : escape zero start x = x := if_neg h

section Injective
variable (hf : Function.Injective f) (hzero : f zero = zero) (hstart : start ≠ zero)
include hf hzero hstart

theorem step_ne (x : α) : f (escape zero start x) ≠ zero := by
  intro h
  exact escape_ne hstart x (hf (h.trans hzero.symm))

/-- **No state after a step is `zero`.** -/
theorem iterate_succ_ne (k : ℕ) (x : α) :
    (fun x => f (escape zero start x))^[k + 1] x ≠ zero := by
  rw [Function.iterate_succ_apply']
  exact step_ne hf hzero hstart _

/-- The first step escapes, the others are `f`. -/
theorem iterate_succ_eq (k : ℕ) (x : α) :
    (fun x => f (escape zero start x))^[k + 1] x = f^[k + 1] (escape zero start x) := by
  induction k with
  | zero => rfl
  | succ k ih =>
    have hne := iterate_succ_ne hf hzero hstart k x
    rw [Function.iterate_succ_apply', escape_of_ne hne, ih, ← Function.iterate_succ_apply' f]

/-- **Two runs are never in the same state**, unless their first step takes the states they start
from for the same. -/
theorem iterate_succ_eq_iff (k : ℕ) (x y : α) :
    (fun x => f (escape zero start x))^[k + 1] x = (fun x => f (escape zero start x))^[k + 1] y ↔
      escape zero start x = escape zero start y := by
  rw [iterate_succ_eq hf hzero hstart, iterate_succ_eq hf hzero hstart]
  exact (hf.iterate (k + 1)).eq_iff

end Injective

end Noc.Lib.Generator
