import Mathlib
import Noc.Lib.Generator

/-! # Words as vectors

The words of `w` bits with the exclusive or as addition are a vector space over two elements
(`Word`). Shifts and rotations are linear in it. -/

namespace Noc.Lib.Xor

open Noc.Lib.Generator

variable {w : ℕ}

/-- A word; its sum with another one is their exclusive or. -/
@[ext]
structure Word (w : ℕ) where
  bits : BitVec w
deriving DecidableEq

namespace Word

instance : Zero (Word w) := ⟨⟨0⟩⟩
instance : Add (Word w) := ⟨fun a b => ⟨a.bits ^^^ b.bits⟩⟩
instance : Neg (Word w) := ⟨id⟩

@[simp] theorem bits_zero : (0 : Word w).bits = 0 := rfl
@[simp] theorem bits_add (a b : Word w) : (a + b).bits = a.bits ^^^ b.bits := rfl

instance : AddCommGroup (Word w) where
  add_assoc a b c := by ext1; simp [BitVec.xor_assoc]
  zero_add a := by ext1; simp
  add_zero a := by ext1; simp
  add_comm a b := by ext1; simp [BitVec.xor_comm]
  neg_add_cancel a := by ext1; exact BitVec.xor_self
  nsmul := nsmulRec
  zsmul := zsmulRec

instance : Module (ZMod 2) (Word w) := AddCommGroup.zmodModule fun a => by
  rw [two_nsmul]
  ext1
  exact BitVec.xor_self

/-- A word by its number. -/
def equivFin (w : ℕ) : Word w ≃ Fin (2 ^ w) where
  toFun a := a.bits.toFin
  invFun i := ⟨BitVec.ofFin i⟩
  left_inv _ := rfl
  right_inv _ := rfl

instance : Fintype (Word w) := Fintype.ofEquiv _ (equivFin w).symm

theorem card_word (w : ℕ) : Fintype.card (Word w) = 2 ^ w := by
  rw [Fintype.card_congr (equivFin w), Fintype.card_fin]

end Word

/-! ### Rotations -/

/-- A rotation moves each bit, so it is linear. -/
theorem rotl_xor (x y : BitVec w) (k : ℕ) : rotl (x ^^^ y) k = rotl x k ^^^ rotl y k := by
  refine BitVec.eq_of_getLsbD_eq fun i hi => ?_
  unfold rotl
  simp only [BitVec.getLsbD_or, BitVec.getLsbD_ushiftRight, BitVec.getLsbD_shiftLeft,
    BitVec.getLsbD_xor, hi, decide_true, Bool.true_and]
  by_cases hlow : i < k
  · simp [hlow]
  · have hout : ∀ z : BitVec w, z.getLsbD (w - k + i) = false := fun z =>
      BitVec.getLsbD_of_ge z _ (by omega)
    simp [hlow, hout]

end Noc.Lib.Xor
