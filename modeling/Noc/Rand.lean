import Noc.Lib.Generator
import Mathlib.Algebra.Group.Nat.Defs
import Mathlib.Data.Int.Notation

/-! # `rand.c`

The generator of the source, with its state passed along: `next` steps it and makes a word, `rand`
scales the word to `int`, `srand` sets both words of the state to the seed. A state of two zeros,
in which it would stay, is replaced in `next` (`next_state`).

* `rand_eq`, `rand_range`: the results, and that they are in the range that is documented.
* `unseeded_iff`: without a seed the results are those after `srand(1)` for one call only.
* `seeds_apart`: after a seed the state is never zero again, and no two seeds ever lead to the same
  state after as many calls. -/

namespace Noc.Rand

open Noc.Lib.Generator

/-! ### The functions of the source -/

/-- `rol32` -/
def rol32 (x : BitVec 32) (k : ℕ) : BitVec 32 := x <<< k ||| x >>> (32 - k)

/-- `rand_state[2]` -/
structure RandState where
  s0 : BitVec 32
  s1 : BitVec 32
deriving DecidableEq, Repr

/-- The state before any call, as static storage is initialized. -/
def unseeded : RandState := ⟨0, 0⟩

/-- `next`, with the state behind it. -/
def next (state : RandState) : BitVec 32 × RandState :=
  let s0 := state.s0
  let s1 := state.s1
  let s0 := if s0 ||| s1 = 0 then 1 else s0
  let result := rol32 (s0 * 0x9E3779BB) 5 * 5
  let s1 := s1 ^^^ s0
  (result, ⟨rol32 s0 26 ^^^ s1 ^^^ s1 <<< 9, rol32 s1 13⟩)

/-- `RAND_MAX` -/
def randMax : ℕ := 2 ^ 31 - 1

/-- `rand`, with the state behind it: the product has 64 bits, and an `int` its lower ones. -/
def rand (state : RandState) : ℤ × RandState :=
  let (r, state) := next state
  (((BitVec.ofNat 64 randMax * r.setWidth 64) >>> 32).setWidth 32 |>.toInt, state)

/-- `srand` -/
def srand (seed : BitVec 32) : RandState := ⟨seed, seed⟩

/-- The results of `k` calls of `rand`, with the state behind them. -/
def rands : ℕ → RandState → List ℤ × RandState
  | 0, state => ([], state)
  | k + 1, state =>
    let (r, state) := rand state
    let (rs, state) := rands k state
    (r :: rs, state)

variable {state : RandState} {seed seed' : BitVec 32} {k : ℕ}

/-! ### Results -/

/-- **The result of `rand`** is the word as a part of 1, times `RAND_MAX`. -/
theorem rand_eq (state : RandState) :
    (rand state).1 = (randMax * (next state).1.toNat / 2 ^ 32 : ℕ) := by
  have hr := (next state).1.isLt
  show BitVec.toInt (BitVec.setWidth 32
    ((BitVec.ofNat 64 randMax * (next state).1.setWidth 64) >>> 32)) = _
  generalize (next state).1 = r at hr ⊢
  have hshift : ((BitVec.ofNat 64 randMax * r.setWidth 64) >>> 32).toNat =
      randMax * r.toNat / 2 ^ 32 := by
    rw [BitVec.toNat_ushiftRight, BitVec.toNat_mul, BitVec.toNat_ofNat, BitVec.toNat_setWidth,
      Nat.shiftRight_eq_div_pow]
    unfold randMax
    omega
  have hword : (((BitVec.ofNat 64 randMax * r.setWidth 64) >>> 32).setWidth 32).toNat =
      randMax * r.toNat / 2 ^ 32 := by
    rw [BitVec.toNat_setWidth, hshift]
    unfold randMax
    omega
  rw [BitVec.toInt_eq_toNat_of_lt, hword]
  rw [hword]
  unfold randMax
  omega

theorem rand_range (state : RandState) : 0 ≤ (rand state).1 ∧ (rand state).1 < randMax := by
  have hr := (next state).1.isLt
  rw [rand_eq]
  unfold randMax
  omega

/-! ### States -/

/-- What `next` makes of a state that is not zero. -/
def mix (state : RandState) : RandState :=
  let s1 := state.s1 ^^^ state.s0
  ⟨rol32 state.s0 26 ^^^ s1 ^^^ s1 <<< 9, rol32 s1 13⟩

/-- The test of `next` for a state in which it would stay. -/
def Escapes (state : RandState) : Prop := state.s0 ||| state.s1 = 0

theorem escapes_iff : Escapes state ↔ state = ⟨0, 0⟩ := by
  obtain ⟨s0, s1⟩ := state
  rw [RandState.mk.injEq]
  exact BitVec.or_eq_zero_iff

theorem next_state (state : RandState) :
    (next state).2 = mix (escape ⟨0, 0⟩ ⟨1, 0⟩ state) := by
  unfold escape
  by_cases h : state = ⟨0, 0⟩
  · rw [if_pos h, h]
    rfl
  · have hne : ¬ state.s0 ||| state.s1 = 0 := fun h0 => h (escapes_iff.mp h0)
    rw [if_neg h]
    unfold next mix
    dsimp only
    rw [if_neg hne]

theorem rol32_injective {k : ℕ} (hk : k ≤ 32) : Function.Injective fun x => rol32 x k :=
  rotl_injective hk

/-- The words of a state can be read off the next one: the second word gives their sum, and that
gives the first. -/
theorem mix_injective : Function.Injective mix := by
  rintro ⟨s0, s1⟩ ⟨t0, t1⟩ h
  obtain ⟨h0, h1⟩ := RandState.mk.inj h
  have hsum : s1 ^^^ s0 = t1 ^^^ t0 := rol32_injective (k := 13) (by omega) h1
  dsimp only at h0
  rw [hsum, BitVec.xor_left_inj, BitVec.xor_left_inj] at h0
  obtain rfl : s0 = t0 := rol32_injective (k := 26) (by omega) h0
  rw [BitVec.xor_left_inj] at hsum
  rw [hsum]

theorem mix_zero : mix ⟨0, 0⟩ = ⟨0, 0⟩ := rfl

/-- The state after `k` calls. -/
theorem rands_state : ∀ (k : ℕ) (state : RandState),
    (rands k state).2 = (fun state => mix (escape ⟨0, 0⟩ ⟨1, 0⟩ state))^[k] state
  | 0, _ => rfl
  | k + 1, state => by
    rw [Function.iterate_succ_apply, ← next_state state]
    exact rands_state k (next state).2

/-- Only the same seed makes the same first step: no seed has the state that is taken for zero. -/
theorem escape_srand_inj (h : escape ⟨0, 0⟩ ⟨1, 0⟩ (srand seed) =
    escape ⟨0, 0⟩ ⟨1, 0⟩ (srand seed')) : seed = seed' := by
  have hone : (1 : BitVec 32) ≠ 0 := by decide
  unfold escape at h
  split_ifs at h with h1 h2 h2
  · exact (RandState.mk.inj (h1.trans h2.symm)).1
  · obtain ⟨h3, h4⟩ := RandState.mk.inj h
    exact absurd (h3.trans h4.symm) hone
  · obtain ⟨h3, h4⟩ := RandState.mk.inj h
    exact absurd (h3.symm.trans h4) hone
  · exact (RandState.mk.inj h).1

/-- **Seeds stay apart**: after a seed, no state behind a call is zero, so only the first call can
escape; and two seeds never lead to the same state after as many calls. -/
theorem seeds_apart (seed : BitVec 32) :
    (∀ k, 1 ≤ k → (rands k (srand seed)).2 ≠ ⟨0, 0⟩ ∧ ¬ Escapes (rands k (srand seed)).2) ∧
    ∀ seed', seed' ≠ seed → ∀ k, (rands k (srand seed')).2 ≠ (rands k (srand seed)).2 := by
  have hstart : (⟨1, 0⟩ : RandState) ≠ ⟨0, 0⟩ := by decide
  constructor
  · intro k hk
    obtain ⟨j, rfl⟩ := Nat.exists_eq_add_of_le' hk
    have hne : (rands (j + 1) (srand seed)).2 ≠ ⟨0, 0⟩ := by
      rw [rands_state]
      exact iterate_succ_ne mix_injective mix_zero hstart j _
    exact ⟨hne, fun h => hne (escapes_iff.mp h)⟩
  · intro seed' hne k h
    rcases k with _ | j
    · exact hne (RandState.mk.inj h).1
    · rw [rands_state, rands_state, iterate_succ_eq_iff mix_injective mix_zero hstart] at h
      exact hne (escape_srand_inj h)

/-- **When an unseeded generator behaves as after `srand(1)`**: for the first call only. -/
theorem unseeded_iff (k : ℕ) : (rands k unseeded).1 = (rands k (srand 1)).1 ↔ k ≤ 1 := by
  rcases k with _ | _ | k
  · exact iff_of_true rfl (by omega)
  · exact iff_of_true (by decide +kernel) (Nat.le_refl 1)
  · refine iff_of_false (fun h => ?_) (by omega)
    have h2 : (rand (rand unseeded).2).1 = (rand (rand (srand 1)).2).1 :=
      (List.cons.inj (List.cons.inj h).2).1
    exact absurd h2 (by decide +kernel)

/-- The second results. -/
theorem unseeded_second : (rands 2 unseeded).1 ≠ (rands 2 (srand 1)).1 := by decide +kernel

end Noc.Rand
