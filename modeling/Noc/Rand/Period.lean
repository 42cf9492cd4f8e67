import Noc.Lib.Cycle
import Noc.Lib.Xor
import Noc.Rand

/-! # The period of `rand`

What `next` makes of a state is linear in its bits, so its period can be computed: the states that
are not zero are on one cycle (`mix_fullCycle`).

* `states_cycle`: a run from such a state comes back to it after `2 ^ 64 - 1` calls and not before,
  and has been in every other state once.
* `words_equidistributed`: in such a run `next` returns each word `2 ^ 32` times, but 0 once less.
* `rand_distribution`: how often `rand` returns each number. -/

namespace Noc.Rand

open Noc.Lib.Cycle Noc.Lib.Generator Noc.Lib.Gf2 Noc.Lib.Xor

/-! ### The cycle of the states -/

/-- The words of a state. -/
def stateWords : RandState ≃ Word 32 × Word 32 where
  toFun s := (⟨s.s0⟩, ⟨s.s1⟩)
  invFun v := ⟨v.1.bits, v.2.bits⟩
  left_inv _ := rfl
  right_inv _ := rfl

instance : Fintype RandState := Fintype.ofEquiv _ stateWords.symm

theorem rol32_xor (x y : BitVec 32) (k : ℕ) : rol32 (x ^^^ y) k = rol32 x k ^^^ rol32 y k :=
  rotl_xor x y k

/-- `mix` of the words. -/
def mixWords : Word 32 × Word 32 →+ Word 32 × Word 32 where
  toFun v := stateWords (mix (stateWords.symm v))
  map_zero' := rfl
  map_add' a b := by
    simp only [stateWords, mix, Equiv.coe_fn_mk, Equiv.coe_fn_symm_mk, Prod.fst_add, Prod.snd_add,
      Word.bits_add, rol32_xor, BitVec.shiftLeft_xor_distrib]
    refine Prod.ext ?_ ?_ <;> ext1 <;>
      simp only [Prod.fst_add, Prod.snd_add, Word.bits_add] <;> ac_rfl

/-- The characteristic polynomial of `mix`. -/
def mixPoly : ℕ := 0x1053be9da6e2286c1

/-- The prime factors of `2 ^ 64 - 1`. -/
def periodPrimes : List ℕ := [3, 5, 17, 257, 641, 65537, 6700417]

theorem periodPrimes_prime : ∀ q ∈ periodPrimes, q.Prime := by
  unfold periodPrimes
  simp only [List.forall_mem_cons]
  norm_num

/-- As many calls as there are states that are not zero. -/
def period : ℕ := 2 ^ 64 - 1

theorem mixWords_fullCycle : FullCycle (mixWords.toZModLinearMap 2) 0 periodPrimes.prod := by
  refine fullCycle_of_linear (v := (⟨1⟩, 0)) (p := mixPoly) (w := 64) (by decide)
    periodPrimes_prime ?_ (by decide +kernel) (by decide +kernel) (by decide +kernel) ?_ ?_
  · rw [Fintype.card_prod, Word.card_word]
    rfl
  · decide +kernel
  · decide +kernel

/-- **All states that are not zero are on one cycle.** -/
theorem mix_fullCycle : FullCycle mix ⟨0, 0⟩ period := by
  have hprod : periodPrimes.prod = period := by decide
  rw [← hprod]
  exact mixWords_fullCycle.of_equiv stateWords fun _ => rfl

/-- Such a state does not escape, and the run from it is that of `mix`. -/
theorem rands_state_of_ne (h : state ≠ ⟨0, 0⟩) (k : ℕ) : (rands k state).2 = mix^[k] state := by
  rw [rands_state]
  cases k with
  | zero => rw [Function.iterate_zero, Function.iterate_zero]
  | succ k =>
    rw [iterate_succ_eq mix_injective mix_zero (by decide), escape_of_ne h]

/-- The unseeded generator goes on as from the state that it escapes to. -/
theorem rands_unseeded (k : ℕ) : (rands (k + 1) unseeded).2 = (rands (k + 1) ⟨1, 0⟩).2 := rfl

/-- **The runs of the states**: from a state that is not zero, the generator comes back after
`2 ^ 64 - 1` calls and not before, and visits every other such state once; the unseeded generator is
on the same cycle after its first call. -/
theorem states_cycle (h : state ≠ ⟨0, 0⟩) :
    (∀ k, (rands k state).2 = state ↔ period ∣ k) ∧
    (∀ state', state' ≠ ⟨0, 0⟩ → ∃! k, k < period ∧ (rands k state).2 = state') ∧
    ∀ k, ∃! j, j < period ∧ (rands j state).2 = (rands (k + 1) unseeded).2 := by
  simp only [rands_state_of_ne h]
  refine ⟨fun k => ?_, fun state' h' => ?_, fun k => ?_⟩
  · exact mix_fullCycle.iterate_eq_self_iff h k
  · exact mix_fullCycle.existsUnique h h'
  · refine mix_fullCycle.existsUnique h ?_
    rw [rands_unseeded, rands_state_of_ne (by decide)]
    exact mix_fullCycle.ne _ (by decide) _

theorem states_cycle_one : (∀ k, (rands k ⟨1, 0⟩).2 = ⟨1, 0⟩ ↔ period ∣ k) ∧
    (∀ state', state' ≠ ⟨0, 0⟩ → ∃! k, k < period ∧ (rands k ⟨1, 0⟩).2 = state') ∧
    ∀ k, ∃! j, j < period ∧ (rands j ⟨1, 0⟩).2 = (rands (k + 1) unseeded).2 :=
  states_cycle (by decide)

/-! ### The words -/

/-- The word that `next` makes of the first word of a state. -/
def scramble (s0 : BitVec 32) : BitVec 32 := rol32 (s0 * 0x9E3779BB) 5 * 5

theorem next_word (h : state ≠ ⟨0, 0⟩) : (next state).1 = scramble state.s0 := by
  have hne : ¬ state.s0 ||| state.s1 = 0 := fun h0 => h (escapes_iff.mp h0)
  unfold next scramble
  dsimp only
  rw [if_neg hne]

theorem mul_injective {c d : BitVec 32} (h : c * d = 1) : Function.Injective fun x => x * c := by
  intro x y hxy
  have hxy : x * c = y * c := hxy
  calc x = x * c * d := by rw [BitVec.mul_assoc, h]; simp
    _ = y * c * d := by rw [hxy]
    _ = y := by rw [BitVec.mul_assoc, h]; simp

/-- Both factors are odd, so each word comes from one first word. -/
theorem scramble_injective : Function.Injective scramble := by
  intro x y hxy
  have h1 := mul_injective (c := 5) (d := 0xCCCCCCCD) (by decide) hxy
  have h2 := rol32_injective (k := 5) (by omega) h1
  exact mul_injective (c := 0x9E3779BB) (d := 0xBE736373) (by decide) h2

/-! ### Counting -/

theorem card_erase_of_iff {α : Type} [DecidableEq α] {s : Finset α} {a : α} {Q : Prop} [Decidable Q]
    (h : a ∈ s ↔ Q) : (s.erase a).card = s.card - if Q then 1 else 0 := by
  split_ifs with hQ
  · rw [Finset.card_erase_of_mem (h.mpr hQ)]
  · rw [Finset.erase_eq_of_notMem (mt h.mp hQ), Nat.sub_zero]

/-- The states whose word has a property, by the words. -/
theorem card_states (P : BitVec 32 → Prop) [DecidablePred P] :
    (Finset.univ.filter fun y : RandState => y ≠ ⟨0, 0⟩ ∧ P (scramble y.s0)).card =
      2 ^ 32 * (Finset.univ.filter fun a : Word 32 => P a.bits).card - if P 0 then 1 else 0 := by
  have hbij : Function.Bijective fun a : Word 32 => (⟨scramble a.bits⟩ : Word 32) := by
    rw [← Finite.injective_iff_bijective]
    intro a b hab
    exact Word.ext (scramble_injective (Word.mk.inj hab))
  have hwords : (Finset.univ.filter fun a : Word 32 => P (scramble a.bits)).card =
      (Finset.univ.filter fun a : Word 32 => P a.bits).card := by
    refine Finset.card_equiv (Equiv.ofBijective _ hbij) fun a => ?_
    simp
  have hall : (Finset.univ.filter fun y : RandState => P (scramble y.s0)).card =
      2 ^ 32 * (Finset.univ.filter fun a : Word 32 => P a.bits).card := by
    rw [← hwords, mul_comm, ← Word.card_word, ← Finset.card_univ, ← Finset.card_product]
    refine Finset.card_equiv stateWords fun y => ?_
    simp [stateWords]
  have herase : (Finset.univ.filter fun y : RandState => y ≠ ⟨0, 0⟩ ∧ P (scramble y.s0)) =
      (Finset.univ.filter fun y : RandState => P (scramble y.s0)).erase ⟨0, 0⟩ := by
    ext y
    simp
  have hzero : (⟨0, 0⟩ : RandState) ∈ (Finset.univ.filter fun y => P (scramble y.s0)) ↔ P 0 := by
    rw [Finset.mem_filter, and_iff_right (Finset.mem_univ _), show scramble 0 = 0 by decide]
  rw [herase, card_erase_of_iff hzero, hall]

/-- The calls of a run that are counted, by the words. -/
theorem card_calls (h : state ≠ ⟨0, 0⟩) (P : BitVec 32 → Prop) [DecidablePred P] :
    ((Finset.range period).filter fun k => P (next (rands k state).2).1).card =
      2 ^ 32 * (Finset.univ.filter fun a : Word 32 => P a.bits).card - if P 0 then 1 else 0 := by
  rw [← card_states P, ← mix_fullCycle.card_filter h fun y => P (scramble y.s0)]
  refine congrArg Finset.card (Finset.filter_congr fun k _ => ?_)
  rw [rands_state_of_ne h, next_word (mix_fullCycle.ne _ h k)]

/-- **`next` returns all words equally often** in a run through the cycle, but for the word 0, which
the missing state would have made once more. -/
theorem words_equidistributed (h : state ≠ ⟨0, 0⟩) (word : BitVec 32) :
    ((Finset.range period).filter fun k => (next (rands k state).2).1 = word).card =
      if word = 0 then 2 ^ 32 - 1 else 2 ^ 32 := by
  have hone : (Finset.univ.filter fun a : Word 32 => a.bits = word) = {⟨word⟩} := by
    ext a
    simp [Word.ext_iff]
  rw [card_calls h (· = word), hone, Finset.card_singleton, mul_one]
  by_cases h0 : word = 0
  · rw [if_pos h0, if_pos h0.symm]
  · rw [if_neg h0, if_neg (Ne.symm h0), Nat.sub_zero]

theorem words_equidistributed_one :
    ((Finset.range period).filter fun k => (next (rands k ⟨1, 0⟩).2).1 = 5).card = 2 ^ 32 :=
  (words_equidistributed (by decide) 5).trans (if_neg (by decide))

/-- How many words `rand` scales to `v`: two, but three for 0 and for `2 ^ 30 - 1`. -/
def scaledCount (v : ℤ) : ℕ :=
  if v = 0 ∨ v = 2 ^ 30 - 1 then 3 else if 0 < v ∧ v < randMax then 2 else 0

theorem card_filter_range {N a b : ℕ} {P : ℕ → Prop} [DecidablePred P]
    (hP : ∀ n < N, P n ↔ a ≤ n ∧ n < b) (hle : b ≤ N) :
    ((Finset.range N).filter P).card = b - a := by
  have heq : (Finset.range N).filter P = Finset.Ico a b := by
    ext n
    rw [Finset.mem_filter, Finset.mem_range, Finset.mem_Ico]
    constructor
    · rintro ⟨hn, hv⟩
      exact (hP n hn).mp hv
    · intro hn
      exact ⟨by omega, (hP n (by omega)).mpr hn⟩
  rw [heq, Nat.card_Ico]

theorem card_words (P : ℕ → Prop) [DecidablePred P] :
    (Finset.univ.filter fun a : Word 32 => P a.bits.toNat).card =
      ((Finset.range (2 ^ 32)).filter P).card := by
  refine Finset.card_bij (fun a _ => a.bits.toNat) ?_ ?_ ?_
  · intro a ha
    exact Finset.mem_filter.mpr ⟨Finset.mem_range.mpr a.bits.isLt, (Finset.mem_filter.mp ha).2⟩
  · intro a _ b _ hab
    exact Word.ext (BitVec.eq_of_toNat_eq hab)
  · intro n hn
    obtain ⟨hlt, hv⟩ := Finset.mem_filter.mp hn
    refine ⟨⟨BitVec.ofNatLT n (Finset.mem_range.mp hlt)⟩, ?_, rfl⟩
    exact Finset.mem_filter.mpr ⟨Finset.mem_univ _, hv⟩

/-- The words that are scaled to `v` follow each other. -/
theorem card_scaled (v : ℤ) :
    (Finset.univ.filter fun a : Word 32 => ((randMax * a.bits.toNat / 2 ^ 32 : ℕ) : ℤ) = v).card =
      scaledCount v := by
  rw [card_words fun n => ((randMax * n / 2 ^ 32 : ℕ) : ℤ) = v]
  unfold scaledCount randMax
  split_ifs with h1 h2
  · rcases h1 with rfl | rfl
    · exact card_filter_range (a := 0) (b := 3) (fun n _ => by omega) (by omega)
    · exact card_filter_range (a := 2147483647) (b := 2147483650) (fun n _ => by omega) (by omega)
  · rcases lt_or_ge v (2 ^ 30) with hv | hv
    · rw [card_filter_range (a := (2 * v + 1).toNat) (b := (2 * v + 3).toNat)
        (fun n _ => by omega) (by omega)]
      omega
    · rw [card_filter_range (a := (2 * v + 2).toNat) (b := (2 * v + 4).toNat)
        (fun n _ => by omega) (by omega)]
      omega
  · exact card_filter_range (a := 0) (b := 0) (fun n _ => by omega) (by omega)

/-- **How often `rand` returns `v`** in a run through the cycle. `RAND_MAX` is never returned, and 0
and `2 ^ 30 - 1` half as often again as the others. -/
theorem rand_distribution (h : state ≠ ⟨0, 0⟩) (v : ℤ) :
    ((Finset.range period).filter fun k => (rand (rands k state).2).1 = v).card =
      2 ^ 32 * scaledCount v - if v = 0 then 1 else 0 := by
  have hcalls := card_calls h fun r => ((randMax * r.toNat / 2 ^ 32 : ℕ) : ℤ) = v
  rw [card_scaled] at hcalls
  simp only [rand_eq]
  rw [hcalls]
  refine congrArg _ (if_congr ?_ rfl rfl)
  exact eq_comm

theorem rand_distribution_one :
    ((Finset.range period).filter fun k => (rand (rands k ⟨1, 0⟩).2).1 = 0).card =
      3 * 2 ^ 32 - 1 := by
  rw [rand_distribution (by decide), if_pos rfl, show scaledCount 0 = 3 from if_pos (Or.inl rfl),
    mul_comm]

end Noc.Rand
