import Mathlib
import Noc.Lib.Cycle
import Noc.Lib.Xor
import Noc.Memcpy

/-! # `test_memcpy.c`: the patterns

The tests of `memcpy` fill buffers with a pseudo-random pattern (`fillRand`) and count how many
bytes of a buffer are those of a pattern (`countRandEqual`). The words of a pattern are the states
of a shift register, `lfsr32`.

* `lfsr32_cycle`: one seed stays as it is, and the others are on one cycle.
* `count_memcpy_iff`: a copy of a filled buffer is counted as a whole for those seeds only that have
  the same bytes as far as the buffer goes. -/

namespace Noc.Test

open Noc.Lib.Bytes Noc.Lib.Cycle Noc.Lib.Gf2 Noc.Lib.Xor Noc.Targets Noc.Memcpy

/-! ### The functions of the source -/

/-- `lfsr32` -/
def lfsr32 (seed : BitVec 32) : BitVec 32 :=
  let mask : BitVec 32 := (if 0 ≤ seed.toInt then -1 else 0) &&& 0xC0000401
  seed <<< 1 ^^^ mask

/-- The inner loop of `fill_rand`, with `remaining_seed` bytes to go: the memory, the pointer and
what is left of the length. -/
def fillWord : ℕ → Mem → ℕ → BitVec 32 → ℕ → Mem × ℕ × ℕ
  | 0, m, ptr, _, len => (m, ptr, len)
  | remaining + 1, m, ptr, cSeed, len =>
    if 0 < len then
      fillWord remaining (m.set ptr (UInt8.ofNat (cSeed &&& 0xff).toNat)) (ptr + 1) (cSeed >>> 8)
        (len - 1)
    else (m, ptr, len)

/-- The loop of `fill_rand`. -/
def fillLoop : ℕ → Mem → ℕ → BitVec 32 → ℕ → Mem
  | 0, m, _, _, _ => m
  | fuel + 1, m, ptr, seed, len =>
    if 0 < len then
      let (m, ptr, len) := fillWord 4 m ptr seed len
      fillLoop fuel m ptr (lfsr32 seed) len
    else m

/-- `fill_rand`. Every round writes a byte. -/
def fillRand (m : Mem) (buf : ℕ) (seed : BitVec 32) (len : ℕ) : Mem := fillLoop len m buf seed len

/-- The inner loop of `count_rand_equal`: the count, the pointer and what is left of the length. -/
def countWord (m : Mem) : ℕ → ℕ → BitVec 32 → ℕ → ℕ → ℕ × ℕ × ℕ
  | 0, ptr, _, len, count => (count, ptr, len)
  | remaining + 1, ptr, cSeed, len, count =>
    if 0 < len then
      countWord m remaining (ptr + 1) (cSeed >>> 8) (len - 1)
        (if (m ptr).toNat = (cSeed &&& 0xff).toNat then count + 1 else count)
    else (count, ptr, len)

/-- The loop of `count_rand_equal`. -/
def countLoop (m : Mem) : ℕ → ℕ → BitVec 32 → ℕ → ℕ → ℕ
  | 0, _, _, _, count => count
  | fuel + 1, ptr, seed, len, count =>
    if 0 < len then
      let (count, ptr, len) := countWord m 4 ptr seed len count
      countLoop m fuel ptr (lfsr32 seed) len count
    else count

/-- `count_rand_equal` -/
def countRandEqual (m : Mem) (buf : ℕ) (seed : BitVec 32) (len : ℕ) : ℕ :=
  countLoop m len buf seed len 0

/-! ### The shift register -/

/-- The seed that stays as it is. -/
def fixedSeed : BitVec 32 := 0x400003FF

/-- Multiplication with `X` modulo the feedback polynomial. -/
def galois (a : BitVec 32) : BitVec 32 := a <<< 1 ^^^ if a.msb then 0xC0000401 else 0

theorem lfsr32_eq (seed : BitVec 32) : lfsr32 seed = galois (seed ^^^ fixedSeed) ^^^ fixedSeed := by
  have hmask : ((if 0 ≤ seed.toInt then -1 else 0) &&& 0xC0000401 : BitVec 32) =
      if seed.msb then 0 else 0xC0000401 := by
    rw [BitVec.msb_eq_toInt]
    by_cases h : 0 ≤ seed.toInt
    · rw [if_pos h, decide_eq_false (not_lt.mpr h)]
      rfl
    · rw [if_neg h, decide_eq_true (not_le.mp h)]
      rfl
  have hmsb : (seed ^^^ fixedSeed).msb = seed.msb := by
    rw [BitVec.msb_xor]
    exact Bool.xor_false _
  have hfixed : fixedSeed <<< 1 ^^^ fixedSeed = 0xC0000401 := by decide
  unfold lfsr32 galois
  dsimp only
  rw [hmask, hmsb, BitVec.shiftLeft_xor_distrib]
  cases seed.msb
  · rw [if_neg Bool.false_ne_true, if_neg Bool.false_ne_true, ← hfixed]
    simp [BitVec.xor_assoc]
  · rw [if_pos rfl, if_pos rfl, ← hfixed]
    generalize fixedSeed <<< 1 = c
    generalize fixedSeed = d
    calc seed <<< 1 ^^^ 0 = seed <<< 1 ^^^ (c ^^^ c) ^^^ (d ^^^ d) := by simp
      _ = _ := by ac_rfl

theorem galois_xor (a b : BitVec 32) : galois (a ^^^ b) = galois a ^^^ galois b := by
  have hif : ∀ p q : Bool, (if p ^^ q then 0xC0000401 else 0 : BitVec 32) =
      (if p then 0xC0000401 else 0) ^^^ if q then 0xC0000401 else 0 := by decide
  unfold galois
  rw [BitVec.shiftLeft_xor_distrib, BitVec.msb_xor, hif]
  ac_rfl

/-- `galois` of words. -/
def galoisWords : Word 32 →+ Word 32 where
  toFun a := ⟨galois a.bits⟩
  map_zero' := rfl
  map_add' a b := Word.ext (galois_xor a.bits b.bits)

/-- The feedback polynomial, with its leading term. -/
def feedbackPoly : ℕ := 0x1C0000401

/-- The prime factors of `2 ^ 32 - 1`. -/
def wordPrimes : List ℕ := [3, 5, 17, 257, 65537]

theorem wordPrimes_prime : ∀ q ∈ wordPrimes, q.Prime := by
  unfold wordPrimes
  simp only [List.forall_mem_cons]
  norm_num

theorem galoisWords_fullCycle : FullCycle (galoisWords.toZModLinearMap 2) 0 wordPrimes.prod := by
  refine fullCycle_of_linear (v := ⟨1⟩) (p := feedbackPoly) (w := 32) (by decide)
    wordPrimes_prime ?_ (by decide +kernel) (by decide +kernel) (by decide +kernel) ?_ ?_
  · rw [Word.card_word]
    rfl
  · decide +kernel
  · decide +kernel

/-- The seeds as words, from the one that stays. -/
def seedWords : BitVec 32 ≃ Word 32 where
  toFun seed := ⟨seed ^^^ fixedSeed⟩
  invFun a := a.bits ^^^ fixedSeed
  left_inv seed := by simp
  right_inv a := by simp

/-- **All seeds but one are on one cycle.** -/
theorem lfsr32_fullCycle : FullCycle lfsr32 fixedSeed (2 ^ 32 - 1) := by
  have hprod : wordPrimes.prod = 2 ^ 32 - 1 := by decide
  have hzero : seedWords.symm 0 = fixedSeed := by decide
  rw [← hprod, ← hzero]
  refine galoisWords_fullCycle.of_equiv seedWords fun seed => ?_
  ext1
  show lfsr32 seed ^^^ fixedSeed = galois (seed ^^^ fixedSeed)
  rw [lfsr32_eq, BitVec.xor_assoc, BitVec.xor_self, BitVec.xor_zero]

/-- **The runs of `lfsr32`**: `fixedSeed` is the only seed that stays as it is. From any other seed,
`0` and `0xFFFFFFFF` included, a run comes back after `2 ^ 32 - 1` words and not before, and has
been at every other one of them once. -/
theorem lfsr32_cycle (seed : BitVec 32) :
    (lfsr32 seed = seed ↔ seed = fixedSeed) ∧
      (seed ≠ fixedSeed → (∀ k, lfsr32^[k] seed = seed ↔ 2 ^ 32 - 1 ∣ k) ∧
        ∀ seed', seed' ≠ fixedSeed → ∃! k, k < 2 ^ 32 - 1 ∧ lfsr32^[k] seed = seed') := by
  refine ⟨⟨fun h => ?_, fun h => ?_⟩, fun h => ⟨fun k => ?_, fun seed' h' => ?_⟩⟩
  · by_contra hne
    have hdvd := (lfsr32_fullCycle.iterate_eq_self_iff hne 1).mp h
    have := Nat.le_of_dvd one_pos hdvd
    omega
  · rw [h]
    decide
  · exact lfsr32_fullCycle.iterate_eq_self_iff h k
  · exact lfsr32_fullCycle.existsUnique h h'

theorem lfsr32_cycle_ones : lfsr32^[2 ^ 32 - 1] 0xFFFFFFFF = 0xFFFFFFFF :=
  (((lfsr32_cycle 0xFFFFFFFF).2 (by decide)).1 (2 ^ 32 - 1)).mpr dvd_rfl

/-! ### Patterns -/

variable {m : Mem} {ptr len count remaining fuel : ℕ} {seed seed' c : BitVec 32}

/-- Byte `i` of a word, low byte first. -/
def wordByte (c : BitVec 32) (i : ℕ) : UInt8 := UInt8.ofNat (c >>> (8 * i)).toNat

/-- Byte `i` of the pattern of a seed. -/
def patternByte (seed : BitVec 32) (i : ℕ) : UInt8 := wordByte (lfsr32^[i / 4] seed) (i % 4)

theorem patternByte_of_lt {i : ℕ} (h : i < 4) : patternByte seed i = wordByte seed i := by
  rw [patternByte, Nat.div_eq_of_lt h, Nat.mod_eq_of_lt h]
  rfl

theorem patternByte_add (seed : BitVec 32) (i : ℕ) :
    patternByte seed (4 + i) = patternByte (lfsr32 seed) i := by
  rw [patternByte, patternByte, Nat.add_mod_left, Nat.add_div_left i (by decide),
    Function.iterate_succ_apply]

theorem wordByte_zero (c : BitVec 32) : UInt8.ofNat (c &&& 0xff).toNat = wordByte c 0 := by
  refine UInt8.toNat_inj.mp ?_
  have hand : c.toNat &&& 255 = c.toNat % 256 := Nat.and_two_pow_sub_one_eq_mod c.toNat 8
  rw [wordByte, UInt8.toNat_ofNat', UInt8.toNat_ofNat', BitVec.toNat_and, BitVec.toNat_ushiftRight]
  show (c.toNat &&& 255) % 256 = (c.toNat >>> 0) % 256
  rw [hand, Nat.mod_mod, Nat.shiftRight_zero]

theorem wordByte_shift (c : BitVec 32) (i : ℕ) : wordByte (c >>> 8) i = wordByte c (i + 1) := by
  unfold wordByte
  rw [← BitVec.shiftRight_add, Nat.mul_succ, Nat.add_comm]

/-- The inner loop writes the bytes of its word, as far as the buffer goes. -/
theorem fillWord_eq : fillWord remaining m ptr c len =
    (fun a => if ptr ≤ a ∧ a < ptr + min remaining len then wordByte c (a - ptr) else m a,
      ptr + min remaining len, len - min remaining len) := by
  induction remaining generalizing m ptr c len with
  | zero =>
    rw [fillWord, Nat.zero_min, Nat.add_zero, Nat.sub_zero]
    refine Prod.ext (funext fun a => ?_) rfl
    exact (if_neg (by omega)).symm
  | succ remaining ih =>
    rw [fillWord]
    by_cases hlen : 0 < len
    · rw [if_pos hlen, ih]
      refine Prod.ext (funext fun a => ?_) (Prod.ext ?_ ?_)
      · dsimp only
        by_cases ha : a = ptr
        · subst ha
          rw [if_neg (by omega), if_pos (by omega), Mem.set_self, Nat.sub_self, wordByte_zero]
        · rw [Mem.set_of_ne ha, wordByte_shift]
          by_cases hin : ptr + 1 ≤ a ∧ a < ptr + 1 + min remaining (len - 1)
          · rw [if_pos hin, if_pos (by omega), show a - (ptr + 1) + 1 = a - ptr by omega]
          · rw [if_neg hin, if_neg (by omega)]
      · dsimp only
        omega
      · dsimp only
        omega
    · obtain rfl : len = 0 := by omega
      rw [if_neg hlen, Nat.min_zero, Nat.add_zero]
      refine Prod.ext (funext fun a => ?_) rfl
      exact (if_neg (by omega)).symm

/-- **`fill_rand`** writes the pattern of the seed to the buffer, and nothing else. -/
theorem fillLoop_eq (hfuel : len ≤ fuel) : fillLoop fuel m ptr seed len =
    fun a => if ptr ≤ a ∧ a < ptr + len then patternByte seed (a - ptr) else m a := by
  induction fuel generalizing m ptr seed len with
  | zero =>
    obtain rfl : len = 0 := by omega
    funext a
    rw [fillLoop, if_neg (by omega)]
  | succ fuel ih =>
    rw [fillLoop]
    by_cases hlen : 0 < len
    · rw [if_pos hlen, fillWord_eq]
      dsimp only
      rw [ih (by omega)]
      funext a
      by_cases hfirst : ptr ≤ a ∧ a < ptr + min 4 len
      · rw [if_neg (by omega), if_pos hfirst, if_pos (by omega), patternByte_of_lt (by omega)]
      · rw [if_neg hfirst]
        by_cases hin : ptr ≤ a ∧ a < ptr + len
        · rw [if_pos (by omega), if_pos hin, ← patternByte_add]
          congr 1
          omega
        · rw [if_neg (by omega), if_neg hin]
    · obtain rfl : len = 0 := by omega
      funext a
      rw [if_neg hlen, if_neg (by omega)]

/-- The inner loop counts the bytes that are those of its word. -/
theorem countWord_eq : countWord m remaining ptr c len count =
    (count + Nat.count (fun i => m (ptr + i) = wordByte c i) (min remaining len),
      ptr + min remaining len, len - min remaining len) := by
  induction remaining generalizing ptr c len count with
  | zero => rw [countWord, Nat.zero_min, Nat.count_zero]; rfl
  | succ remaining ih =>
    rw [countWord]
    by_cases hlen : 0 < len
    · have hbyte : (m ptr).toNat = (c &&& 0xff).toNat ↔ m (ptr + 0) = wordByte c 0 := by
        rw [← wordByte_zero, Nat.add_zero, ← UInt8.toNat_inj, UInt8.toNat_ofNat', Nat.mod_eq_of_lt]
        rw [BitVec.toNat_and]
        exact lt_of_le_of_lt Nat.and_le_right (by decide)
      have hmin : min (remaining + 1) len = min remaining (len - 1) + 1 := by omega
      rw [if_pos hlen, ih, hmin, Nat.count_succ']
      refine Prod.ext ?_ (Prod.ext ?_ ?_)
      · dsimp only
        simp only [hbyte, wordByte_shift, Nat.add_assoc, Nat.add_comm 1]
        split_ifs <;> omega
      · dsimp only
        omega
      · dsimp only
        omega
    · obtain rfl : len = 0 := by omega
      rw [if_neg hlen, Nat.min_zero, Nat.count_zero]
      rfl

/-- **`count_rand_equal`** counts the bytes of the buffer that are those of the pattern. -/
theorem countLoop_eq (hfuel : len ≤ fuel) : countLoop m fuel ptr seed len count =
    count + Nat.count (fun i => m (ptr + i) = patternByte seed i) len := by
  induction fuel generalizing ptr seed len count with
  | zero =>
    obtain rfl : len = 0 := by omega
    rw [countLoop, Nat.count_zero, Nat.add_zero]
  | succ fuel ih =>
    rw [countLoop]
    by_cases hlen : 0 < len
    · rw [if_pos hlen, countWord_eq]
      dsimp only
      rw [ih (by omega), Nat.add_assoc]
      congr 1
      have hfirst : Nat.count (fun i => m (ptr + i) = wordByte seed i) (min 4 len) =
          Nat.count (fun i => m (ptr + i) = patternByte seed i) (min 4 len) := by
        rw [Nat.count_eq_card_filter_range, Nat.count_eq_card_filter_range]
        refine congrArg _ (Finset.filter_congr fun i hi => ?_)
        rw [patternByte_of_lt (by have := Finset.mem_range.mp hi; omega)]
      have hrest : Nat.count (fun i => m (ptr + min 4 len + i) = patternByte (lfsr32 seed) i)
            (len - min 4 len) =
          Nat.count (fun i => m (ptr + (min 4 len + i)) = patternByte seed (min 4 len + i))
            (len - min 4 len) := by
        rw [Nat.count_eq_card_filter_range, Nat.count_eq_card_filter_range]
        refine congrArg _ (Finset.filter_congr fun i hi => ?_)
        have hfour : min 4 len = 4 := by have := Finset.mem_range.mp hi; omega
        rw [hfour, patternByte_add, Nat.add_assoc]
      rw [hfirst, hrest, ← Nat.count_add, Nat.add_sub_cancel' (min_le_right 4 len)]
    · obtain rfl : len = 0 := by omega
      rw [if_neg hlen, Nat.count_zero, Nat.add_zero]

/-- The first bytes of two words are the same if the words are, as far as these bytes go. -/
theorem wordByte_eq_iff {k : ℕ} {c c' : BitVec 32} :
    (∀ i < k, wordByte c i = wordByte c' i) ↔ c.toNat % 256 ^ k = c'.toNat % 256 ^ k := by
  have hbyte (c : BitVec 32) (i : ℕ) : (wordByte c i).toNat = c.toNat / 256 ^ i % 256 := by
    rw [wordByte, UInt8.toNat_ofNat', BitVec.toNat_ushiftRight, Nat.shiftRight_eq_div_pow, pow_mul]
    rfl
  induction k with
  | zero => simp [Nat.mod_one]
  | succ k ih =>
    have hpos : 0 < 256 ^ k := pow_pos (by decide) k
    have hc := Nat.mod_lt c.toNat hpos
    have hc' := Nat.mod_lt c'.toNat hpos
    refine Nat.forall_lt_succ_right.trans ((and_congr_left' ih).trans ?_)
    rw [← UInt8.toNat_inj, hbyte, hbyte, Nat.mod_pow_succ, Nat.mod_pow_succ]
    constructor
    · rintro ⟨hlow, htop⟩
      rw [hlow, htop]
    · intro h
      have hlow : c.toNat % 256 ^ k = c'.toNat % 256 ^ k := by
        have := congrArg (· % 256 ^ k) h
        simpa [Nat.add_mul_mod_self_left, Nat.mod_mod] using this
      refine ⟨hlow, ?_⟩
      rw [hlow] at h
      exact Nat.eq_of_mul_eq_mul_left hpos (Nat.add_left_cancel h)

/-- The patterns of two seeds are the same as far as a buffer goes, if so are the bytes of the
seeds. -/
theorem patternByte_eq_iff :
    (∀ i < len, patternByte seed i = patternByte seed' i) ↔
      seed.toNat % 256 ^ min 4 len = seed'.toNat % 256 ^ min 4 len := by
  rw [← wordByte_eq_iff]
  constructor
  · intro h i hi
    have hbyte := h i (by omega)
    rwa [patternByte_of_lt (by omega), patternByte_of_lt (by omega)] at hbyte
  · intro h i hi
    rcases Nat.lt_or_ge i 4 with hi4 | hi4
    · rw [patternByte_of_lt hi4, patternByte_of_lt hi4]
      exact h i (by omega)
    · -- four bytes and more: the words are the same
      have hseed : seed = seed' := by
        rw [wordByte_eq_iff, min_eq_left (by omega)] at h
        refine BitVec.eq_of_toNat_eq ?_
        exact (Nat.mod_eq_of_lt seed.isLt).symm.trans (h.trans (Nat.mod_eq_of_lt seed'.isLt))
      rw [hseed]

theorem countRandEqual_iff : countRandEqual m ptr seed len = len ↔
    ∀ i < len, m (ptr + i) = patternByte seed i := by
  rw [countRandEqual, countLoop_eq le_rfl, Nat.zero_add, Nat.count_iff_forall]

theorem fillRand_byte {i : ℕ} (hi : i < len) :
    fillRand m ptr seed len (ptr + i) = patternByte seed i := by
  rw [fillRand, fillLoop_eq le_rfl]
  dsimp only
  rw [if_pos (by omega), Nat.add_sub_cancel_left]

/-- The bytes of a buffer that is filled with the pattern of one seed are all counted for another,
exactly if the seeds have the same bytes, as many as the buffer has. -/
theorem count_fill_iff : countRandEqual (fillRand m ptr seed len) ptr seed' len = len ↔
    seed.toNat % 256 ^ min 4 len = seed'.toNat % 256 ^ min 4 len := by
  rw [countRandEqual_iff, ← patternByte_eq_iff]
  exact forall₂_congr fun i hi => by rw [fillRand_byte hi]

/-- **What the tests of `memcpy` see**: a copy of a filled buffer is counted as a whole for the seed
of the original, and for another one only if a buffer of this length cannot tell the two. -/
theorem count_memcpy_iff (T : Target) (m : Mem) {dest src len : ℕ} (seed seed' : BitVec 32)
    (hd : dest + len < T.space) (h : dest ≤ src ∨ src + len ≤ dest) :
    countRandEqual (memcpy T (fillRand m src seed len) dest src len) dest seed' len = len ↔
      seed.toNat % 256 ^ min 4 len = seed'.toNat % 256 ^ min 4 len := by
  have hcopy : ∀ i < len, memcpy T (fillRand m src seed len) dest src len (dest + i) =
      fillRand m src seed len (src + i) := by
    intro i hi
    rw [memcpy_eq_copy hd h, Mem.copy, if_pos (by omega), Nat.add_sub_cancel_left]
  have hfill : countRandEqual (fillRand m src seed len) src seed' len = len ↔ _ := count_fill_iff
  rw [← hfill, countRandEqual_iff, countRandEqual_iff]
  exact forall₂_congr fun i hi => by rw [hcopy i hi]

theorem count_memcpy_iff_seven :
    countRandEqual (memcpy .riscv32 (fillRand (fun _ => 0) 0x2001 0 7) 0x1000 0x2001 7)
        0x1000 10 7 = 7 ↔
      (0 : BitVec 32).toNat % 256 ^ min 4 7 = (10 : BitVec 32).toNat % 256 ^ min 4 7 :=
  count_memcpy_iff .riscv32 (fun _ => 0) 0 10 (by decide) (by decide)

end Noc.Test
