import Noc.Printf.Defs
import Mathlib.Data.Nat.Digits.Lemmas

/-! # The integer conversion

What the integer conversion stores in `digits`. `integerText_eq`: the digits of the value, at least
one and at least as many as the precision says, the least significant first, and then the sign, are
stored from the end of the array downwards; the conversion leaves the array exactly if these and the
NUL are more than 68 characters. As a value has at most 64 digits, that is so exactly for a sign
with the precision 67 (`overruns_iff`). -/

namespace Noc.Printf

open Noc.Lib.Output Noc.Targets Noc.Support.Umoddiv

variable {T : Target} {base v : ℕ} {hex sign : Byte}

/-! ### One digit -/

/-- The bases of the conversions. -/
def IsBase (base : ℕ) : Prop := base = 2 ∨ base = 8 ∨ base = 10 ∨ base = 16

theorem IsBase.one_lt (hb : IsBase base) : 1 < base := by
  unfold IsBase at hb
  omega

/-- **A digit**, with the shifts, the hardware division or the software division. -/
theorem getDigit_eq (hb : IsBase base) (hv : v < 2 ^ 64) :
    getDigit T v base = .ok (v % base, v / base) := by
  rcases hb with rfl | rfl | rfl | rfl
  · exact congrArg Except.ok
      (Prod.ext (Nat.and_two_pow_sub_one_eq_mod v 1) (Nat.shiftRight_eq_div_pow v 1))
  · exact congrArg Except.ok
      (Prod.ext (Nat.and_two_pow_sub_one_eq_mod v 3) (Nat.shiftRight_eq_div_pow v 3))
  · have hdiv : (if T.platform64BitDiv then umoddiv32Platform v 10
        else Support.Umoddiv.umoddiv32 u32 v 10) = some ((v : ℤ) / 10, (v : ℤ) % 10) := by
      split_ifs
      · have hr : u32 ((v : ℤ) % 10) = (v : ℤ) % 10 := wraps_u32.of_lt (by omega) (by omega)
        rw [umoddiv32Platform, if_neg (by decide), hr]
      · exact umoddiv32_wraps wraps_u32 (by omega) (by exact_mod_cast hv) (by decide) (by decide)
    show umoddiv32 T v 10 = _
    rw [umoddiv32, show ((10 : ℕ) : ℤ) = 10 from rfl, hdiv]
    exact congrArg Except.ok (Prod.ext (by dsimp only; omega) (by dsimp only; omega))
  · exact congrArg Except.ok
      (Prod.ext (Nat.and_two_pow_sub_one_eq_mod v 4) (Nat.shiftRight_eq_div_pow v 4))

/-! ### Storing characters -/

/-- Store characters one after the other. -/
def pushAll (cs : List Byte) (valueStr : List Byte) : Except Fault (List Byte) :=
  cs.foldlM (fun valueStr c => push c valueStr) valueStr

theorem pushAll_cons (c : Byte) (cs valueStr : List Byte) :
    pushAll (c :: cs) valueStr = push c valueStr >>= pushAll cs := rfl

theorem pushAll_append (cs cs' valueStr : List Byte) :
    pushAll (cs ++ cs') valueStr = pushAll cs valueStr >>= pushAll cs' :=
  List.foldlM_append

/-- Characters fit as long as there is room in the array. -/
theorem pushAll_eq {cs valueStr : List Byte} (h : valueStr.length ≤ digitsSize) :
    pushAll cs valueStr =
      if valueStr.length + cs.length ≤ digitsSize then .ok (cs.reverse ++ valueStr)
      else .error .digits := by
  induction cs generalizing valueStr with
  | nil =>
    rw [if_pos (by simpa using h)]
    rfl
  | cons c cs ih =>
    rw [pushAll_cons, push, List.length_cons]
    by_cases hlt : valueStr.length < digitsSize
    · rw [if_pos hlt]
      show pushAll cs (c :: valueStr) = _
      rw [ih (by rw [List.length_cons]; omega), List.length_cons, List.reverse_cons,
        List.append_assoc, Nat.add_right_comm, Nat.add_assoc]
      rfl
    · rw [if_neg hlt, if_neg (by omega)]
      rfl

/-! ### The digits of a value -/

/-- The `k` low digits of `v` as characters, the least significant first. -/
def digitChars (base : ℕ) (hex : Byte) : ℕ → ℕ → List Byte
  | 0, _ => []
  | k + 1, v => charDigit (UInt8.ofNat (v % base)) hex :: digitChars base hex k (v / base)

@[simp] theorem length_digitChars (k v : ℕ) : (digitChars base hex k v).length = k := by
  induction k generalizing v with
  | zero => rfl
  | succ k ih => rw [digitChars, List.length_cons, ih]

theorem digitChars_add (k l v : ℕ) : digitChars base hex (k + l) v =
    digitChars base hex k v ++ digitChars base hex l (v / base ^ k) := by
  induction k generalizing v with
  | zero => simp [digitChars]
  | succ k ih =>
    rw [Nat.succ_add, digitChars, digitChars, ih, Nat.div_div_eq_div_mul, ← Nat.pow_succ']
    rfl

/-- The number of digits that `v` has in the base; 0 has none. -/
def digitCount (base v : ℕ) : ℕ := (Nat.digits base v).length

theorem digitCount_le (hb : IsBase base) (hv : v < 2 ^ 64) : digitCount base v ≤ 64 :=
  (Nat.digits_length_le_iff hb.one_lt v).mpr
    (hv.trans_le (Nat.pow_le_pow_left hb.one_lt 64))

theorem digitCount_pos (hb : IsBase base) (h0 : 0 < v) :
    digitCount base v = digitCount base (v / base) + 1 := by
  unfold digitCount
  rw [Nat.digits_def' hb.one_lt h0, List.length_cons]

theorem digitCount_div (hb : IsBase base) (k : ℕ) :
    digitCount base (v / base ^ k) = digitCount base v - k := by
  induction k generalizing v with
  | zero => simp
  | succ k ih =>
    rw [Nat.pow_succ', ← Nat.div_div_eq_div_mul, ih]
    rcases Nat.eq_zero_or_pos v with rfl | h0
    · simp [digitCount]
    · rw [digitCount_pos hb h0, Nat.add_sub_add_right]

theorem precisionLoop_eq (hb : IsBase base) (i : ℕ) {valueStr : List Byte} (hv : v < 2 ^ 64) :
    precisionLoop T base hex i v valueStr =
      pushAll (digitChars base hex i v) valueStr >>= fun s => .ok (v / base ^ i, s) := by
  induction i generalizing v valueStr with
  | zero => simp [precisionLoop, digitChars, pushAll]
  | succ i ih =>
    have hdiv : v / base < 2 ^ 64 := (Nat.div_le_self v base).trans_lt hv
    rw [precisionLoop, getDigit_eq hb hv, digitChars, pushAll_cons, Nat.pow_succ',
      ← Nat.div_div_eq_div_mul]
    show (push _ valueStr >>= fun valueStr => precisionLoop T base hex i (v / base) valueStr) = _
    simp only [ih hdiv, bind_assoc]

theorem valueLoop_eq (hb : IsBase base) {fuel : ℕ} {valueStr : List Byte} (hv : v < 2 ^ 64)
    (hfuel : digitCount base v < fuel) : valueLoop T base hex fuel v valueStr =
      pushAll (digitChars base hex (digitCount base v) v) valueStr := by
  induction fuel generalizing v valueStr with
  | zero => omega
  | succ fuel ih =>
    have hdiv : v / base < 2 ^ 64 := (Nat.div_le_self v base).trans_lt hv
    rw [valueLoop]
    rcases Nat.eq_zero_or_pos v with rfl | h0
    · simp [digitCount, digitChars, pushAll]; rfl
    · have hcount := digitCount_pos hb h0
      rw [if_neg h0.ne', getDigit_eq hb hv, hcount, digitChars, pushAll_cons]
      show (push _ valueStr >>= fun valueStr => valueLoop T base hex fuel (v / base) valueStr) = _
      congr 1
      funext valueStr
      exact ih hdiv (by omega)

/-! ### The text -/

/-- How many digits the conversion stores. -/
def storedDigits (base precision v : ℕ) : ℕ := max precision (max 1 (digitCount base v))

/-- The characters that the conversion stores above the NUL, from the end of the array downwards. -/
def storedChars (base : ℕ) (hex sign : Byte) (precision v : ℕ) : List Byte :=
  digitChars base hex (storedDigits base precision v) v ++ if sign ≠ 0 then [sign] else []

/-- The digits behind those that the precision asks for, or the digit of 0. -/
theorem restDigits_eq (hb : IsBase base) (hv : v < 2 ^ 64) (precision : ℕ) (valueStr : List Byte) :
    (if precision = 0 ∧ v / base ^ precision = 0 then push '0'.toUInt8 valueStr
      else pure valueStr) >>= valueLoop T base hex 65 (v / base ^ precision) =
    pushAll (digitChars base hex (storedDigits base precision v - precision) (v / base ^ precision))
      valueStr := by
  have hdiv : v / base ^ precision < 2 ^ 64 := (Nat.div_le_self v _).trans_lt hv
  have hcount := digitCount_div hb precision (v := v)
  by_cases h0 : precision = 0 ∧ v / base ^ precision = 0
  · obtain ⟨rfl, hv0⟩ := h0
    rw [Nat.pow_zero, Nat.div_one] at hv0 ⊢
    subst hv0
    rw [if_pos ⟨rfl, rfl⟩]
    simp only [storedDigits, digitCount, Nat.digits_zero, List.length_nil]
    exact (bind_pure (push '0'.toUInt8 valueStr)).trans (bind_pure _).symm
  · rw [if_neg h0, storedDigits]
    show valueLoop T base hex 65 (v / base ^ precision) valueStr = _
    rw [valueLoop_eq hb hdiv (by have := digitCount_le hb hdiv; omega)]
    have hpos : 0 < v → 0 < digitCount base v := fun h => by
      rw [digitCount_pos hb h]; omega
    have hsame : digitCount base (v / base ^ precision) =
        max precision (max 1 (digitCount base v)) - precision := by
      rcases Nat.eq_zero_or_pos precision with rfl | hp
      · rw [Nat.pow_zero, Nat.div_one] at h0 hcount ⊢
        have := hpos (by omega)
        omega
      · omega
    rw [hsame]

/-- **The integer conversion** stores the digits and the sign one after the other. -/
theorem integerText_eq (hb : IsBase base) (hv : v < 2 ^ 64) (precision : ℕ) :
    integerText T base hex sign precision v =
      pushAll (storedChars base hex sign precision v) [0] := by
  have hsplit : storedDigits base precision v =
      precision + (storedDigits base precision v - precision) := by
    unfold storedDigits
    omega
  have hsign : ∀ s, (if sign ≠ 0 then push sign s else pure s) =
      pushAll (if sign ≠ 0 then [sign] else []) s := fun s => by
    split_ifs
    · simp [pushAll]
    · rfl
  unfold integerText storedChars
  rw [hsplit, digitChars_add, pushAll_append, pushAll_append]
  simp only [precisionLoop_eq hb precision hv, bind_assoc, hsign]
  congr 1
  funext s
  rw [← restDigits_eq (T := T) hb hv precision s, bind_assoc]
  show (if precision = 0 ∧ v / base ^ precision = 0 then _ else _) = _
  split_ifs <;> rfl

theorem length_storedChars (base precision v : ℕ) (hex sign : Byte) :
    (storedChars base hex sign precision v).length =
      storedDigits base precision v + if sign ≠ 0 then 1 else 0 := by
  rw [storedChars, List.length_append, length_digitChars]
  split_ifs <;> rfl

/-- **The conversion leaves the array** exactly with a sign and as many digits as the array has room
for. -/
theorem integerText_cases (hb : IsBase base) (hv : v < 2 ^ 64) {precision : ℕ}
    (hp : precision ≤ digitsSize - 1) : integerText T base hex sign precision v =
      if precision = digitsSize - 1 ∧ sign ≠ 0 then .error .digits
      else .ok ((storedChars base hex sign precision v).reverse ++ [0]) := by
  have hcount := digitCount_le hb hv
  have hlen := length_storedChars base precision v hex sign
  unfold storedDigits at hlen
  rw [integerText_eq hb hv, pushAll_eq (by decide), hlen]
  unfold digitsSize at *
  by_cases hsign : sign ≠ 0
  · rw [if_pos hsign]
    by_cases hfull : precision = 68 - 1
    · rw [if_neg (by simp; omega), if_pos ⟨hfull, hsign⟩]
    · rw [if_pos (by simp; omega), if_neg fun h => hfull h.1]
  · rw [if_neg hsign, if_pos (by simp; omega), if_neg fun h => hsign h.2]

/-! ### No NUL inside the text -/

/-- The characters that the digits above 9 begin with. -/
def IsHex (hex : Byte) : Prop := hex = 'a'.toUInt8 ∨ hex = 'A'.toUInt8

theorem charDigit_ne_zero {d : ℕ} (hhex : IsHex hex) (hd : d < 16) :
    charDigit (UInt8.ofNat d) hex ≠ 0 := by
  have hall : ∀ d : Fin 16, charDigit (UInt8.ofNat d) 'a'.toUInt8 ≠ 0 ∧
      charDigit (UInt8.ofNat d) 'A'.toUInt8 ≠ 0 := by decide
  rcases hhex with rfl | rfl
  · exact (hall ⟨d, hd⟩).1
  · exact (hall ⟨d, hd⟩).2

theorem IsBase.le (hb : IsBase base) : base ≤ 16 := by
  unfold IsBase at hb
  omega

theorem zero_notMem_digitChars (hb : IsBase base) (hhex : IsHex hex) (k v : ℕ) :
    (0 : Byte) ∉ digitChars base hex k v := by
  induction k generalizing v with
  | zero => exact List.not_mem_nil
  | succ k ih =>
    have hlt : v % base < 16 := (Nat.mod_lt v (by have := hb.one_lt; omega)).trans_le hb.le
    rw [digitChars, List.mem_cons, not_or]
    exact ⟨(charDigit_ne_zero hhex hlt).symm, ih _⟩

theorem zero_notMem_storedChars (hb : IsBase base) (hhex : IsHex hex) (precision v : ℕ) :
    (0 : Byte) ∉ storedChars base hex sign precision v := by
  rw [storedChars, List.mem_append, not_or]
  refine ⟨zero_notMem_digitChars hb hhex _ _, ?_⟩
  split_ifs with h
  · rw [List.mem_singleton]
    exact h.symm
  · exact List.not_mem_nil

end Noc.Printf
