import Noc.Printf.Convert

/-! # Numerals

The digits that the integer conversion stores are a numeral of the value.

* `digitChars_eq`: they are the digits of the value, filled up with zeros.
* `integerText_numeral`: read in the base of the conversion, they give the value back; all of them
  are digits of the base, and there are as many as the precision and the value need. -/

namespace Noc.Printf

open Noc.Lib.Output Noc.Lib.Output.Emission Noc.Targets

variable {T : Target} {base v k : ℕ} {hex sign : Byte}

/-! ### Reading a numeral -/

/-- The value of a digit. -/
def digitValue (c : Byte) : Option ℕ :=
  if '0'.toUInt8 ≤ c ∧ c ≤ '9'.toUInt8 then some (c.toNat - '0'.toNat)
  else if 'a'.toUInt8 ≤ c ∧ c ≤ 'f'.toUInt8 then some (c.toNat - 'a'.toNat + 10)
  else if 'A'.toUInt8 ≤ c ∧ c ≤ 'F'.toUInt8 then some (c.toNat - 'A'.toNat + 10)
  else none

/-- One more digit, if it is one of the base. -/
def decodeDigit (base n : ℕ) (c : Byte) : Option ℕ :=
  (digitValue c).bind fun d => if d < base then some (base * n + d) else none

/-- The value of a numeral, most significant digit first. -/
def decode (base : ℕ) (s : List Byte) : Option ℕ := s.foldlM (decodeDigit base) 0

theorem decode_concat (s : List Byte) (c : Byte) :
    decode base (s ++ [c]) = (decode base s).bind fun n => decodeDigit base n c := by
  unfold decode
  rw [List.foldlM_append]
  show (s.foldlM (decodeDigit base) 0 >>= fun n => decodeDigit base n c >>= pure) = _
  simp only [bind_pure]
  rfl

theorem digitValue_charDigit {d : ℕ} (hhex : IsHex hex) (hd : d < 16) :
    digitValue (charDigit (UInt8.ofNat d) hex) = some d := by
  have hall : ∀ d : Fin 16, digitValue (charDigit (UInt8.ofNat d) 'a'.toUInt8) = some d.val ∧
      digitValue (charDigit (UInt8.ofNat d) 'A'.toUInt8) = some d.val := by decide
  rcases hhex with rfl | rfl
  · exact (hall ⟨d, hd⟩).1
  · exact (hall ⟨d, hd⟩).2

/-- The `k` low digits are a numeral of the value modulo `base ^ k`. -/
theorem decode_digitChars (hb : IsBase base) (hhex : IsHex hex) (k v : ℕ) :
    decode base (digitChars base hex k v).reverse = some (v % base ^ k) := by
  induction k generalizing v with
  | zero => rw [Nat.pow_zero, Nat.mod_one]; rfl
  | succ k ih =>
    have hlt : v % base < base := Nat.mod_lt v (by have := hb.one_lt; omega)
    have hdigit : decodeDigit base (v / base % base ^ k)
        (charDigit (UInt8.ofNat (v % base)) hex) = some (v % base ^ (k + 1)) := by
      rw [decodeDigit, digitValue_charDigit hhex (hlt.trans_le hb.le), Option.bind_some, if_pos hlt,
        Nat.pow_succ', Nat.mod_mul, Nat.add_comm]
    rw [digitChars, List.reverse_cons, decode_concat, ih, Option.bind_some, hdigit]

/-- **The digits of a value** and zeros. -/
theorem digitChars_eq (hb : IsBase base) (hk : digitCount base v ≤ k) : digitChars base hex k v =
    (Nat.digits base v ++ List.replicate (k - digitCount base v) 0).map
      fun d => charDigit (UInt8.ofNat d) hex := by
  induction k generalizing v with
  | zero =>
    have hnil : Nat.digits base v = [] := List.eq_nil_of_length_eq_zero (Nat.le_zero.mp hk)
    rw [hnil, digitChars]
    simp
  | succ k ih =>
    rw [digitChars]
    rcases Nat.eq_zero_or_pos v with rfl | h0
    · have hcount : digitCount base 0 = 0 := congrArg List.length (Nat.digits_zero base)
      rw [Nat.zero_mod, Nat.zero_div, ih (by omega), hcount, Nat.digits_zero]
      rfl
    · have hcount := digitCount_pos hb h0
      rw [ih (by omega), Nat.digits_def' hb.one_lt h0, hcount, Nat.add_sub_add_right]
      rfl

/-! ### The text of the conversion -/

/-- What the conversion stores: the sign, the digits, the NUL. -/
theorem integerText_ok (hb : IsBase base) (hv : v < 2 ^ 64) {precision : ℕ}
    (hp : precision < digitsSize - 1) : integerText T base hex sign precision v =
      .ok ((if sign ≠ 0 then [sign] else []) ++
        ((digitChars base hex (storedDigits base precision v) v).reverse ++ [0])) := by
  rw [integerText_cases hb hv hp.le, if_neg fun h => hp.ne h.1, storedChars, List.reverse_append,
    List.append_assoc]
  split_ifs <;> rfl

/-- The size of a value under the flags of its length. -/
def Flags.bits (flags : Flags) : ℕ :=
  if flags.bit16 then 16 else if flags.bit8 then 8 else if flags.bit64 then 64 else 32

/-- `%d` shows the magnitude of the value with a sign. -/
theorem signed_magnitude {flags : Flags} (hv : v < 2 ^ flags.bits) :
    (signed flags v).2 = ((v : ℤ).bmod (2 ^ flags.bits)).natAbs := by
  show (signExtend flags v).2 = _
  unfold signExtend
  rw [Flags.bits] at hv ⊢
  rw [Int.bmod_def]
  split_ifs at hv ⊢ <;> dsimp only <;> push_cast at * <;> omega

/-- The characters that the `switch` knows, with their bases and magnitudes. -/
theorem conversion_base {flags : Flags} {c : Byte} {m : ℕ}
    (h : (conversion flags c v).ending = .value (base, sign, m)) :
    (c = 'b'.toUInt8 ∧ base = 2 ∨ c = 'o'.toUInt8 ∧ base = 8 ∨
      (c = 'u'.toUInt8 ∨ c = 'd'.toUInt8) ∧ base = 10 ∨
      (c = 'x'.toUInt8 ∨ c = 'X'.toUInt8 ∨ c = 'p'.toUInt8) ∧ base = 16) ∧
    (if c = 'd'.toUInt8 then m = (signed flags v).2 else m = v) := by
  unfold conversion at h
  by_cases hd : c = 'd'.toUInt8
  · rw [if_pos hd] at h
    cases h
    exact ⟨by simp [hd], if_pos hd ▸ rfl⟩
  rw [if_neg hd] at h ⊢
  split_ifs at h with hu hp hx ho hb <;> cases h
  · exact ⟨by simp [hu], rfl⟩
  · exact ⟨by simp [hp], rfl⟩
  · exact ⟨by tauto, rfl⟩
  · exact ⟨by simp [ho], rfl⟩
  · exact ⟨by simp [hb], rfl⟩

/-- **The digits of the integer conversion**, with either build of `umoddiv32`: in the base of the
conversion character a numeral of the magnitude, which is that of the value with a sign for `d`, and
the value for the others. -/
theorem integerText_numeral (T : Target) (flags : Flags) (c : Byte) {v base m precision : ℕ}
    {sign hex : Byte} (hv : v < 2 ^ 64)
    (hc : (conversion flags c v).ending = .value (base, sign, m)) (hhex : IsHex hex)
    (hp : precision ≤ 66) : ∃ digits, integerText T base hex sign precision m =
        .ok ((if sign ≠ 0 then [sign] else []) ++ (digits ++ [0])) ∧
      decode base digits = some m ∧
      digits.length = max precision (max (Nat.digits base m).length 1) ∧
      (c = 'b'.toUInt8 ∧ base = 2 ∨ c = 'o'.toUInt8 ∧ base = 8 ∨
        (c = 'u'.toUInt8 ∨ c = 'd'.toUInt8) ∧ base = 10 ∨
        (c = 'x'.toUInt8 ∨ c = 'X'.toUInt8 ∨ c = 'p'.toUInt8) ∧ base = 16) ∧
      (c ≠ 'd'.toUInt8 → m = v) ∧
      (c = 'd'.toUInt8 → v < 2 ^ flags.bits → m = ((v : ℤ).bmod (2 ^ flags.bits)).natAbs) := by
  obtain ⟨hb, hm, -⟩ := conversion_value hv hc
  obtain ⟨hbase, hmag⟩ := conversion_base hc
  have hp' : precision < digitsSize - 1 := by
    unfold digitsSize
    omega
  have hlt : m < base ^ storedDigits base precision m := by
    rw [← Nat.digits_length_le_iff hb.one_lt, storedDigits, digitCount]
    omega
  refine ⟨_, integerText_ok hb hm hp', ?_, ?_, hbase, fun hd => ?_, fun hd hbits => ?_⟩
  · rw [decode_digitChars hb hhex, Nat.mod_eq_of_lt hlt]
  · rw [List.length_reverse, length_digitChars, storedDigits, digitCount, Nat.max_comm 1]
  · rwa [if_neg hd] at hmag
  · rw [if_pos hd] at hmag
    rw [hmag, signed_magnitude hbits]

/-- `%.5hhd` of the byte 0xc8. -/
theorem integerText_numeral_minus : ∃ digits, integerText .riscv32 10 'a'.toUInt8 '-'.toUInt8 5 56 =
      .ok (['-'.toUInt8] ++ (digits ++ [0])) ∧
    decode 10 digits = some 56 ∧ digits.length = 5 := by
  obtain ⟨digits, h1, h2, h3, -⟩ := integerText_numeral .riscv32 { bit8 := true } 'd'.toUInt8
    (v := 200) (by decide) rfl (Or.inl rfl) (show 5 ≤ 66 by decide)
  exact ⟨digits, h1, h2, h3.trans (by simp)⟩

end Noc.Printf
