import Noc.Printf.Numerals
import Noc.Printf.Types

/-! # Fields of `%d`

What `%d` emits for a value of each length, against the field that the flags, the width and the
precision describe (`signedField`).

* `signed_eq`: the sign and the magnitude that the formatter takes from its argument.
* `convert_decimal`: the directive emits the sign and the decimal digits, with padding in front of
  or behind both.
* `Spec.emits_iff`: what a directive emits, wherever it stands in a format.
* `signed_field_iff`: so the field is right unless a `long` has 32 bits, or the flag `+` is ignored,
  or zeros come before a sign. -/

namespace Noc.Printf

open Noc.Lib.Output Noc.Lib.Output.Emission Noc.Targets

variable {ν : Type} {T : Target} {va : VaArg ν} {flags : Flags}

/-! ### The argument -/

/-- The number of bits of an integer with the length modifier. -/
def Length.bits (T : Target) : Length → ℕ
  | .hh => 8
  | .h => 16
  | length => 8 * length.argType.sizeof T

/-- The value is one of the signed type of the length modifier. -/
def Length.InRange (T : Target) (length : Length) (x : ℤ) : Prop :=
  -2 ^ (length.bits T - 1) ≤ x ∧ x < 2 ^ (length.bits T - 1)

/-- The argument for a value, as an `int` if its type is no larger. -/
def Length.arg (T : Target) (length : Length) (x : ℤ) : Arg :=
  if length.argType.sizeof T = 8 then .word64 (BitVec.ofInt 64 x) else .word32 (BitVec.ofInt 32 x)

/-- The value is what the formatter gets when it asks for its argument. -/
def Length.Passes (T : Target) (va : VaArg ν) (length : Length) (args : ν) (x : ℤ) : Prop :=
  if (length.apply T {}).bit64 then (va.word64 args).1 = BitVec.ofInt 64 x
  else (va.word32 args).1 = BitVec.ofInt 32 x

theorem Length.sizeof_cases (length : Length) :
    length.argType.sizeof T = 4 ∨ length.argType.sizeof T = 8 := by
  cases length with
  | l => exact T.ptr_cases
  | z => exact T.ptr_cases
  | t => exact T.ptr_cases
  | ll => exact Or.inr rfl
  | j => exact Or.inr rfl
  | _ => exact Or.inl rfl

theorem Length.size_arg (length : Length) (x : ℤ) :
    (length.arg T x).size T = length.argType.sizeof T := by
  unfold Length.arg
  rcases length.sizeof_cases (T := T) with h | h
  · rw [if_neg (by omega), h]
    rfl
  · rw [if_pos h, h]
    rfl

/-- An argument of the right size arrives. -/
theorem passes_arg {length : Length} (hl : length = .l → T.ptrBytes = 8) (x : ℤ)
    (rest : List Arg) (m : Bool) :
    length.Passes T (argList T) ⟨length.arg T x :: rest, m⟩ x := by
  have hasks : length.argType.sizeof T = if (length.apply T {}).bit64 then 8 else 4 :=
    (length.asks_eq_sizeof_iff.mpr hl).trans (length.asks_eq rfl).symm
  unfold Length.Passes Length.arg
  rw [hasks]
  by_cases h64 : (length.apply T {}).bit64
  · rw [if_pos h64, if_pos h64, if_pos rfl]
    exact (BitVec.ofNat_toNat 64 _).trans (BitVec.setWidth_eq _)
  · rw [if_neg h64, if_neg h64, if_neg (by decide)]
    exact (BitVec.ofNat_toNat 32 _).trans (BitVec.setWidth_eq _)

theorem toNat_word32 (x : ℤ) : (((BitVec.ofInt 32 x).setWidth 64).toNat : ℤ) = x % 2 ^ 32 := by
  rw [BitVec.toNat_setWidth, Nat.mod_eq_of_lt (by have := (BitVec.ofInt 32 x).isLt; omega),
    BitVec.toNat_ofInt]
  omega

/-- A word masked to `k` bits. -/
theorem toNat_and_mask {v m : BitVec 64} {x : ℤ} {k : ℕ} (hk : k ≤ 32) (hm : m.toNat = 2 ^ k - 1)
    (hv : (v.toNat : ℤ) = x % 2 ^ 32) : ((v &&& m).toNat : ℤ) = x % 2 ^ k := by
  have hdvd : (2 : ℤ) ^ k ∣ 2 ^ 32 := pow_dvd_pow 2 hk
  rw [BitVec.toNat_and, hm, Nat.and_two_pow_sub_one_eq_mod]
  push_cast
  rw [hv, Int.emod_emod_of_dvd x hdvd]

/-- The masks of the sizes, on an `int`. -/
theorem integerArg_word32 {args : ν} (h : flags.bit64 = false) : (integerArg va flags args).1 =
    let v := (va.word32 args).1.setWidth 64
    let v := if flags.bit16 then v &&& 0xffff else v
    if flags.bit8 then v &&& 0xff else v := by
  rw [integerArg, h, if_neg Bool.false_ne_true]

/-- **The argument** as the formatter reads it: the value modulo the size. -/
theorem integerArg_toNat {length : Length} {args : ν} {x : ℤ}
    (hl : length = .l → T.ptrBytes = 8)
    (hsizes : flags.bit64 = false ∧ flags.bit16 = false ∧ flags.bit8 = false)
    (h : length.Passes T va args x) :
    ((integerArg va (length.apply T flags) args).1.toNat : ℤ) = x % 2 ^ length.bits T := by
  obtain ⟨h64, h16, h8⟩ := hsizes
  have hlong : ∀ {flags : Flags}, flags.bit64 = true → (va.word64 args).1 = BitVec.ofInt 64 x →
      ((integerArg va flags args).1.toNat : ℤ) = x % 2 ^ 64 := by
    intro flags hf h
    rw [integerArg, if_pos hf, h, BitVec.toNat_ofInt]
    omega
  have hword : (va.word32 args).1 = BitVec.ofInt 32 x →
      ((integerArg va flags args).1.toNat : ℤ) = x % 2 ^ 32 := by
    intro h
    rw [integerArg_word32 h64, h, h16, h8]
    exact toNat_word32 x
  cases length with
  | none => exact hword h
  | hh =>
    have hw : (va.word32 args).1 = BitVec.ofInt 32 x := h
    rw [integerArg_word32 (show (Length.apply T flags .hh).bit64 = false from h64), hw]
    show (((if flags.bit16 then _ else _) &&& (0xff : BitVec 64)).toNat : ℤ) = x % 2 ^ 8
    rw [h16, if_neg Bool.false_ne_true]
    exact toNat_and_mask (by decide) rfl (toNat_word32 x)
  | h =>
    have hw : (va.word32 args).1 = BitVec.ofInt 32 x := h
    rw [integerArg_word32 (show (Length.apply T flags .h).bit64 = false from h64), hw]
    show ((if flags.bit8 then _ else _ &&& (0xffff : BitVec 64)).toNat : ℤ) = x % 2 ^ 16
    rw [h8, if_neg Bool.false_ne_true]
    exact toNat_and_mask (by decide) rfl (toNat_word32 x)
  | l =>
    show _ = x % 2 ^ (8 * T.ptrBytes)
    rw [hl rfl]
    exact hlong rfl h
  | ll => exact hlong rfl h
  | j => exact hlong rfl h
  | _ =>
    show _ = x % 2 ^ (8 * T.ptrBytes)
    unfold Length.Passes at h
    rw [Length.apply] at h ⊢
    rcases T.ptr_cases with hp | hp
    · rw [hp] at h ⊢
      exact hword h
    · rw [hp] at h ⊢
      exact hlong rfl h

/-! ### Sign and magnitude -/

/-- The two's complement of a value of `2 * half` bit patterns. -/
theorem magnitude (half : ℕ) {v : ℕ} {x : ℤ} (hlo : -half ≤ x) (hhi : x < half)
    (hv : (v : ℤ) = x % (2 * half)) :
    (half ≤ v ↔ x < 0) ∧ (x < 0 → 2 * half - v = x.natAbs) ∧ (0 ≤ x → v = x.natAbs) := by
  rcases lt_or_ge x 0 with hneg | hpos
  · have hmod : x % (2 * half) = x + 2 * half := by
      rw [← Int.add_emod_right, Int.emod_eq_of_lt (by omega) (by omega)]
    rw [hmod] at hv
    omega
  · rw [Int.emod_eq_of_lt hpos (by omega)] at hv
    omega

/-- The sign that the code gives a value: the flag `+` counts for neither `h` nor `hh`. -/
def signOf (flags : Flags) (length : Length) (x : ℤ) : Byte :=
  if x < 0 then '-'.toUInt8
  else if flags.addSign ∧ length ≠ .h ∧ length ≠ .hh then '+'.toUInt8
  else if flags.space then ' '.toUInt8
  else 0

/-- The sizes `h` and `hh`. -/
theorem extend_small (half : ℕ) {v : ℕ} {x : ℤ} (hlo : -half ≤ x) (hhi : x < half)
    (hv : (v : ℤ) = x % (2 * half)) :
    (if half ≤ v then ('-'.toUInt8, 2 * half - v) else (0, v)) =
      (if x < 0 then '-'.toUInt8 else 0, x.natAbs) := by
  obtain ⟨hneg, hminus, hplus⟩ := magnitude half hlo hhi hv
  by_cases h : x < 0
  · rw [if_pos (hneg.mpr h), if_pos h, hminus h]
  · rw [if_neg fun h' => h (hneg.mp h'), if_neg h, hplus (not_lt.mp h)]

/-- The other sizes; the smallest value is its own magnitude. -/
theorem extend_large (half : ℕ) {v : ℕ} {x : ℤ} (plus : Byte) (hlo : -half ≤ x) (hhi : x < half)
    (hv : (v : ℤ) = x % (2 * half)) :
    (if half ≤ v then ('-'.toUInt8, if v ≠ half then 2 * half - v else v) else (plus, v)) =
      (if x < 0 then '-'.toUInt8 else plus, x.natAbs) := by
  obtain ⟨hneg, hminus, hplus⟩ := magnitude half hlo hhi hv
  by_cases h : x < 0
  · have hself : (if v ≠ half then 2 * half - v else v) = 2 * half - v := by
      split_ifs <;> omega
    rw [if_pos (hneg.mpr h), if_pos h, hself, hminus h]
  · rw [if_neg fun h' => h (hneg.mp h'), if_neg h, hplus (not_lt.mp h)]

theorem signExtend_eq {length : Length} {x : ℤ} {v : ℕ} (hl : length = .l → T.ptrBytes = 8)
    (hsizes : flags.bit64 = false ∧ flags.bit16 = false ∧ flags.bit8 = false)
    (hx : length.InRange T x) (hv : (v : ℤ) = x % 2 ^ length.bits T) :
    signExtend (length.apply T flags) v = (if x < 0 then '-'.toUInt8
      else if flags.addSign ∧ length ≠ .h ∧ length ≠ .hh then '+'.toUInt8 else 0, x.natAbs) := by
  obtain ⟨h64, h16, h8⟩ := hsizes
  obtain ⟨hlo, hhi⟩ := hx
  have hlong : ∀ {flags : Flags}, flags.bit64 = true → flags.bit16 = false → flags.bit8 = false →
      -2 ^ 63 ≤ x → x < 2 ^ 63 → (v : ℤ) = x % 2 ^ 64 → signExtend flags v =
        (if x < 0 then '-'.toUInt8 else if flags.addSign then '+'.toUInt8 else 0, x.natAbs) := by
    intro flags h64 h16 h8 hlo hhi hv
    rw [signExtend, h64, h16, h8]
    exact extend_large (2 ^ 63) _ (by simpa using hlo) (by simpa using hhi) (by simpa using hv)
  have hword : -2 ^ 31 ≤ x → x < 2 ^ 31 → (v : ℤ) = x % 2 ^ 32 → signExtend flags v =
      (if x < 0 then '-'.toUInt8 else if flags.addSign then '+'.toUInt8 else 0, x.natAbs) := by
    intro hlo hhi hv
    rw [signExtend, h64, h16, h8]
    exact extend_large (2 ^ 31) _ (by simpa using hlo) (by simpa using hhi) (by simpa using hv)
  have hplus : ∀ {flags : Flags} {length : Length}, length ≠ .h → length ≠ .hh →
      (if flags.addSign ∧ length ≠ .h ∧ length ≠ .hh then '+'.toUInt8 else 0) =
        if flags.addSign then '+'.toUInt8 else 0 := by
    intro flags length h1 h2
    simp only [h1, h2, ne_eq, not_false_iff, and_true]
  cases length with
  | none =>
    rw [hplus (by decide) (by decide)]
    exact hword hlo hhi hv
  | hh =>
    have hno : ¬ (flags.addSign ∧ Length.hh ≠ .h ∧ Length.hh ≠ .hh) := fun h => h.2.2 rfl
    rw [if_neg hno, signExtend]
    show (if flags.bit16 then _ else if (true : Bool) then _ else _) = _
    rw [h16]
    exact extend_small (2 ^ 7) hlo hhi hv
  | h =>
    have hno : ¬ (flags.addSign ∧ Length.h ≠ .h ∧ Length.h ≠ .hh) := fun h => h.2.1 rfl
    rw [if_neg hno, signExtend]
    exact extend_small (2 ^ 15) hlo hhi hv
  | l =>
    change -2 ^ (8 * T.ptrBytes - 1) ≤ x at hlo
    change x < 2 ^ (8 * T.ptrBytes - 1) at hhi
    change (v : ℤ) = x % 2 ^ (8 * T.ptrBytes) at hv
    rw [hl rfl] at hlo hhi hv
    rw [hplus (by decide) (by decide)]
    exact hlong rfl h16 h8 hlo hhi hv
  | ll =>
    rw [hplus (by decide) (by decide)]
    exact hlong rfl h16 h8 hlo hhi hv
  | j =>
    rw [hplus (by decide) (by decide)]
    exact hlong rfl h16 h8 hlo hhi hv
  | _ =>
    rw [hplus (by decide) (by decide)]
    change -2 ^ (8 * T.ptrBytes - 1) ≤ x at hlo
    change x < 2 ^ (8 * T.ptrBytes - 1) at hhi
    change (v : ℤ) = x % 2 ^ (8 * T.ptrBytes) at hv
    rw [Length.apply]
    rcases T.ptr_cases with hp | hp
    · rw [hp] at hlo hhi hv ⊢
      exact hword hlo hhi hv
    · rw [hp] at hlo hhi hv ⊢
      exact hlong rfl h16 h8 hlo hhi hv

/-- **The sign and the magnitude** of `%d`. -/
theorem signed_eq {length : Length} {x : ℤ} {v : ℕ} (hl : length = .l → T.ptrBytes = 8)
    (hsizes : flags.bit64 = false ∧ flags.bit16 = false ∧ flags.bit8 = false)
    (hx : length.InRange T x) (hv : (v : ℤ) = x % 2 ^ length.bits T) :
    signed (length.apply T flags) v = (signOf flags length x, x.natAbs) := by
  have hspace : (length.apply T flags).space = flags.space := by
    obtain ⟨bit64, bit16, bit8, h⟩ := length.apply_eq T flags
    rw [h]
  have hminus : '-'.toUInt8 ≠ 0 := by decide
  have hplus : '+'.toUInt8 ≠ 0 := by decide
  rw [signed, signExtend_eq hl hsizes hx hv, hspace]
  unfold signOf
  dsimp only
  by_cases h1 : x < 0
  · rw [if_pos h1, if_pos h1, if_neg fun h => hminus h.1]
  rw [if_neg h1, if_neg h1]
  by_cases h2 : flags.addSign ∧ length ≠ .h ∧ length ≠ .hh
  · rw [if_pos h2, if_pos h2, if_neg fun h => hplus h.1]
  · rw [if_neg h2, if_neg h2]
    simp only [true_and]

/-! ### The field -/

/-- The sign character. -/
def signText (flags : Flags) (x : ℤ) : List Byte :=
  if x < 0 then ['-'.toUInt8]
  else if flags.addSign then ['+'.toUInt8]
  else if flags.space then [' '.toUInt8]
  else []

/-- The decimal digits of `n`, at least one, and as many as the precision says. -/
def decimalText (precision n : ℕ) : List Byte :=
  (Nat.digits 10 n ++ List.replicate (max precision 1 - (Nat.digits 10 n).length) 0).reverse.map
    fun d => '0'.toUInt8 + UInt8.ofNat d

/-- A field with a sign and digits: blanks on the right, zeros between them, or blanks on the
left. -/
def signedField (left zeros : Bool) (width : ℕ) (sign digits : List Byte) : List Byte :=
  let fill := width - (sign.length + digits.length)
  if left then sign ++ (digits ++ List.replicate fill ' '.toUInt8)
  else if zeros then sign ++ (List.replicate fill '0'.toUInt8 ++ digits)
  else List.replicate fill ' '.toUInt8 ++ (sign ++ digits)

/-- The field that the code makes of a text. -/
def paddedText (flags : Flags) (width : ℕ) (text : List Byte) : List Byte :=
  List.replicate (if !flags.left then width - text.length else 0)
      (if flags.padZero then '0'.toUInt8 else ' '.toUInt8) ++
    (text ++ List.replicate (if flags.left then width - text.length else 0) ' '.toUInt8)

/-- Zeros go behind the sign only if there is no sign, or none are needed. -/
theorem paddedText_eq_iff {width : ℕ} {sign digits : List Byte}
    (hsign : ∀ c ∈ sign.head?, c ≠ '0'.toUInt8) :
    paddedText flags width (sign ++ digits) =
        signedField flags.left flags.padZero width sign digits ↔
      ¬ (flags.padZero ∧ ¬ flags.left ∧ sign ≠ [] ∧ sign.length + digits.length < width) := by
  unfold paddedText signedField
  rw [List.length_append]
  cases hleft : flags.left with
  | true => simp
  | false =>
    cases hzero : flags.padZero with
    | false => simp
    | true =>
      rcases sign with _ | ⟨c, sign⟩
      · simp
      · have hc : c ≠ '0'.toUInt8 := hsign c rfl
        rcases Nat.eq_zero_or_pos (width - ((c :: sign).length + digits.length)) with h | h
        · refine iff_of_true ?_ fun hlt => ?_
          · rw [h]
            simp
          · have := hlt.2.2.2
            omega
        · obtain ⟨n, hn⟩ := Nat.exists_eq_add_of_le' h
          refine iff_of_false (fun heq => ?_) fun hno =>
            hno ⟨rfl, Bool.false_ne_true, List.cons_ne_nil c sign, by omega⟩
          rw [hn] at heq
          exact hc (List.cons.inj heq).1.symm

/-- A text with another sign is another field. -/
theorem paddedText_ne {left zeros : Bool} {width : ℕ} {sign sign' digits : List Byte}
    (hplus : '+'.toUInt8 ∈ sign) (hsign : '+'.toUInt8 ∉ sign') (hdigits : '+'.toUInt8 ∉ digits) :
    paddedText flags width (sign' ++ digits) ≠ signedField left zeros width sign digits := by
  have hpad : ∀ (zero : Bool) (n : ℕ),
      '+'.toUInt8 ∉ List.replicate n (if zero then '0'.toUInt8 else ' '.toUInt8) := by
    intro zero n h
    have := List.eq_of_mem_replicate h
    cases zero <;> cases this
  have hspaces : ∀ n, '+'.toUInt8 ∉ List.replicate n ' '.toUInt8 := hpad false
  have hnot : '+'.toUInt8 ∉ paddedText flags width (sign' ++ digits) := by
    simp only [paddedText, List.mem_append, not_or]
    exact ⟨hpad _ _, ⟨hsign, hdigits⟩, hspaces _⟩
  have hmem : '+'.toUInt8 ∈ signedField left zeros width sign digits := by
    unfold signedField
    dsimp only
    split_ifs <;> simp [hplus]
  intro h
  rw [h] at hnot
  exact hnot hmem

/-- The flag `+` is given for a value that is not negative, at a size that ignores it. -/
def MissesPlus (flags : Flags) (length : Length) (x : ℤ) : Prop :=
  (length = .h ∨ length = .hh) ∧ flags.addSign ∧ 0 ≤ x

theorem signOf_eq {length : Length} {x : ℤ} (h : ¬ MissesPlus flags length x) :
    (if signOf flags length x ≠ 0 then [signOf flags length x] else []) = signText flags x := by
  by_cases h1 : x < 0
  · have hsign : signOf flags length x = '-'.toUInt8 := if_pos h1
    rw [hsign, signText, if_pos h1]
    rfl
  by_cases h2 : flags.addSign
  · have hlen : length ≠ .h ∧ length ≠ .hh :=
      not_or.mp fun hlen => h ⟨hlen, h2, not_lt.mp h1⟩
    have hsign : signOf flags length x = '+'.toUInt8 := by
      rw [signOf, if_neg h1, if_pos ⟨h2, hlen⟩]
    rw [hsign, signText, if_neg h1, if_pos h2]
    rfl
  have hsign : signOf flags length x = if flags.space then ' '.toUInt8 else 0 := by
    rw [signOf, if_neg h1, if_neg fun h => h2 h.1]
  rw [hsign, signText, if_neg h1, if_neg h2]
  cases flags.space <;> rfl

theorem plus_missed {length : Length} {x : ℤ} (h : MissesPlus flags length x) :
    '+'.toUInt8 ∈ signText flags x ∧
      '+'.toUInt8 ∉ if signOf flags length x ≠ 0 then [signOf flags length x] else [] := by
  obtain ⟨hlen, hplus, hx⟩ := h
  have hno : ¬ (flags.addSign ∧ length ≠ .h ∧ length ≠ .hh) := fun h => not_or.mpr h.2 hlen
  constructor
  · rw [signText, if_neg (not_lt.mpr hx), if_pos hplus]
    exact List.mem_singleton.mpr rfl
  · rw [signOf, if_neg (not_lt.mpr hx), if_neg hno]
    cases flags.space <;> decide

theorem head_signText {x : ℤ} : ∀ c ∈ (signText flags x).head?, c ≠ '0'.toUInt8 := by
  intro c hc
  unfold signText at hc
  split_ifs at hc
  · obtain rfl := Option.some.inj hc
    decide
  · obtain rfl := Option.some.inj hc
    decide
  · obtain rfl := Option.some.inj hc
    decide
  · simp at hc

/-! ### The directive -/

theorem lt_of_mem_decimal {n k d : ℕ} (h : d ∈ Nat.digits 10 n ++ List.replicate k 0) : d < 10 := by
  rcases List.mem_append.mp h with h | h
  · exact Nat.digits_lt_base (by decide) h
  · rw [List.eq_of_mem_replicate h]
    decide

theorem isdigit_of_mem_decimalText {precision n : ℕ} {c : Byte} (h : c ∈ decimalText precision n) :
    isdigit c = true := by
  obtain ⟨d, hd, rfl⟩ := List.mem_map.mp h
  have hall : ∀ d : Fin 10, isdigit ('0'.toUInt8 + UInt8.ofNat d) = true := by decide
  exact hall ⟨d, lt_of_mem_decimal (List.mem_reverse.mp hd)⟩

theorem length_decimalText (precision n : ℕ) :
    (decimalText precision n).length = storedDigits 10 precision n := by
  rw [decimalText, List.length_map, List.length_reverse, List.length_append, List.length_replicate,
    storedDigits, digitCount]
  omega

/-- The conversion stores the decimal digits. -/
theorem decimalText_eq (hex : Byte) (precision n : ℕ) :
    (digitChars 10 hex (storedDigits 10 precision n) n).reverse = decimalText precision n := by
  have hb : IsBase 10 := Or.inr (Or.inr (Or.inl rfl))
  have hcount : storedDigits 10 precision n - digitCount 10 n =
      max precision 1 - (Nat.digits 10 n).length := by
    unfold storedDigits digitCount
    omega
  have hchar : ∀ d ∈ Nat.digits 10 n ++
      List.replicate (max precision 1 - (Nat.digits 10 n).length) 0,
      charDigit (UInt8.ofNat d) hex = '0'.toUInt8 + UInt8.ofNat d := by
    intro d hd
    have hall : ∀ d : Fin 10, ¬ 9 < UInt8.ofNat d := by decide
    rw [charDigit, if_neg (hall ⟨d, lt_of_mem_decimal hd⟩), UInt8.add_comm]
  rw [digitChars_eq hb (by unfold storedDigits; omega), hcount, decimalText, List.map_reverse]
  exact congrArg List.reverse (List.map_congr_left hchar)

/-- The end of an integer conversion: a text without a NUL is padded. -/
theorem output_text {width : ℕ} {text : List Byte} (hnul : (0 : Byte) ∉ text)
    (hw : width < 2 ^ 32) (hlen : text.length < 2 ^ 32) :
    output flags width 0 (text ++ [0]) = ⟨paddedText flags width text, .value ()⟩ := by
  have hmax : shownMax width 0 text.length = max width text.length := by
    rw [shownMax, if_pos rfl]
    split_ifs <;> omega
  have hshown : shownLen 0 text.length = text.length := if_neg fun h => h.1 rfl
  rw [output_eq (by simp), takeWhile_nul hnul]
  dsimp only
  rw [hshown, hmax, List.take_of_length_le (Nat.le_max_right _ _)]
  rfl

/-- The character that the digits above 9 begin with. -/
def hexOf (flags : Flags) (c : Byte) : Byte :=
  if c = 'X'.toUInt8 ∨ c = 'p'.toUInt8 ∨ flags.alt then 'A'.toUInt8 else 'a'.toUInt8

theorem isHex_hexOf (flags : Flags) (c : Byte) : IsHex (hexOf flags c) := by
  unfold hexOf
  split_ifs
  · exact Or.inr rfl
  · exact Or.inl rfl

/-- **An integer directive**: what the `switch` emits, and the padded text of `digits`. -/
theorem convert_integer (T : Target) {width precision base m : ℕ} {c sign : Byte} {v : BitVec 64}
    {pre : List Byte} (hc : conversion flags c v.toNat = ⟨pre, .value (base, sign, m)⟩)
    (hw : width ≤ maxFormat) (hp : precision ≤ digitsSize - 1)
    (hroom : ¬ (precision = digitsSize - 1 ∧ sign ≠ 0)) :
    convert T ⟨flags, width, precision, .integer c v⟩ =
      ⟨pre ++ paddedText flags width (storedChars base (hexOf flags c) sign precision m).reverse,
        .value true⟩ := by
  obtain ⟨hb, hm, -⟩ := conversion_value v.isLt (congrArg Emission.ending hc)
  have hnul : (0 : Byte) ∉ (storedChars base (hexOf flags c) sign precision m).reverse := by
    rw [List.mem_reverse]
    exact zero_notMem_storedChars hb (isHex_hexOf flags c) precision m
  have hlen : (storedChars base (hexOf flags c) sign precision m).reverse.length < 2 ^ 32 := by
    have hcount := digitCount_le hb hm
    unfold digitsSize at hp
    rw [List.length_reverse, length_storedChars, storedDigits]
    split_ifs <;> omega
  have hw' : width < 2 ^ 32 := by
    unfold maxFormat at hw
    omega
  have htext : integerText T base (hexOf flags c) sign precision m =
      .ok ((storedChars base (hexOf flags c) sign precision m).reverse ++ [0]) := by
    rw [integerText_cases hb hm hp, if_neg hroom]
  unfold hexOf at htext hnul hlen ⊢
  rw [convert]
  dsimp only
  rw [hc, bind_value rfl]
  dsimp only
  rw [if_neg (not_lt.mpr hp), htext, ok_lift, value_bind, output_text hnul hw' hlen, bind_value rfl,
    pure_eq, List.append_nil]

/-- **A directive `%d`.** -/
theorem convert_decimal (T : Target) {width precision m : ℕ} {v : BitVec 64} {sign : Byte}
    (hsigned : signed flags v.toNat = (sign, m)) (hw : width ≤ maxFormat) (hp : precision ≤ 66) :
    convert T ⟨flags, width, precision, .integer 'd'.toUInt8 v⟩ =
      ⟨paddedText flags width ((if sign ≠ 0 then [sign] else []) ++ decimalText precision m),
        .value true⟩ := by
  have hconv : conversion flags 'd'.toUInt8 v.toNat = ⟨[], .value (10, sign, m)⟩ := by
    rw [conversion, if_pos rfl, hsigned]
    rfl
  have hp' : precision < digitsSize - 1 := by
    unfold digitsSize
    omega
  have htext : (storedChars 10 (hexOf flags 'd'.toUInt8) sign precision m).reverse =
      (if sign ≠ 0 then [sign] else []) ++ decimalText precision m := by
    rw [storedChars, List.reverse_append, decimalText_eq]
    split_ifs <;> rfl
  rw [convert_integer T hconv hw hp'.le fun h => hp'.ne h.1, htext, List.nil_append]

/-- The length modifier makes no difference for the padding. -/
theorem paddedText_apply (length : Length) (width : ℕ) (text : List Byte) :
    paddedText (length.apply T flags) width text = paddedText flags width text := by
  obtain ⟨bit64, bit16, bit8, h⟩ := length.apply_eq T flags
  rw [h]
  rfl

/-- The format that is one directive: the run gets to its end if the directive is carried out. -/
theorem run_directive_iff (s : Spec) {args args' : ν} {text : List Byte}
    (hfits : ¬ s.TooBig va args) :
    Run T va ('%'.toUInt8 :: (s.body ++ [0])) args text (.whole args') ↔
      convert T (s.read T va args).1 = ⟨text, .value true⟩ ∧ (s.read T va args).2 = args' := by
  rcases hbody : s.body ++ [0] with _ | ⟨c, tail⟩
  · exact absurd hbody (by simp)
  obtain ⟨hc, h0⟩ := s.body_head hbody
  have hparse := parse_render (T := T) s hbody hfits
  constructor
  · intro h
    rcases h.of_directive hc h0 hparse with ⟨text₁, text₂, hconv, rfl, hrun⟩ | ⟨-, -, hwhole⟩
    · rcases hrun with _ | h0
      · rw [List.append_nil]
        exact ⟨hconv, rfl⟩
      · exact absurd rfl h0
    · exact absurd rfl (hwhole args')
  · rintro ⟨hconv, rfl⟩
    rw [← List.append_nil text]
    exact .directive hc h0 hparse hconv .nul

/-- Wherever the directive stands in a format, it emits the text and takes its arguments. -/
def Spec.Emits (T : Target) (va : VaArg ν) (s : Spec) (args : ν) (text : List Byte) (args' : ν) :
    Prop :=
  ∀ {rest text' : List Byte} {o : Outcome ν}, Run T va rest args' text' o →
    Run T va ('%'.toUInt8 :: (s.body ++ rest)) args (text ++ text') o

theorem Spec.emits_iff (s : Spec) {args args' : ν} {text : List Byte} (hfits : ¬ s.TooBig va args) :
    s.Emits T va args text args' ↔
      convert T (s.read T va args).1 = ⟨text, .value true⟩ ∧ (s.read T va args).2 = args' := by
  constructor
  · intro h
    have hrun : Run T va ('%'.toUInt8 :: (s.body ++ [0])) args (text ++ []) (.whole args') :=
      h .nul
    rw [List.append_nil] at hrun
    exact (run_directive_iff s hfits).mp hrun
  · rintro ⟨hconv, rfl⟩ rest text' o hrun
    rcases hbody : s.body ++ rest with _ | ⟨c, tail⟩
    · have hnil := (List.append_eq_nil_iff.mp hbody).2
      exact absurd hnil hrun.ne_nil
    · obtain ⟨hc, h0⟩ := s.body_head hbody
      exact .directive hc h0 (parse_render s hbody hfits) hconv hrun

theorem Spec.read_eq (s : Spec) (args : ν) : (s.read T va args).1 =
    ⟨s.conversion.apply T s.setFlags, (s.numbers va args).1, (s.numbers va args).2.1,
      (s.conversion.read va (s.conversion.apply T s.setFlags) (s.numbers va args).2.2).1⟩ :=
  rfl

/-- Zeros are asked for: `0` is given, and no precision. -/
def Spec.zeros (s : Spec) : Bool := s.setFlags.padZero && s.precision.isNone

/-- A directive `%d` with the value that arrives. -/
theorem convert_signed (T : Target) (s : Spec) {length : Length}
    (hs : s.conversion = .integer length .d) {args : Unread} {rest : List Arg}
    {width precision : ℕ} {x : ℤ}
    (hnum : s.numbers (argList T) args = (width, precision, ⟨length.arg T x :: rest, true⟩))
    (hl : length = .l → T.ptrBytes = 8) (hx : length.InRange T x) (hw : width ≤ maxFormat)
    (hp : precision ≤ 66) : convert T (s.read T (argList T) args).1 =
      ⟨paddedText s.setFlags width ((if signOf s.setFlags length x ≠ 0 then
        [signOf s.setFlags length x] else []) ++ decimalText precision x.natAbs), .value true⟩ := by
  have hread : (s.read T (argList T) args).1 = ⟨length.apply T s.setFlags, width, precision,
      .integer 'd'.toUInt8 (integerArg (argList T) (length.apply T s.setFlags)
        ⟨length.arg T x :: rest, true⟩).1⟩ := by
    rw [s.read_eq, hnum, hs]
    rfl
  have hsigned := signed_eq hl s.setFlags_sizes hx
    (integerArg_toNat hl s.setFlags_sizes (passes_arg hl x rest true))
  rw [hread, convert_decimal T hsigned hw hp, paddedText_apply]

/-- **When a `%d` field is right**, and made of its own argument: for every value of each length,
all flags, every width and precision, as digits or as an argument (`0` with a precision and without
`-` apart, which is left open). A `long` of 32 bits is not read as such, the flag `+` is ignored for
`h` and `hh`, and the zeros of a width are put before the sign. -/
theorem signed_field_iff (T : Target) (s : Spec) {length : Length}
    (hs : s.conversion = .integer length .d) {args : Unread} {rest : List Arg}
    {width precision : ℕ} {x : ℤ}
    (hnum : s.numbers (argList T) args = (width, precision, ⟨length.arg T x :: rest, true⟩))
    (hx : length.InRange T x) (hw : width ≤ maxFormat) (hp : precision ≤ 66)
    (hopen : s.setFlags.padZero → s.setFlags.left ∨ s.precision = none) :
    Run T (argList T) ('%'.toUInt8 :: (s.body ++ [0])) args
        (signedField s.setFlags.left s.zeros width (signText s.setFlags x)
          (decimalText precision x.natAbs)) (.whole ⟨rest, true⟩) ↔
      (length = .l → T.ptrBytes = 8) ∧ ¬ MissesPlus s.setFlags length x ∧
      ¬ (s.setFlags.padZero ∧ ¬ s.setFlags.left ∧ signText s.setFlags x ≠ [] ∧
        (signText s.setFlags x).length + (decimalText precision x.natAbs).length < width) := by
  have hfits : ¬ s.TooBig (argList T) args := by
    rw [Spec.TooBig, hnum, not_or]
    exact ⟨not_lt.mpr hw, not_lt.mpr (hp.trans (by decide))⟩
  have hleft : (s.read T (argList T) args).2 =
      ⟨rest, decide (length.argType.sizeof T = length.asks T)⟩ := by
    rw [Spec.read, hnum]
    dsimp only
    rw [conversion_read_args s.conversion s.setFlags_sizes.1, hs, ← length.size_arg x]
    rfl
  rw [run_directive_iff s hfits, hleft, Unread.mk.injEq, and_iff_right rfl, decide_eq_true_iff,
    length.asks_eq_sizeof_iff, and_comm]
  refine and_congr_right fun hl => ?_
  have hconv := convert_signed T s hs hnum hl hx hw hp
  have hzeros : signedField s.setFlags.left s.zeros =
      signedField s.setFlags.left s.setFlags.padZero := by
    funext width sign digits
    unfold signedField Spec.zeros
    cases hzero : s.setFlags.padZero with
    | false => rfl
    | true =>
      rcases hopen hzero with hleft | hnone
      · rw [hleft, if_pos rfl, if_pos rfl]
      · rw [hnone]
        rfl
  rw [hconv, hzeros, Emission.mk.injEq, and_iff_left rfl]
  by_cases hmiss : MissesPlus s.setFlags length x
  · obtain ⟨hplus, hnot⟩ := plus_missed hmiss
    have hdigits : '+'.toUInt8 ∉ decimalText precision x.natAbs := fun h => by
      cases isdigit_of_mem_decimalText h
    exact iff_of_false (paddedText_ne hplus hnot hdigits) fun h => h.1 hmiss
  · rw [signOf_eq hmiss, paddedText_eq_iff head_signText, and_iff_right hmiss]

/-- `%-+8.3ld` of -42. -/
theorem signed_field_iff_left :
    Run .x8664 (argList .x8664) ("%-+8.3ld".toList.map Char.toUInt8 ++ [0])
      (.start [.word64 (-42)]) (signedField true false 8 ['-'.toUInt8] (decimalText 3 42))
      (.whole (.start [])) := by
  refine (signed_field_iff .x8664 (s := ⟨[.minus, .plus], .digits [8], some (.digits [3]),
    .integer .l .d, by rintro ds ⟨⟩; decide⟩) (x := -42) rfl rfl ⟨by decide, by decide⟩
    (by decide) (by decide) (fun _ => Or.inl rfl)).mpr ⟨fun _ => rfl, ?_, fun h => h.2.1 rfl⟩
  rintro ⟨h | h, -⟩ <;> cases h

/-- The zeros of `%05d` are put before the sign of -5, and `%+hd` of 5 has no sign. -/
theorem signed_field_zeros :
    (formatted .x8664 wordArgs (cstr "%05d") [-5] = ⟨"000-5".toList.map Char.toUInt8, .value ()⟩ ∧
      signedField false true 5 (signText { padZero := true } (-5)) (decimalText 0 5) =
        "-0005".toList.map Char.toUInt8) ∧
    formatted .x8664 wordArgs (cstr "%+hd") [5] = ⟨"5".toList.map Char.toUInt8, .value ()⟩ ∧
      signedField false false 0 (signText { addSign := true } 5) (decimalText 0 5) =
        "+5".toList.map Char.toUInt8 := by
  have hfive : decimalText 0 5 = ['5'.toUInt8] := by
    rw [decimalText, Nat.digits_of_lt 10 5 (by decide) (by decide)]
    rfl
  refine ⟨⟨rfl, ?_⟩, rfl, ?_⟩
  · rw [hfive]
    rfl
  · rw [hfive]
    rfl

end Noc.Printf
