import Noc.Printf.Dump
import Noc.Printf.Padding
import Noc.Printf.Widths

/-! # The meaning of a format

What a format says about its arguments, item by item and without the formatter: the number that an
argument is, the numeral of a number, the field around a text, and the texts of the items one after
the other (`Format.shows`).

* `convert_shown`: a directive is carried out as it is meant.
* `formatted_eq_iff`: the formatter emits exactly the text that the format means. -/

namespace Noc.Printf

open Noc.Lib.Output Noc.Lib.Output.Emission Noc.Targets

variable {T : Target} {flags : Flags} {width precision : ℕ}

/-! ### Numbers -/

/-- The number that an argument is, with the bits of the length modifier. -/
def Length.unsigned (T : Target) (length : Length) (a : Arg) : ℕ := a.toNat % 2 ^ length.bits T

/-- The same number with a sign. -/
def Length.signed (T : Target) (length : Length) (a : Arg) : ℤ :=
  (a.toNat : ℤ).bmod (2 ^ length.bits T)

/-- The width or the precision, and the arguments behind it: an `int`, which counts as 0 if it is
negative, or a decimal number as a `uint32_t`. -/
def Number.value (T : Target) : Number → List Arg → ℕ × List Arg
  | .star, [] => (0, [])
  | .star, a :: args => ((Length.none.signed T a).toNat, args)
  | .digits ds, args => (decimal ds % 2 ^ 32, args)

def precisionValue (T : Target) : Option Number → List Arg → ℕ × List Arg
  | none, args => (0, args)
  | some n, args => n.value T args

/-! ### Texts -/

/-- The character of a digit. -/
def digitText (capital : Bool) (d : ℕ) : Byte :=
  if d < 10 then '0'.toUInt8 + UInt8.ofNat d
  else (if capital then 'A' else 'a').toUInt8 + UInt8.ofNat (d - 10)

/-- The numeral of `n` in the base, with at least as many digits as the precision says. -/
def numeralText (capital : Bool) (base precision n : ℕ) : List Byte :=
  (Nat.digits base n ++ List.replicate (max precision 1 - (Nat.digits base n).length) 0).reverse.map
    (digitText capital)

def Radix.base : Radix → ℕ
  | .d | .u => 10
  | .x | .X => 16
  | .o => 8
  | .b => 2

/-- An octal numeral has a `0` in front of its field. -/
def Radix.lead : Radix → List Byte
  | .o => ['0'.toUInt8]
  | _ => []

/-- The digits above 9 are capital letters for `X` and for the flag `#`. -/
def capital (flags : Flags) (radix : Radix) : Bool := radix = .X || flags.alt

/-- The sign of a number, if it has one. -/
def signChars (flags : Flags) (length : Length) (x : ℤ) : List Byte :=
  if signOf flags length x ≠ 0 then [signOf flags length x] else []

/-- The field of an integer. -/
def integerField (T : Target) (flags : Flags) (width precision : ℕ) (length : Length)
    (radix : Radix) (a : Arg) : List Byte :=
  match radix with
  | .d =>
    let x := length.signed T a
    paddedText flags width (signChars flags length x ++ numeralText false 10 precision x.natAbs)
  | radix => radix.lead ++ paddedText flags width
      (numeralText (capital flags radix) radix.base precision (length.unsigned T a))

/-- The field of a string. Without a precision, one of `2 ^ 32` characters or more is cut to its
length in 32 bits. -/
def stringText (flags : Flags) (width precision : ℕ) (s : List Byte) : List Byte :=
  if precision = 0 ∧ 2 ^ 32 ≤ s.length then s.take (s.length % 2 ^ 32)
  else paddedText flags width (if precision = 0 then s else s.take precision)

/-- What an item shows: a text, or an error behind a text; or nothing that C defines. -/
inductive Shown where
  | text (t : List Byte)
  | error (t : List Byte)
  | undefined

/-- What a conversion shows of its argument: a number, of as many digits as the array has room for;
the number of a pointer; a character; a string, which has a NUL; the bytes of an array. -/
def Conversion.shown (T : Target) (flags : Flags) (width precision : ℕ) (a : Arg) :
    Conversion → Shown
  | .integer length radix =>
    if digitsSize - 1 < precision then .error radix.lead
    else if radix = .d ∧ precision = digitsSize - 1 ∧
      signChars flags length (length.signed T a) ≠ [] then .undefined
    else .text (integerField T flags width precision length radix a)
  | .pointer =>
    let lead := ['0'.toUInt8, 'x'.toUInt8]
    if digitsSize - 1 < precision then .error lead
    else .text (lead ++ paddedText { flags with padZero := true } width
      (numeralText true 16 precision (Length.z.unsigned T a)))
  | .char => .text [UInt8.ofNat a.toNat]
  | .string =>
    if a.toPtr.addr ≠ 0 ∧ (0 : Byte) ∉ a.toPtr.bytes then .undefined
    else .text (stringText flags width precision a.toPtr.shown)
  | .dump =>
    if a.toPtr.addr = 0 ∨ precision = 0 then .error []
    else if a.toPtr.bytes.length < precision then .undefined
    else .text (dumpText T (a.toPtr.bytes.take precision))

/-- What a directive shows, and the arguments behind its own. -/
def Spec.shown (T : Target) (s : Spec) (args : List Arg) : Shown × List Arg :=
  let (width, args) := s.width.value T args
  let (precision, args) := precisionValue T s.precision args
  match args with
  | [] => (.undefined, [])
  | a :: args =>
    if maxFormat < width ∨ maxFormat < precision then (.error [], args)
    else (s.conversion.shown T s.setFlags width precision a, args)

/-- The text that a format means. An error ends it. -/
def Format.shows (T : Target) : Format → List Arg → Option (List Byte)
  | [], _ => some []
  | .char c _ _ :: format, args => (Format.shows T format args).map (c :: ·)
  | .percent :: format, args => (Format.shows T format args).map ('%'.toUInt8 :: ·)
  | .directive s :: format, args =>
    match s.shown T args with
    | (.text t, args) => (Format.shows T format args).map (t ++ ·)
    | (.error t, _) => some (t ++ "<ERROR>\n".toList.map Char.toUInt8)
    | (.undefined, _) => none

/-! ### Numerals -/

theorem charDigit_eq_digitText (upper : Bool) {d : ℕ} (hd : d < 16) :
    charDigit (UInt8.ofNat d) (if upper then 'A'.toUInt8 else 'a'.toUInt8) = digitText upper d := by
  have hall : ∀ (upper : Bool) (d : Fin 16),
      charDigit (UInt8.ofNat d) (if upper then 'A'.toUInt8 else 'a'.toUInt8) =
        digitText upper d := by decide
  exact hall upper ⟨d, hd⟩

/-- The conversion stores the numeral. -/
theorem numeralText_eq {base : ℕ} (hb : IsBase base) (upper : Bool) (precision n : ℕ) :
    (digitChars base (if upper then 'A'.toUInt8 else 'a'.toUInt8) (storedDigits base precision n)
      n).reverse = numeralText upper base precision n := by
  have hcount : storedDigits base precision n - digitCount base n =
      max precision 1 - (Nat.digits base n).length := by
    unfold storedDigits digitCount
    omega
  have hchar : ∀ d ∈ Nat.digits base n ++
      List.replicate (max precision 1 - (Nat.digits base n).length) 0,
      charDigit (UInt8.ofNat d) (if upper then 'A'.toUInt8 else 'a'.toUInt8) =
        digitText upper d := by
    intro d hd
    refine charDigit_eq_digitText upper ?_
    rcases List.mem_append.mp hd with hd | hd
    · exact (Nat.digits_lt_base hb.one_lt hd).trans_le hb.le
    · rw [List.eq_of_mem_replicate hd]
      decide
  rw [digitChars_eq hb (by unfold storedDigits; omega), hcount, numeralText, List.map_reverse]
  exact congrArg List.reverse (List.map_congr_left hchar)

theorem storedChars_reverse {base : ℕ} (hb : IsBase base) (upper : Bool) (sign : Byte)
    (precision n : ℕ) :
    (storedChars base (if upper then 'A'.toUInt8 else 'a'.toUInt8) sign precision n).reverse =
      (if sign ≠ 0 then [sign] else []) ++ numeralText upper base precision n := by
  rw [storedChars, List.reverse_append, numeralText_eq hb]
  split_ifs <;> rfl

/-! ### Directives -/

/-- The directive is carried out as it is meant. -/
def Shown.Is (e : Output Bool) : Shown → Prop
  | .text t => e = ⟨t, .value true⟩
  | .error t => e = ⟨t, .value false⟩
  | .undefined => ∃ f, e.ending = .fault f

theorem bits_pos (length : Length) : 0 < length.bits T := by
  unfold Length.bits
  rcases T.ptr_cases with hp | hp <;> cases length <;> simp [Length.argType, CType.sizeof, hp]

/-- The formatter reads the number. -/
theorem integerArg_unsigned {length : Length} (hl : length = .l → T.ptrBytes = 8)
    (hsizes : flags.bit64 = false ∧ flags.bit16 = false ∧ flags.bit8 = false) (a : Arg)
    (rest : List Arg) (m : Bool) :
    (integerArg (argList T) (length.apply T flags) ⟨a :: rest, m⟩).1.toNat =
      length.unsigned T a := by
  have hpasses : length.Passes T (argList T) ⟨a :: rest, m⟩ (a.toNat : ℤ) := by
    unfold Length.Passes
    split_ifs
    · exact (BitVec.ofInt_natCast 64 a.toNat).symm
    · exact (BitVec.ofInt_natCast 32 a.toNat).symm
  have h := integerArg_toNat hl hsizes hpasses
  unfold Length.unsigned
  zify
  exact h

theorem signed_inRange (length : Length) (a : Arg) : length.InRange T (length.signed T a) := by
  obtain ⟨k, hk⟩ := Nat.exists_eq_succ_of_ne_zero (bits_pos (T := T) length).ne'
  have hpos : 0 < 2 ^ length.bits T := Nat.two_pow_pos _
  have hlo := Int.le_bmod (x := (a.toNat : ℤ)) hpos
  have hhi := Int.bmod_lt (x := (a.toNat : ℤ)) hpos
  unfold Length.InRange Length.signed
  rw [hk] at hlo hhi ⊢
  rw [Nat.succ_sub_one]
  push_cast [Nat.pow_succ] at hlo hhi ⊢
  omega

/-- The sign and the magnitude of the number. -/
theorem signed_unsigned {length : Length} (hl : length = .l → T.ptrBytes = 8)
    (hsizes : flags.bit64 = false ∧ flags.bit16 = false ∧ flags.bit8 = false) (a : Arg) :
    Printf.signed (length.apply T flags) (length.unsigned T a) =
      (signOf flags length (length.signed T a), (length.signed T a).natAbs) := by
  refine signed_eq hl hsizes (signed_inRange length a) ?_
  unfold Length.unsigned Length.signed
  push_cast
  exact_mod_cast (Int.bmod_emod (x := (a.toNat : ℤ)) (m := 2 ^ length.bits T)).symm

/-- **An integer**: what is in front of the field, and the field. -/
theorem convert_number (T : Target) (precision : ℕ) {base n : ℕ} {c sign : Byte} {v : BitVec 64}
    {upper : Bool} {lead : List Byte}
    (hc : conversion flags c v.toNat = ⟨lead, .value (base, sign, n)⟩)
    (hhex : hexOf flags c = if upper then 'A'.toUInt8 else 'a'.toUInt8) (hw : width ≤ maxFormat) :
    (if digitsSize - 1 < precision then Shown.error lead
      else if precision = digitsSize - 1 ∧ sign ≠ 0 then .undefined
      else .text (lead ++ paddedText flags width
        ((if sign ≠ 0 then [sign] else []) ++ numeralText upper base precision n))).Is
      (convert T ⟨flags, width, precision, .integer c v⟩) := by
  obtain ⟨hb, -, hsign⟩ := conversion_value v.isLt (congrArg Emission.ending hc)
  by_cases hbig : digitsSize - 1 < precision
  · rw [if_pos hbig]
    show convert T _ = _
    rw [convert]
    dsimp only
    rw [hc, bind_value rfl]
    dsimp only
    rw [if_pos hbig, pure_eq, List.append_nil]
  rw [if_neg hbig]
  by_cases hroom : precision = digitsSize - 1 ∧ sign ≠ 0
  · rw [if_pos hroom]
    obtain ⟨hd, hhas⟩ := hsign.mp hroom.2
    exact ⟨.digits, (convert_ending_eq_fault _).mpr (Or.inl ⟨rfl, hd, hroom.1, hhas⟩)⟩
  · rw [if_neg hroom, ← storedChars_reverse hb, ← hhex]
    exact convert_integer T hc hw (not_lt.mp hbig) hroom

theorem hexOf_radix (length : Length) (radix : Radix) : hexOf (length.apply T flags) radix.char =
    if capital flags radix then 'A'.toUInt8 else 'a'.toUInt8 := by
  obtain ⟨bit64, bit16, bit8, h⟩ := length.apply_eq T flags
  rw [h]
  unfold hexOf capital
  cases flags.alt <;> cases radix <;> rfl

theorem conversion_unsigned (flags : Flags) {radix : Radix} (h : radix ≠ .d) (v : ℕ) :
    conversion flags radix.char v = ⟨radix.lead, .value (radix.base, 0, v)⟩ := by
  cases radix with
  | d => exact absurd rfl h
  | _ => rfl

/-- The end of a string conversion. -/
theorem output_stringText {s : List Byte} (hnul : (0 : Byte) ∈ s) (hw : width ≤ maxFormat) :
    output flags width precision s =
      ⟨stringText flags width precision (s.takeWhile (· ≠ 0)), .value ()⟩ := by
  rw [output_eq hnul]
  generalize s.takeWhile (· ≠ 0) = text
  dsimp only
  unfold maxFormat at hw
  by_cases hp : precision = 0
  · have hlen : shownLen precision text.length = text.length := if_neg fun h => h.1 hp
    have hmax : shownMax width precision text.length =
        (if width < text.length then text.length else width) % 2 ^ 32 := if_pos hp
    rw [hlen, hmax]
    by_cases hbig : 2 ^ 32 ≤ text.length
    · have htext : stringText flags width precision text = text.take (text.length % 2 ^ 32) :=
        if_pos ⟨hp, hbig⟩
      have hfill : width - text.length = 0 := by omega
      rw [htext, hfill, if_pos (show width < text.length by omega)]
      simp
    · have htext : stringText flags width precision text = paddedText flags width text := by
        rw [stringText, if_neg fun h => hbig h.2, if_pos hp]
      rw [htext, List.take_of_length_le (by split_ifs <;> omega)]
      rfl
  · have hlen : shownLen precision text.length = (text.take precision).length := by
      rw [shownLen, List.length_take]
      split_ifs <;> omega
    have hmax : ∀ len, shownMax width precision len = precision := fun _ => if_neg hp
    have htext : stringText flags width precision text =
        paddedText flags width (text.take precision) := by
      rw [stringText, if_neg fun h => hp h.1, if_neg hp]
    rw [htext, hmax, hlen]
    rfl

/-- Decimal digits are no letters. -/
theorem numeralText_decimal (upper : Bool) (precision n : ℕ) :
    numeralText upper 10 precision n = numeralText false 10 precision n := by
  refine List.map_congr_left fun d hd => ?_
  have hlt : d < 10 := lt_of_mem_decimal (List.mem_reverse.mp hd)
  rw [digitText, digitText, if_pos hlt, if_pos hlt]

theorem signChars_ne_nil_iff {length : Length} {x : ℤ} :
    signChars flags length x ≠ [] ↔ signOf flags length x ≠ 0 := by
  unfold signChars
  split_ifs with h
  · exact iff_of_true (List.cons_ne_nil _ _) h
  · exact iff_of_false (fun h => h rfl) h

/-- `%d`. -/
theorem convert_shown_signed (T : Target) {length : Length} (hl : length = .l → T.ptrBytes = 8)
    (hsizes : flags.bit64 = false ∧ flags.bit16 = false ∧ flags.bit8 = false)
    (hw : width ≤ maxFormat) (a : Arg) {v : BitVec 64} (hv : v.toNat = length.unsigned T a) :
    (Conversion.shown T flags width precision a (.integer length .d)).Is
      (convert T ⟨length.apply T flags, width, precision, .integer Radix.d.char v⟩) := by
  have hc : conversion (length.apply T flags) Radix.d.char v.toNat =
      ⟨[], .value (10, signOf flags length (length.signed T a), (length.signed T a).natAbs)⟩ := by
    rw [conversion, if_pos (show Radix.d.char = 'd'.toUInt8 from rfl), hv,
      signed_unsigned hl hsizes]
    rfl
  have h := convert_number T precision hc (hexOf_radix length .d) hw
  rw [paddedText_apply, numeralText_decimal] at h
  simp only [Conversion.shown, true_and, signChars_ne_nil_iff]
  exact h

/-- The other conversions of an integer. -/
theorem convert_shown_unsigned (T : Target) {length : Length} {radix : Radix} (hradix : radix ≠ .d)
    (hw : width ≤ maxFormat) (a : Arg) {v : BitVec 64} (hv : v.toNat = length.unsigned T a) :
    (Conversion.shown T flags width precision a (.integer length radix)).Is
      (convert T ⟨length.apply T flags, width, precision, .integer radix.char v⟩) := by
  have hc := conversion_unsigned (length.apply T flags) hradix v.toNat
  have h := convert_number T precision hc (hexOf_radix length radix) hw
  have hfield : integerField T flags width precision length radix a = radix.lead ++
      paddedText flags width
        (numeralText (capital flags radix) radix.base precision (length.unsigned T a)) := by
    cases radix with
    | d => exact absurd rfl hradix
    | _ => rfl
  rw [paddedText_apply, hv, if_neg (show ¬ (_ ∧ (0 : Byte) ≠ 0) from fun h => h.2 rfl),
    if_neg (show ¬ (0 : Byte) ≠ 0 from fun h => h rfl), List.nil_append, ← hfield] at h
  rw [Conversion.shown, if_neg (show ¬ (radix = .d ∧ _) from fun h => hradix h.1)]
  exact h

/-- `%p`. -/
theorem convert_shown_pointer (T : Target)
    (hsizes : flags.bit64 = false ∧ flags.bit16 = false ∧ flags.bit8 = false)
    (hw : width ≤ maxFormat) (a : Arg) (rest : List Arg) (m : Bool) :
    (Conversion.shown T flags width precision a .pointer).Is
      (convert T ⟨Conversion.pointer.apply T flags, width, precision,
        (Conversion.pointer.read (argList T) (Conversion.pointer.apply T flags)
          ⟨a :: rest, m⟩).1⟩) := by
  have hv : (integerArg (argList T) (Length.z.apply T flags) ⟨a :: rest, m⟩).1.toNat =
      Length.z.unsigned T a := integerArg_unsigned (by simp) hsizes a rest m
  change Shown.Is (convert T ⟨Conversion.pointer.apply T flags, width, precision, .integer
    'p'.toUInt8 (integerArg (argList T) (Length.z.apply T flags) ⟨a :: rest, m⟩).1⟩) _
  generalize (integerArg (argList T) (Length.z.apply T flags) ⟨a :: rest, m⟩).1 = v at hv
  have hc : conversion (Conversion.pointer.apply T flags) 'p'.toUInt8 v.toNat =
      ⟨['0'.toUInt8, 'x'.toUInt8], .value (16, 0, v.toNat)⟩ := rfl
  have hhex : hexOf (Conversion.pointer.apply T flags) 'p'.toUInt8 =
      if true then 'A'.toUInt8 else 'a'.toUInt8 := rfl
  have h := convert_number T precision hc hhex hw
  have hpad : ∀ text, paddedText (Conversion.pointer.apply T flags) width text =
      paddedText { flags with padZero := true } width text := by
    intro text
    unfold Conversion.apply
    dsimp only
    split_ifs <;> rfl
  rw [hpad, hv, if_neg (show ¬ (_ ∧ (0 : Byte) ≠ 0) from fun h => h.2 rfl),
    if_neg (show ¬ (0 : Byte) ≠ 0 from fun h => h rfl), List.nil_append] at h
  exact h

theorem convert_shown_string (T : Target) (hw : width ≤ maxFormat) (p : Ptr) (a : Arg)
    (hp : a.toPtr = p) : (Conversion.shown T flags width precision a .string).Is
      (convert T ⟨flags, width, precision, .string p⟩) := by
  rw [Conversion.shown, hp]
  by_cases hread : p.addr ≠ 0 ∧ (0 : Byte) ∉ p.bytes
  · rw [if_pos hread]
    exact ⟨.string, (convert_ending_eq_fault _).mpr (Or.inr ⟨rfl, hread⟩)⟩
  · have hnul : (0 : Byte) ∈ if p.addr = 0 then cstr "[null]" else p.bytes := by
      split_ifs with h0
      · decide
      · exact not_not.mp fun h => hread ⟨h0, h⟩
    rw [if_neg hread]
    show convert T _ = _
    rw [convert]
    dsimp only
    rw [output_stringText hnul hw, bind_value rfl, pure_eq, List.append_nil]
    rfl

theorem convert_shown_dump (T : Target) (p : Ptr) (a : Arg) (hp : a.toPtr = p) :
    (Conversion.shown T flags width precision a .dump).Is
      (convert T ⟨flags, width, precision, .dump p⟩) := by
  rw [Conversion.shown, hp]
  by_cases h0 : p.addr = 0 ∨ precision = 0
  · rw [if_pos h0]
    show convert T _ = _
    rw [convert]
    dsimp only
    rw [if_pos h0, pure_eq]
  rw [if_neg h0]
  by_cases hshort : p.bytes.length < precision
  · rw [if_pos hshort]
    exact ⟨.string, (convert_ending_eq_fault _).mpr (Or.inr ⟨rfl, (not_or.mp h0).1, hshort⟩)⟩
  · have hlen : (p.bytes.take precision).length = precision := by
      rw [List.length_take]
      omega
    have hne : p.bytes.take precision ≠ [] :=
      List.ne_nil_of_length_pos (by have := (not_or.mp h0).2; omega)
    have h : convert T ⟨flags, width, (p.bytes.take precision).length,
        .dump ⟨p.addr, p.bytes.take precision ++ p.bytes.drop precision⟩⟩ =
      ⟨dumpText T (p.bytes.take precision), .value true⟩ := convert_dump T (not_or.mp h0).1 hne
    rw [hlen, List.take_append_drop] at h
    rw [if_neg hshort]
    exact h

/-- **A directive is carried out as it is meant.** -/
theorem convert_shown (T : Target) (conv : Conversion) (hl : conv.isLong → T.ptrBytes = 8)
    (hsizes : flags.bit64 = false ∧ flags.bit16 = false ∧ flags.bit8 = false)
    (hw : width ≤ maxFormat) (a : Arg) (rest : List Arg) (m : Bool) :
    (conv.shown T flags width precision a).Is (convert T ⟨conv.apply T flags, width, precision,
      (conv.read (argList T) (conv.apply T flags) ⟨a :: rest, m⟩).1⟩) := by
  cases conv with
  | integer length radix =>
    rw [isLong_integer] at hl
    have hv := integerArg_unsigned hl hsizes a rest m
    by_cases hradix : radix = .d
    · subst hradix
      exact convert_shown_signed T hl hsizes hw a hv
    · exact convert_shown_unsigned T hradix hw a hv
  | pointer => exact convert_shown_pointer T hsizes hw a rest m
  | char =>
    show convert T ⟨_, _, _, .char (UInt8.ofNat (BitVec.ofNat 32 a.toNat).toNat)⟩ = _
    have hchar : UInt8.ofNat (BitVec.ofNat 32 a.toNat).toNat = UInt8.ofNat a.toNat := by
      refine UInt8.toNat_inj.mp ?_
      rw [UInt8.toNat_ofNat', UInt8.toNat_ofNat', BitVec.toNat_ofNat]
      omega
    rw [hchar]
    rfl
  | string => exact convert_shown_string T hw _ a rfl
  | dump => exact convert_shown_dump T _ a rfl

/-! ### Formats -/

/-- An `int`. -/
theorem signed_int (a : Arg) : Length.none.signed T a = (BitVec.ofNat 32 a.toNat).toInt := by
  have hbits : Length.none.bits T = 32 := rfl
  rw [Length.signed, hbits, BitVec.toInt_ofNat']

theorem Number.read_value (n : Number) {args : List Arg} (h : Typed T args n.argTypes)
    (rest : List Arg) (m : Bool) :
    n.read (argList T) ⟨args ++ rest, m⟩ = ((n.value T (args ++ rest)).1, ⟨rest, m⟩) ∧
      (n.value T (args ++ rest)).2 = rest := by
  have hrest := number_read_args n h rest m
  cases n with
  | star =>
    rcases h with _ | ⟨ha, _ | _⟩
    rename_i a
    refine ⟨Prod.ext ?_ hrest, rfl⟩
    show (if (BitVec.ofNat 32 a.toNat).toInt < 0 then 0 else (BitVec.ofNat 32 a.toNat).toNat) =
      (Length.none.signed T a).toNat
    rw [signed_int]
    generalize BitVec.ofNat 32 a.toNat = w
    have hw := BitVec.toInt_eq_toNat_cond w
    have hlt := w.isLt
    split_ifs at hw ⊢ <;> omega
  | digits ds =>
    cases h
    exact ⟨Prod.ext (digitsValue_eq ds) rfl, rfl⟩

theorem precision_value (p : Option Number) {args : List Arg}
    (h : Typed T args (precisionTypes p)) (rest : List Arg) (m : Bool) :
    readPrecision (argList T) p ⟨args ++ rest, m⟩ =
        ((precisionValue T p (args ++ rest)).1, ⟨rest, m⟩) ∧
      (precisionValue T p (args ++ rest)).2 = rest := by
  cases p with
  | none =>
    cases h
    exact ⟨rfl, rfl⟩
  | some n => exact n.read_value h rest m

/-- A directive is read as it is meant, and the arguments behind its own are left. -/
theorem Spec.shown_is (s : Spec) (hl : s.conversion.isLong → T.ptrBytes = 8) {args : List Arg}
    (h : Typed T args s.argTypes) (rest : List Arg) :
    (s.shown T (args ++ rest)).2 = rest ∧
      if s.TooBig (argList T) (.start (args ++ rest)) then
        (s.shown T (args ++ rest)).1 = .error []
      else (s.shown T (args ++ rest)).1.Is
        (convert T (s.read T (argList T) (.start (args ++ rest))).1) := by
  obtain ⟨args₁, args', rfl, h₁, h'⟩ := Typed.split h
  obtain ⟨args₂, args₃, rfl, h₂, h₃⟩ := Typed.split h'
  rcases h₃ with _ | ⟨ha, _ | _⟩
  rename_i a
  obtain ⟨hwidth, hwidth'⟩ := s.width.read_value h₁ (args₂ ++ a :: rest) true
  obtain ⟨hprec, hprec'⟩ := precision_value s.precision h₂ (a :: rest) true
  have hnum : s.numbers (argList T) (.start (args₁ ++ (args₂ ++ a :: rest))) =
      ((s.width.value T (args₁ ++ (args₂ ++ a :: rest))).1,
        (precisionValue T s.precision (args₂ ++ a :: rest)).1, .start (a :: rest)) := by
    unfold Spec.numbers
    rw [show Unread.start _ = ⟨args₁ ++ (args₂ ++ a :: rest), true⟩ from rfl, hwidth]
    dsimp only
    rw [hprec]
    rfl
  have htoo : s.TooBig (argList T) (.start (args₁ ++ (args₂ ++ a :: rest))) ↔
      maxFormat < (s.width.value T (args₁ ++ (args₂ ++ a :: rest))).1 ∨
        maxFormat < (precisionValue T s.precision (args₂ ++ a :: rest)).1 := by
    rw [Spec.TooBig, hnum]
  rw [List.append_assoc, List.append_assoc, List.singleton_append, s.read_eq, hnum]
  unfold Spec.shown
  dsimp only
  rw [hwidth', hprec']
  dsimp only
  by_cases hbig : s.TooBig (argList T) (.start (args₁ ++ (args₂ ++ a :: rest)))
  · rw [if_pos hbig, if_pos (htoo.mp hbig)]
    exact ⟨rfl, rfl⟩
  · have hw := not_lt.mp fun h => hbig (htoo.mpr (Or.inl h))
    rw [if_neg hbig, if_neg fun h => hbig (htoo.mpr h)]
    exact ⟨rfl, convert_shown T s.conversion hl s.setFlags_sizes hw a rest true⟩

/-- Its arguments are read with their sizes. -/
theorem Spec.read_start (s : Spec) (hl : s.conversion.isLong → T.ptrBytes = 8) {args : List Arg}
    (h : Typed T args s.argTypes) (rest : List Arg) :
    (s.read T (argList T) (.start (args ++ rest))).2 = .start rest := by
  refine (s.read_args h rest true).trans ?_
  rw [Bool.true_and, decide_eq_true]
  · rfl
  · by_cases hlong : s.conversion.isLong
    · exact Or.inl (hl hlong)
    · exact Or.inr hlong

/-- The emission is the text, and a fault where there is none. -/
def Agrees (e : Output Unit) : Option (List Byte) → Prop
  | some t => e = ⟨t, .value ()⟩
  | none => ∃ f, e.ending = .fault f

theorem Agrees.append {o : Outcome Unread} {text : List Byte} {shows : Option (List Byte)}
    (h : Agrees (o.emission text) shows) (t : List Byte) :
    Agrees (o.emission (t ++ text)) (shows.map (t ++ ·)) := by
  have htext : o.emission (t ++ text) =
      ⟨t ++ (o.emission text).text, (o.emission text).ending⟩ := by
    cases o <;> simp [Outcome.emission]
  rw [htext]
  cases shows with
  | none => exact h
  | some t' =>
    have h' : o.emission text = ⟨t', .value ()⟩ := h
    show _ = _
    rw [h']

/-- **A run shows what the format means.** The induction is on the format, as for the arguments of a
run. -/
theorem exists_run_shows (format : Format) {args : List Arg} (hargs : Typed T args format.argTypes)
    (hl : T.ptrBytes = 8 ∨ ∀ s, .directive s ∈ format → ¬ s.conversion.isLong) :
    ∃ text o, Run T (argList T) (format.render ++ [0]) (.start args) text o ∧
      Agrees (o.emission text) (format.shows T args) := by
  induction format generalizing args with
  | nil => exact ⟨[], _, .nul, rfl⟩
  | cons item format ih =>
    have hl' : T.ptrBytes = 8 ∨ ∀ s, .directive s ∈ format → ¬ s.conversion.isLong :=
      hl.imp_right fun h s hs => h s (List.mem_cons_of_mem _ hs)
    obtain ⟨args₁, args₂, rfl, h₁, h₂⟩ := Typed.split hargs
    obtain ⟨text, o, hrun, hagree⟩ := ih h₂ hl'
    cases item with
    | char c h0 hc =>
      cases h₁
      exact ⟨_, o, .char h0 hc hrun, hagree.append [c]⟩
    | percent =>
      cases h₁
      exact ⟨_, o, .percent hrun, hagree.append ['%'.toUInt8]⟩
    | directive s =>
      have hrender : Format.render (.directive s :: format) ++ [0] =
          '%'.toUInt8 :: (s.body ++ (Format.render format ++ [0])) := by
        rw [← List.append_assoc]
        rfl
      have hlong : s.conversion.isLong → T.ptrBytes = 8 := fun h =>
        hl.resolve_right fun hl => hl s List.mem_cons_self h
      obtain ⟨hleft, hshown⟩ := s.shown_is hlong h₁ args₂
      rw [hrender, Format.shows]
      rcases hbody : s.body ++ (Format.render format ++ [0]) with _ | ⟨c, tail⟩
      · exact absurd hbody (by simp)
      obtain ⟨hc, h0⟩ := s.body_head hbody
      rcases hs : s.shown T (args₁ ++ args₂) with ⟨shown, left⟩
      rw [hs] at hleft hshown
      dsimp only at hleft hshown
      subst hleft
      by_cases hbig : s.TooBig (argList T) (.start (args₁ ++ left))
      · rw [if_pos hbig] at hshown
        subst hshown
        obtain ⟨d, rest, hparse, hd⟩ := parse_render_error (T := T) s hbody hbig
        exact ⟨_, _, .error hc h0 hparse (by rw [convert, hd]; rfl), rfl⟩
      rw [if_neg hbig] at hshown
      have hparse := parse_render (T := T) s hbody hbig
      cases shown with
      | text t =>
        rw [s.read_start hlong h₁] at hparse
        exact ⟨_, o, .directive hc h0 hparse hshown hrun, hagree.append t⟩
      | error t => exact ⟨_, _, .error hc h0 hparse hshown, rfl⟩
      | undefined =>
        obtain ⟨f, hf⟩ := hshown
        have hconv : convert T (s.read T (argList T) (.start (args₁ ++ left))).1 =
            ⟨(convert T (s.read T (argList T) (.start (args₁ ++ left))).1).text, .fault f⟩ := by
          rw [← hf]
        exact ⟨_, _, .fault hc h0 hparse hconv, f, rfl⟩

/-- A format with a meaning. -/
theorem formatted_of_shows {format : Format} {args : List Arg} {text : List Byte}
    (hargs : Typed T args format.argTypes)
    (hl : T.ptrBytes = 8 ∨ ∀ s, .directive s ∈ format → ¬ s.conversion.isLong)
    (h : format.shows T args = some text) :
    formatted T (argList T) (format.render ++ [0]) (.start args) = ⟨text, .value ()⟩ := by
  obtain ⟨t, o, hrun, hagree⟩ := exists_run_shows format hargs hl
  rw [h] at hagree
  exact hrun.formatted_eq.trans hagree

/-- **The formatter emits what the format means**: for every format of directives, whatever the
flags, widths, precisions and lengths are, with arguments of the types that C prescribes (and no
`long` of 32 bits), the formatter emits the text that the format means, item by item, and comes to
its end; where the format has no meaning, and only there, C defines nothing. -/
theorem formatted_eq_iff (T : Target) (format : Format) {args : List Arg}
    (hargs : Typed T args format.argTypes)
    (hl : T.ptrBytes = 8 ∨ ∀ s, .directive s ∈ format → ¬ s.conversion.isLong) :
    (∀ text, formatted T (argList T) (format.render ++ [0]) (.start args) = ⟨text, .value ()⟩ ↔
      format.shows T args = some text) ∧
    ((∃ f, (formatted T (argList T) (format.render ++ [0]) (.start args)).ending = .fault f) ↔
      format.shows T args = none) := by
  cases hshows : format.shows T args with
  | some t =>
    rw [formatted_of_shows hargs hl hshows]
    simp
  | none =>
    obtain ⟨text, o, hrun, hagree⟩ := exists_run_shows format hargs hl
    rw [hshows] at hagree
    rw [hrun.formatted_eq]
    obtain ⟨f, hf⟩ := hagree
    refine ⟨fun t => iff_of_false (fun h => ?_) nofun, iff_of_true ⟨f, hf⟩ rfl⟩
    rw [h] at hf
    cases hf

/-- `%+*d:%s%%` with the width 4. -/
theorem formatted_eq_iff_mixed : Format.shows .riscv32
    [.directive ⟨[.plus], .star, none, .integer .none .d, nofun⟩,
      .char ':'.toUInt8 (by decide) (by decide), .directive (.plain .string), .percent]
    [.word32 4, .word32 42, .pointer ⟨1, cstr "ab"⟩] =
      some (" +42:ab%".toList.map Char.toUInt8) := by
  have hargs : Typed .riscv32 [.word32 4, .word32 42, .pointer ⟨1, cstr "ab"⟩]
      [.int, .int, .pointer] := .cons ⟨by decide, rfl⟩ (.cons ⟨by decide, rfl⟩ (.cons rfl .nil))
  refine ((formatted_eq_iff .riscv32 _ hargs (Or.inr fun s hs => ?_)).1 _).mp rfl
  simp only [List.mem_cons, Item.directive.injEq, reduceCtorEq, List.not_mem_nil, or_false,
    false_or] at hs
  rcases hs with rfl | rfl <;> decide

end Noc.Printf
