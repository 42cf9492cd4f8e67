import Noc.Printf.Fields

/-! # Hex dumps

What `%H` emits. The high nibble of a byte is taken from a `char` with a right shift.

* `convert_dump`: two characters for each byte.
* `dump_iff`: they are hexadecimal digits from which the array can be read back exactly if `char` is
  unsigned or all bytes are below 128. -/

namespace Noc.Printf

open Noc.Lib.Output Noc.Lib.Output.Emission Noc.Targets

variable {ν : Type} {T : Target} {va : VaArg ν} {flags : Flags}

/-! ### Reading a dump -/

/-- A character in `0-9a-f`. -/
def LowerHex (c : Byte) : Prop :=
  ('0'.toUInt8 ≤ c ∧ c ≤ '9'.toUInt8) ∨ ('a'.toUInt8 ≤ c ∧ c ≤ 'f'.toUInt8)

instance (c : Byte) : Decidable (LowerHex c) := inferInstanceAs (Decidable (_ ∨ _))

/-- The bytes of pairs of digits, the high nibble first. -/
def decodeBytes : List Byte → Option (List Byte)
  | [] => some []
  | [_] => none
  | high :: low :: text => do
    let high ← digitValue high
    let low ← digitValue low
    let bytes ← decodeBytes text
    pure (UInt8.ofNat (16 * high + low) :: bytes)

theorem lowerHex_charDigit {d : ℕ} (hd : d < 16) :
    LowerHex (charDigit (UInt8.ofNat d) 'a'.toUInt8) := by
  have hall : ∀ d : Fin 16, LowerHex (charDigit (UInt8.ofNat d) 'a'.toUInt8) := by decide
  exact hall ⟨d, hd⟩

/-! ### Nibbles -/

/-- The characters of a byte. -/
def dumpChars (T : Target) (c : Byte) : List Byte :=
  [charDigit (highNibble T c) 'a'.toUInt8, charDigit (c &&& 0xf) 'a'.toUInt8]

/-- The byte is not negative as a `char`. -/
def Plain (T : Target) (c : Byte) : Prop := T.charSigned = false ∨ c < 0x80

theorem forall_plain_iff {array : List Byte} :
    (∀ c ∈ array, Plain T c) ↔ T.charSigned = false ∨ ∀ c ∈ array, c < 0x80 := by
  unfold Plain
  constructor
  · intro h
    by_cases hsigned : T.charSigned = false
    · exact Or.inl hsigned
    · exact Or.inr fun c hc => (h c hc).resolve_left hsigned
  · rintro (hsigned | hlt) c hc
    · exact Or.inl hsigned
    · exact Or.inr (hlt c hc)

theorem lowNibble_eq (c : Byte) : c &&& 0xf = UInt8.ofNat (c.toNat % 16) := by
  refine UInt8.toNat_inj.mp ?_
  rw [UInt8.toNat_and, UInt8.toNat_ofNat']
  have hand : c.toNat &&& 15 = c.toNat % 16 := Nat.and_two_pow_sub_one_eq_mod c.toNat 4
  show c.toNat &&& 15 = _
  rw [hand]
  omega

/-- An arithmetic shift of a byte, by its top bit. -/
theorem highNibble_signed (c : Byte) : (c < 0x80 →
      (c.toInt8 >>> 4).toUInt8 = UInt8.ofNat (c.toNat / 16)) ∧
    (¬ c < 0x80 → ¬ LowerHex (charDigit (c.toInt8 >>> 4).toUInt8 'a'.toUInt8)) := by
  have hall : ∀ n : Fin 256, (UInt8.ofNat n < 0x80 →
        ((UInt8.ofNat n).toInt8 >>> 4).toUInt8 = UInt8.ofNat ((UInt8.ofNat n).toNat / 16)) ∧
      (¬ UInt8.ofNat n < 0x80 →
        ¬ LowerHex (charDigit ((UInt8.ofNat n).toInt8 >>> 4).toUInt8 'a'.toUInt8)) := by
    decide +kernel
  have h := hall ⟨c.toNat, c.toNat_lt⟩
  rwa [UInt8.ofNat_toNat] at h

/-- The high nibble of a byte that is not negative. -/
theorem highNibble_eq {c : Byte} (h : Plain T c) : highNibble T c = UInt8.ofNat (c.toNat / 16) := by
  unfold highNibble
  cases hsigned : T.charSigned with
  | true =>
    have hlt : c < 0x80 := h.resolve_left (by rw [hsigned]; exact Bool.noConfusion)
    exact (highNibble_signed c).1 hlt
  | false =>
    refine UInt8.toNat_inj.mp ?_
    rw [if_neg Bool.false_ne_true, UInt8.toNat_shiftRight, UInt8.toNat_ofNat']
    have hlt := c.toNat_lt
    show c.toNat >>> 4 = _
    rw [Nat.shiftRight_eq_div_pow]
    omega

/-- The character of a negative byte is none of `0-9a-f`. -/
theorem not_lowerHex_highNibble {c : Byte} (h : ¬ Plain T c) :
    ¬ LowerHex (charDigit (highNibble T c) 'a'.toUInt8) := by
  obtain ⟨hsigned, hlt⟩ := not_or.mp h
  rw [Bool.not_eq_false] at hsigned
  rw [highNibble, hsigned, if_pos rfl]
  exact (highNibble_signed c).2 hlt

/-- The characters of a byte give it back. -/
theorem dumpChars_eq {c : Byte} (h : Plain T c) : dumpChars T c =
    [charDigit (UInt8.ofNat (c.toNat / 16)) 'a'.toUInt8,
      charDigit (UInt8.ofNat (c.toNat % 16)) 'a'.toUInt8] := by
  rw [dumpChars, highNibble_eq h, lowNibble_eq]

/-! ### Dumps -/

/-- The characters of an array. -/
def dumpText (T : Target) (array : List Byte) : List Byte := array.flatMap (dumpChars T)

theorem length_dumpText (T : Target) (array : List Byte) :
    (dumpText T array).length = 2 * array.length := by
  induction array with
  | nil => rfl
  | cons c array ih =>
    rw [dumpText, List.flatMap_cons, List.length_append, List.length_cons]
    change 2 + (dumpText T array).length = _
    omega

/-- **Reading a dump back.** -/
theorem decodeBytes_dumpText {array : List Byte} (h : ∀ c ∈ array, Plain T c) :
    decodeBytes (dumpText T array) = some array := by
  induction array with
  | nil => rfl
  | cons c array ih =>
    obtain ⟨hc, harray⟩ := List.forall_mem_cons.mp h
    have hlt := c.toNat_lt
    have hvalue : 16 * (c.toNat / 16) + c.toNat % 16 = c.toNat := Nat.div_add_mod c.toNat 16
    have hhex : IsHex 'a'.toUInt8 := Or.inl rfl
    rw [dumpText, List.flatMap_cons, dumpChars_eq hc]
    change decodeBytes (_ :: _ :: dumpText T array) = _
    rw [decodeBytes, digitValue_charDigit hhex (by omega), digitValue_charDigit hhex (by omega),
      ih harray]
    show some (UInt8.ofNat (16 * (c.toNat / 16) + c.toNat % 16) :: array) = _
    rw [hvalue, UInt8.ofNat_toNat]

theorem lowerHex_dumpText_iff {array : List Byte} :
    (∀ c ∈ dumpText T array, LowerHex c) ↔ ∀ c ∈ array, Plain T c := by
  constructor
  · intro h c hc
    by_contra hplain
    refine not_lowerHex_highNibble hplain (h _ ?_)
    exact List.mem_flatMap.mpr ⟨c, hc, List.mem_cons_self⟩
  · intro h c hc
    obtain ⟨b, hb, hmem⟩ := List.mem_flatMap.mp hc
    have hlt := b.toNat_lt
    rw [dumpChars_eq (h b hb)] at hmem
    rcases List.mem_cons.mp hmem with rfl | hmem
    · exact lowerHex_charDigit (by omega)
    · rw [List.mem_singleton.mp hmem]
      exact lowerHex_charDigit (by omega)

theorem dumpLoop_eq (T : Target) (array rest : List Byte) :
    dumpLoop T array.length (array ++ rest) = ⟨dumpText T array, .value ()⟩ := by
  induction array with
  | nil => rfl
  | cons c array ih =>
    rw [List.length_cons, List.cons_append, dumpLoop, ih]
    rfl

/-- **A directive `%H`.** -/
theorem convert_dump (T : Target) {width addr : ℕ} (haddr : addr ≠ 0) {array rest : List Byte}
    (harray : array ≠ []) :
    convert T ⟨flags, width, array.length, .dump ⟨addr, array ++ rest⟩⟩ =
      ⟨dumpText T array, .value true⟩ := by
  have h0 : ¬ (addr = 0 ∨ array.length = 0) :=
    not_or.mpr ⟨haddr, fun h => harray (List.eq_nil_of_length_eq_zero h)⟩
  rw [convert]
  dsimp only
  rw [if_neg h0, dumpLoop_eq, bind_value rfl, pure_eq, List.append_nil]

/-- The directive shows the array: two characters in `0-9a-f` for each byte, which give it back. -/
def ShowsArray (T : Target) (va : VaArg ν) (s : Spec) (args : ν) (array : List Byte) : Prop :=
  ∃ text args', s.Emits T va args text args' ∧ text.length = 2 * array.length ∧
    (∀ c ∈ text, LowerHex c) ∧ decodeBytes text = some array

/-- **When a hex dump can be read back**: for every array of 1 to `MAX_FORMAT` bytes, exactly if
`char` is unsigned or no byte is negative as a `char`. -/
theorem dump_iff (T : Target) (va : VaArg ν) (s : Spec) (hs : s.conversion = .dump) {args args' : ν}
    {width addr : ℕ} {array rest : List Byte}
    (hnum : s.numbers va args = (width, array.length, args')) (hw : width ≤ maxFormat)
    (hn : 1 ≤ array.length) (hmax : array.length ≤ maxFormat) (haddr : addr ≠ 0)
    (hptr : (va.pointer args').1 = ⟨addr, array ++ rest⟩) :
    ShowsArray T va s args array ↔ T.charSigned = false ∨ ∀ c ∈ array, c < 0x80 := by
  have hfits : ¬ s.TooBig va args := by
    rw [Spec.TooBig, hnum, not_or]
    exact ⟨not_lt.mpr hw, not_lt.mpr hmax⟩
  have hread : (s.read T va args).1 =
      ⟨s.setFlags, width, array.length, .dump ⟨addr, array ++ rest⟩⟩ := by
    rw [s.read_eq, hnum, hs, ← hptr]
    rfl
  have hconv : convert T (s.read T va args).1 = ⟨dumpText T array, .value true⟩ := by
    rw [hread]
    exact convert_dump T haddr (List.ne_nil_of_length_pos hn)
  rw [← forall_plain_iff]
  constructor
  · rintro ⟨text, args', hemits, -, hlower, -⟩
    have htext := ((s.emits_iff hfits).mp hemits).1
    rw [hconv] at htext
    obtain rfl : dumpText T array = text := congrArg Emission.text htext
    exact lowerHex_dumpText_iff.mp hlower
  · intro h
    exact ⟨_, _, (s.emits_iff hfits).mpr ⟨hconv, rfl⟩, length_dumpText T array,
      lowerHex_dumpText_iff.mpr h, decodeBytes_dumpText h⟩

/-- `%.2H` of 18 and 127. -/
theorem dump_iff_plain : ShowsArray .x8664 (argList .x8664)
    ⟨[], .digits [], some (.digits [2]), .dump, by rintro ds ⟨⟩; decide⟩
    (.start [.pointer ⟨1, [0x12, 0x7f]⟩]) [0x12, 0x7f] :=
  (dump_iff .x8664 (argList .x8664) _ rfl rfl (by decide) (by decide) (by decide)
    Nat.one_ne_zero (show _ = (⟨1, [0x12, 0x7f] ++ []⟩ : Ptr) from rfl)).mpr (Or.inr (by simp))

/-- `%.1H` of 128 is `O0` where `char` is signed. -/
theorem dump_negative :
    formatted .x8664 (argList .x8664) (cstr "%.1H") (.start [.pointer ⟨1, [0x80]⟩]) =
      ⟨"O0".toList.map Char.toUInt8, .value ()⟩ ∧
    ¬ ShowsArray .x8664 (argList .x8664)
      ⟨[], .digits [], some (.digits [1]), .dump, by rintro ds ⟨⟩; decide⟩
      (.start [.pointer ⟨1, [0x80]⟩]) [0x80] := by
  have htext : formatted .x8664 (argList .x8664) (cstr "%.1H") (.start [.pointer ⟨1, [0x80]⟩]) =
      ⟨"O0".toList.map Char.toUInt8, .value ()⟩ := rfl
  refine ⟨htext, ?_⟩
  rintro ⟨text, args', hemits, -, hlower, -⟩
  have hrun : formatted .x8664 (argList .x8664) (cstr "%.1H") (.start [.pointer ⟨1, [0x80]⟩]) =
      ⟨text ++ [], .value ()⟩ := Run.formatted_eq (hemits .nul)
  rw [htext, List.append_nil] at hrun
  obtain rfl : "O0".toList.map Char.toUInt8 = text := congrArg Emission.text hrun
  exact absurd (hlower 'O'.toUInt8 (by decide)) (by decide)

end Noc.Printf
