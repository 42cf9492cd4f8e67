import Noc.Printf.Strings

/-! # What a width adds

A directive with a width against the same directive without one. `%c` returns to the format before
the padding, and `%o` emits its `0` before the padding.

* `width_pads_iff`: without the flag `0`, a width adds spaces on its side, and enough of them,
  exactly if `FillsField` says so. -/

namespace Noc.Printf

open Noc.Lib.Output Noc.Lib.Output.Emission Noc.Targets

variable {ν : Type} {T : Target} {va : VaArg ν} {flags : Flags}

/-! ### The law -/

theorem head_of_no_digits (ds : List (Fin 10)) (h : Number.digits [] = .digits ds) :
    ds.head? ≠ some 0 := by
  cases h
  exact (Option.some_ne_none 0).symm

/-- The directive without its width. -/
def Spec.unpadded (s : Spec) : Spec where
  flags := s.flags
  width := .digits []
  precision := s.precision
  conversion := s.conversion
  width_head := head_of_no_digits

/-- A text with `k` spaces on the right or on the left. -/
def spaced (left : Bool) (k : ℕ) (text : List Byte) : List Byte :=
  if left then text ++ List.replicate k ' '.toUInt8 else List.replicate k ' '.toUInt8 ++ text

theorem length_spaced (left : Bool) (k : ℕ) (text : List Byte) :
    (spaced left k text).length = text.length + k := by
  unfold spaced
  cases left
  · simp [Nat.add_comm]
  · simp

theorem spaced_zero (left : Bool) (text : List Byte) : spaced left 0 text = text := by
  cases left
  · rfl
  · exact List.append_nil text

/-- What the width is for: the characters of the directive are those that it has without the width,
and spaces on the right (with `-`) or on the left, and they are no less than the width says. -/
def WidthPads (T : Target) (va : VaArg ν) (s : Spec) (args : ν) : Prop :=
  ∃ text k args', s.unpadded.Emits T va (s.width.read va args).2 text args' ∧
    s.Emits T va args (spaced s.setFlags.left k text) args' ∧
    (s.numbers va args).1 ≤ text.length + k

/-! ### Directives that are read -/

/-- The same for a directive that is read. -/
def Directive.Pads (T : Target) (d : Directive) : Prop :=
  ∃ text k, convert T { d with padWidth := 0 } = ⟨text, .value true⟩ ∧
    convert T d = ⟨spaced d.flags.left k text, .value true⟩ ∧ d.padWidth ≤ text.length + k

variable {width precision : ℕ}

/-- The number of spaces follows from the two texts. -/
theorem Directive.pads_iff_of_spaced {d : Directive} {text : List Byte} {n : ℕ}
    (h0 : convert T { d with padWidth := 0 } = ⟨text, .value true⟩)
    (h : convert T d = ⟨spaced d.flags.left n text, .value true⟩) :
    d.Pads T ↔ d.padWidth ≤ text.length + n := by
  constructor
  · rintro ⟨text', k, h0', h', hle⟩
    obtain rfl : text = text' := by
      rw [h0] at h0'
      exact congrArg Emission.text h0'
    rw [h] at h'
    have hlen := congrArg (fun e => e.text.length) h'
    dsimp only at hlen
    rw [length_spaced, length_spaced] at hlen
    omega
  · exact fun hle => ⟨text, n, h0, h, hle⟩

/-- The characters of a string argument. -/
def Ptr.shown (p : Ptr) : List Byte :=
  (if p.addr = 0 then cstr "[null]" else p.bytes).takeWhile (· ≠ 0)

theorem convert_string (T : Target) {p : Ptr} (hstr : p.addr = 0 ∨ (0 : Byte) ∈ p.bytes)
    (hzero : flags.padZero = false) (hw : width ≤ maxFormat) :
    convert T ⟨flags, width, precision, .string p⟩ =
      ⟨spaced flags.left (width - shownLen precision p.shown.length)
        (p.shown.take (if precision = 0 then p.shown.length % 2 ^ 32 else precision)),
        .value true⟩ := by
  have hnul : (0 : Byte) ∈ if p.addr = 0 then cstr "[null]" else p.bytes := by
    split_ifs with h0
    · decide
    · exact hstr.resolve_left h0
  have htake : p.shown.take (shownMax width precision (shownLen precision p.shown.length)) =
      p.shown.take (if precision = 0 then p.shown.length % 2 ^ 32 else precision) := by
    unfold shownMax
    by_cases hp : precision = 0
    · have hlen : shownLen precision p.shown.length = p.shown.length := if_neg fun h => h.1 hp
      rw [if_pos hp, if_pos hp, hlen]
      by_cases hlt : width < p.shown.length
      · rw [if_pos hlt]
      · -- a short string: both bounds are no less than its length
        unfold maxFormat at hw
        rw [if_neg hlt, List.take_of_length_le (by omega), List.take_of_length_le (by omega)]
    · rw [if_neg hp, if_neg hp]
  have hpad : ∀ (n : ℕ) (text : List Byte),
      List.replicate (if !flags.left then n else 0) (if flags.padZero then '0'.toUInt8 else
        ' '.toUInt8) ++ (text ++ List.replicate (if flags.left then n else 0) ' '.toUInt8) =
      spaced flags.left n text := by
    intro n text
    unfold spaced
    rw [hzero]
    cases flags.left
    · simp
    · rfl
  rw [convert]
  dsimp only
  rw [output_eq hnul, bind_value rfl, pure_eq, List.append_nil]
  dsimp only
  rw [hpad, ← htake]
  rfl

/-- The characters that the `switch` emits for a conversion of an integer, and what is converted. -/
theorem conversion_radix (flags : Flags) (radix : Radix) (v : ℕ) : ∃ base sign m,
    conversion flags radix.char v =
        ⟨if radix = .o then ['0'.toUInt8] else [], .value (base, sign, m)⟩ ∧
      (radix = .o → base = 8 ∧ sign = 0 ∧ m = v) := by
  cases radix with
  | o => exact ⟨_, _, _, rfl, fun _ => ⟨rfl, rfl, rfl⟩⟩
  | _ => exact ⟨_, _, _, rfl, by rintro ⟨⟩⟩

/-- The fields that are padded as a whole: those of integers that stay in the array `digits`, of
`%o` only if there are no spaces between the `0` and the digits; `%c` only without padding; a string
unless it is shown shorter than it is. -/
def Directive.FillsField (d : Directive) : Prop :=
  match d.conv with
  | .integer c v => ¬ d.Overruns ∧ (c = 'o'.toUInt8 →
      d.flags.left ∨ d.padWidth ≤ storedDigits 8 d.precision v.toNat)
  | .char _ => d.padWidth ≤ 1
  | .string p => d.precision ≠ 0 ∨ p.shown.length < 2 ^ 32 ∨ d.padWidth ≤ p.shown.length % 2 ^ 32
  | _ => False

theorem pads_char_iff (T : Target) (c : Byte) :
    (⟨flags, width, precision, .char c⟩ : Directive).Pads T ↔ width ≤ 1 := by
  have hconv : ∀ width, convert T ⟨flags, width, precision, .char c⟩ = ⟨[c], .value true⟩ :=
    fun _ => rfl
  exact Directive.pads_iff_of_spaced (hconv 0)
    ((hconv width).trans (by rw [spaced_zero]))

theorem pads_string_iff (T : Target) {p : Ptr} (hstr : p.addr = 0 ∨ (0 : Byte) ∈ p.bytes)
    (hzero : flags.padZero = false) (hw : width ≤ maxFormat) :
    (⟨flags, width, precision, .string p⟩ : Directive).Pads T ↔
      precision ≠ 0 ∨ p.shown.length < 2 ^ 32 ∨ width ≤ p.shown.length % 2 ^ 32 := by
  have h0 : convert T ⟨flags, 0, precision, .string p⟩ = _ :=
    convert_string T hstr hzero (Nat.zero_le _)
  rw [Nat.zero_sub, spaced_zero] at h0
  rw [Directive.pads_iff_of_spaced h0 (convert_string T hstr hzero hw)]
  show width ≤ _ + _ ↔ _
  unfold maxFormat at hw
  rw [List.length_take, shownLen]
  by_cases hp : precision = 0
  · rw [if_pos hp, if_neg fun h => h.1 hp]
    omega
  · rw [if_neg hp]
    refine iff_of_true ?_ (Or.inl hp)
    split_ifs <;> omega

/-- Spaces between a character and a text are not spaces on the left of both. -/
theorem spaced_cons_ne {c : Byte} (hc : c ≠ ' '.toUInt8) {n : ℕ} (hn : 0 < n) (k : ℕ)
    (text : List Byte) : c :: spaced false n text ≠ spaced false k (c :: text) := by
  intro h
  have hlen := congrArg List.length h
  rw [List.length_cons, length_spaced, length_spaced, List.length_cons] at hlen
  obtain ⟨k', rfl⟩ := Nat.exists_eq_add_of_le' (show 1 ≤ k by omega)
  exact hc (List.cons.inj h).1

theorem pads_integer_iff (T : Target) (radix : Radix) (v : BitVec 64)
    (hzero : flags.padZero = false) (hw : width ≤ maxFormat) (hp : precision ≤ digitsSize - 1) :
    (⟨flags, width, precision, .integer radix.char v⟩ : Directive).Pads T ↔
      ¬ (⟨flags, width, precision, .integer radix.char v⟩ : Directive).Overruns ∧
        (radix = .o → flags.left ∨ width ≤ storedDigits 8 precision v.toNat) := by
  by_cases hover : (⟨flags, width, precision, .integer radix.char v⟩ : Directive).Overruns
  · refine iff_of_false ?_ fun h => h.1 hover
    rintro ⟨text, k, -, hconv, -⟩
    have hend := (convert_ending_eq_fault (T := T) _).mpr (Or.inl ⟨rfl, hover⟩)
    rw [hconv] at hend
    cases hend
  rw [and_iff_right hover]
  obtain ⟨base, sign, m, hc, hoctal⟩ := conversion_radix flags radix v.toNat
  obtain ⟨-, -, hsign⟩ := conversion_value v.isLt (congrArg Emission.ending hc)
  have hroom : ¬ (precision = digitsSize - 1 ∧ sign ≠ 0) :=
    fun h => hover ⟨(hsign.mp h.2).1, h.1, (hsign.mp h.2).2⟩
  have h0 : convert T ⟨flags, 0, precision, .integer radix.char v⟩ = _ :=
    convert_integer T hc (Nat.zero_le _) hp hroom
  have h := convert_integer T hc hw hp hroom
  have hlen := length_storedChars base precision m (hexOf flags radix.char) sign
  rw [← List.length_reverse] at hlen
  generalize (storedChars base (hexOf flags radix.char) sign precision m).reverse = text
    at h0 h hlen
  rw [paddedText_blank hzero] at h0 h
  change _ = (⟨_ ++ spaced flags.left (width - text.length) text, _⟩ : Output Bool) at h
  change _ = (⟨_ ++ spaced flags.left (0 - text.length) text, _⟩ : Output Bool) at h0
  rw [Nat.zero_sub, spaced_zero] at h0
  by_cases hradix : radix = .o
  · obtain ⟨rfl, rfl, rfl⟩ := hoctal hradix
    rw [if_pos hradix, List.singleton_append] at h0 h
    have hstored : text.length = storedDigits 8 precision v.toNat := hlen
    rw [← hstored]
    by_cases hfits : flags.left ∨ width ≤ text.length
    · -- the `0` stands at the digits
      have h' : convert T ⟨flags, width, precision, .integer radix.char v⟩ =
          ⟨spaced flags.left (width - text.length) ('0'.toUInt8 :: text), .value true⟩ := by
        rw [h]
        rcases hfits with hleft | hle
        · rw [hleft]
          rfl
        · rw [Nat.sub_eq_zero_of_le hle, spaced_zero, spaced_zero]
      refine iff_of_true ((Directive.pads_iff_of_spaced h0 h').mpr ?_) fun _ => hfits
      show width ≤ _
      rw [List.length_cons]
      omega
    · obtain ⟨hleft, hlt⟩ := not_or.mp hfits
      refine iff_of_false ?_ fun h => hfits (h hradix)
      rintro ⟨text', k, h0', h', -⟩
      obtain rfl : '0'.toUInt8 :: text = text' := by
        rw [h0] at h0'
        exact congrArg Emission.text h0'
      rw [h] at h'
      have htexts := congrArg Emission.text h'
      dsimp only at htexts
      rw [Bool.not_eq_true] at hleft
      rw [hleft] at htexts
      exact spaced_cons_ne (by decide) (by omega) k text htexts
  · rw [if_neg hradix, List.nil_append] at h0 h
    refine iff_of_true ((Directive.pads_iff_of_spaced h0 h).mpr ?_) fun h => absurd h hradix
    show width ≤ _
    omega

/-! ### Directives of a format -/

/-- The conversions of the law: integers, `c` and `s`. -/
def Conversion.HasField : Conversion → Prop
  | .integer _ _ | .char | .string => True
  | .pointer | .dump => False

theorem Conversion.apply_padding (T : Target) {conv : Conversion} (h : conv.HasField)
    (flags : Flags) : (conv.apply T flags).left = flags.left ∧
      (conv.apply T flags).padZero = flags.padZero := by
  cases conv with
  | integer length radix =>
    obtain ⟨bit64, bit16, bit8, happly⟩ := length.apply_eq T flags
    show (length.apply T flags).left = _ ∧ (length.apply T flags).padZero = _
    rw [happly]
    exact ⟨rfl, rfl⟩
  | pointer => cases h
  | dump => cases h
  | _ => exact ⟨rfl, rfl⟩

/-- What the width adds in a format is what it adds to the directive that is read. -/
theorem widthPads_iff_pads (s : Spec) (hs : s.conversion.HasField) {args : ν}
    (hfits : ¬ s.TooBig va args) : WidthPads T va s args ↔ (s.read T va args).1.Pads T := by
  obtain ⟨hleft, -⟩ := Conversion.apply_padding T hs s.setFlags
  have hfits' : ¬ s.unpadded.TooBig va (s.width.read va args).2 := by
    rintro (h | h)
    · exact Nat.not_lt_zero _ h
    · exact hfits (Or.inr h)
  constructor
  · rintro ⟨text, k, args', h0, h, hle⟩
    refine ⟨text, k, ((s.unpadded.emits_iff hfits').mp h0).1, ?_, hle⟩
    have hconv := ((s.emits_iff hfits).mp h).1
    rwa [← hleft] at hconv
  · rintro ⟨text, k, h0, h, hle⟩
    refine ⟨text, k, (s.read T va args).2, (s.unpadded.emits_iff hfits').mpr ⟨h0, rfl⟩,
      (s.emits_iff hfits).mpr ⟨?_, rfl⟩, hle⟩
    rw [← hleft]
    exact h

/-- **When a width pads**: for every conversion of an integer, `%c` and `%s`, with every width and
precision that is accepted, all flags but `0` and every argument, exactly if the directive fills its
field. -/
theorem width_pads_iff (T : Target) (va : VaArg ν) (s : Spec) (hs : s.conversion.HasField)
    (hzero : s.setFlags.padZero = false) {args : ν} (hfits : ¬ s.TooBig va args)
    (hp : ∀ length radix, s.conversion = .integer length radix →
      (s.numbers va args).2.1 ≤ digitsSize - 1)
    (hstr : ∀ p, (s.read T va args).1.conv = .string p → p.addr = 0 ∨ (0 : Byte) ∈ p.bytes) :
    WidthPads T va s args ↔ (s.read T va args).1.FillsField := by
  obtain ⟨-, hzero'⟩ := Conversion.apply_padding T hs s.setFlags
  rw [hzero] at hzero'
  have hw : (s.numbers va args).1 ≤ maxFormat := not_lt.mp fun h => hfits (Or.inl h)
  rw [widthPads_iff_pads s hs hfits]
  rw [s.read_eq] at hstr ⊢
  generalize s.numbers va args = numbers at hw hp hstr ⊢
  obtain ⟨width, precision, args₁⟩ := numbers
  generalize s.setFlags = flags at hzero' hstr ⊢
  cases hconv : s.conversion with
  | integer length radix =>
    rw [hconv] at hzero'
    have hoctal : radix.char = 'o'.toUInt8 ↔ radix = .o := by
      cases radix <;> decide
    have h := pads_integer_iff T radix (integerArg va (length.apply T flags) args₁).1 hzero' hw
      (hp length radix hconv)
    rw [← hoctal] at h
    exact h
  | pointer =>
    rw [hconv] at hs
    cases hs
  | char => exact pads_char_iff T _
  | string =>
    rw [hconv] at hzero' hstr
    exact pads_string_iff T (hstr _ rfl) hzero' hw
  | dump =>
    rw [hconv] at hs
    cases hs

/-- `%-5d` of -42. -/
theorem width_pads_iff_left : WidthPads .x8664 wordArgs
    ⟨[.minus], .digits [5], none, .integer .none .d, by rintro ds ⟨⟩; decide⟩ [-42] := by
  refine (width_pads_iff .x8664 wordArgs _ ?_ rfl (by decide) (fun _ _ _ => Nat.zero_le _)
    ?_).mpr ⟨by decide, ?_⟩
  · trivial
  · rintro p ⟨⟩
  · rintro ⟨⟩

/-- The spaces of `%5o` stand between the `0` and the digits, and `%5c` has none. -/
theorem width_pads_octal :
    formatted .x8664 wordArgs (cstr "%o|%5o|%5c") [8, 8, 65] =
      ⟨"010|0   10|A".toList.map Char.toUInt8, .value ()⟩ ∧
    ¬ WidthPads .x8664 wordArgs
      ⟨[], .digits [5], none, .integer .none .o, by rintro ds ⟨⟩; decide⟩ [8] ∧
    ¬ WidthPads .x8664 wordArgs ⟨[], .digits [5], none, .char, by rintro ds ⟨⟩; decide⟩ [65] := by
  refine ⟨rfl, fun h => ?_, fun h => ?_⟩
  · have hpads := (widthPads_iff_pads _ (by trivial) (by decide)).mp h
    rcases ((pads_integer_iff .x8664 .o _ rfl (by decide) (by decide)).mp hpads).2 rfl with h | h
    · cases h
    · have hstored : storedDigits 8 0 8 = 2 := by simp [storedDigits, digitCount]
      change 5 ≤ storedDigits 8 0 8 at h
      omega
  · have hpads := (widthPads_iff_pads _ (by trivial) (by decide)).mp h
    exact absurd ((pads_char_iff .x8664 _).mp hpads) (by decide)

end Noc.Printf
