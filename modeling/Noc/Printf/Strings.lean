import Noc.Printf.Args
import Noc.Printf.Fields

/-! # Fields of `%s`

What `%s` emits with a precision. The formatter takes the length of the whole argument first, so it
needs the NUL of the string; a precision of 0 counts as none.

`string_field_iff`: so the field is right, and no byte of the argument behind the precision is read,
exactly if the NUL is within the precision. -/

namespace Noc.Printf

open Noc.Lib.Output Noc.Lib.Output.Emission Noc.Targets

variable {ν : Type} {T : Target} {va : VaArg ν} {flags : Flags}

/-- A width or a precision that is given: as digits, or as an argument that is not negative. -/
def Number.Gives (va : VaArg ν) (n : Number) (args : ν) (k : ℕ) (args' : ν) : Prop :=
  match n with
  | .star => k < 2 ^ 31 ∧ va.word32 args = (BitVec.ofNat 32 k, args')
  | .digits ds => digitsValue 0 ds = k ∧ args = args'

theorem Number.Gives.read_eq {n : Number} {args args' : ν} {k : ℕ} (h : n.Gives va args k args') :
    n.read va args = (k, args') := by
  cases n with
  | star =>
    obtain ⟨hk, hword⟩ := h
    have hnat : (BitVec.ofNat 32 k).toNat = k := by
      rw [BitVec.toNat_ofNat]
      omega
    have hint : ¬ (BitVec.ofNat 32 k).toInt < 0 := by
      rw [BitVec.toInt_eq_toNat_of_lt (by omega)]
      omega
    rw [Number.read, hword]
    dsimp only
    rw [if_neg hint, hnat]
  | digits ds =>
    obtain ⟨rfl, rfl⟩ := h
    rfl

/-- A field with a text and blanks. -/
def stringField (left : Bool) (width : ℕ) (text : List Byte) : List Byte :=
  if left then text ++ List.replicate (width - text.length) ' '.toUInt8
  else List.replicate (width - text.length) ' '.toUInt8 ++ text

theorem paddedText_blank {width : ℕ} {text : List Byte} (hzero : flags.padZero = false) :
    paddedText flags width text = stringField flags.left width text := by
  unfold paddedText stringField
  rw [hzero]
  cases flags.left <;> simp

/-- The text of a string with its NUL within the precision. -/
theorem output_string {width precision : ℕ} {s : List Byte} (hnul : (0 : Byte) ∈ s)
    (hp : s.length ≤ precision) : output flags width precision s =
      ⟨paddedText flags width (s.takeWhile (· ≠ 0)), .value ()⟩ := by
  have hlen : (s.takeWhile (· ≠ 0)).length ≤ precision :=
    (List.takeWhile_prefix _).length_le.trans hp
  have hpos : precision ≠ 0 := by
    have := List.length_pos_of_mem hnul
    omega
  have hshown : shownLen precision (s.takeWhile (· ≠ 0)).length = (s.takeWhile (· ≠ 0)).length :=
    if_neg fun h => by omega
  rw [output_eq hnul]
  dsimp only
  rw [hshown, shownMax, if_neg hpos, List.take_of_length_le hlen]
  rfl

/-- The format that is one directive with a fault. -/
theorem formatted_directive_fault (s : Spec) {args : ν} {text : List Byte} {f : Fault}
    (hfits : ¬ s.TooBig va args) (hconv : convert T (s.read T va args).1 = ⟨text, .fault f⟩) :
    formatted T va ('%'.toUInt8 :: (s.body ++ [0])) args = ⟨text, .fault f⟩ := by
  rcases hbody : s.body ++ [0] with _ | ⟨c, tail⟩
  · exact absurd hbody (by simp)
  obtain ⟨hc, h0⟩ := s.body_head hbody
  have hrun := Run.fault hc h0 (parse_render (T := T) s hbody hfits) hconv
  exact hrun.formatted_eq

/-- **When a `%s` field with a precision is right**: for every string and every array of as many
bytes as the precision says, of which the formatter can read no more than these (so that an
examined byte behind them is a fault), exactly if there is a NUL among them. -/
theorem string_field_iff (T : Target) (va : VaArg ν) (s : Spec) (hs : s.conversion = .string)
    (hzero : s.setFlags.padZero = false) {args args₁ args₂ : ν} {width precision : ℕ} {n : Number}
    (hwidth : s.width.Gives va args width args₁) (hn : s.precision = some n)
    (hprecision : n.Gives va args₁ precision args₂) (hw : width ≤ maxFormat)
    (hp : precision ≤ maxFormat) {addr : ℕ} (haddr : addr ≠ 0) {str : List Byte}
    (hptr : (va.pointer args₂).1 = ⟨addr, str.take precision⟩) :
    formatted T va ('%'.toUInt8 :: (s.body ++ [0])) args =
        ⟨stringField s.setFlags.left width ((str.takeWhile (· ≠ 0)).take precision), .value ()⟩ ↔
      (0 : Byte) ∈ str.take precision := by
  have hnum : s.numbers va args = (width, precision, args₂) := by
    rw [Spec.numbers, hwidth.read_eq, hn]
    dsimp only [readPrecision]
    rw [hprecision.read_eq]
  have hfits : ¬ s.TooBig va args := by
    rw [Spec.TooBig, hnum, not_or]
    exact ⟨not_lt.mpr hw, not_lt.mpr hp⟩
  have hread : (s.read T va args).1 =
      ⟨s.setFlags, width, precision, .string ⟨addr, str.take precision⟩⟩ := by
    rw [Spec.read, hnum, hs, ← hptr]
    rfl
  by_cases hnul : (0 : Byte) ∈ str.take precision
  · have hconv : convert T (s.read T va args).1 =
        ⟨stringField s.setFlags.left width ((str.takeWhile (· ≠ 0)).take precision),
          .value true⟩ := by
      rw [hread, convert]
      dsimp only
      rw [if_neg haddr, output_string hnul (List.length_take_le _ _), bind_value rfl, pure_eq,
        paddedText_blank hzero, ← List.take_takeWhile]
      simp
    exact iff_of_true ((run_directive_iff s hfits).mpr ⟨hconv, rfl⟩).formatted_eq hnul
  · have hout : (output s.setFlags width precision (str.take precision)).ending =
        .fault .string := by
      rw [output_ending, if_neg hnul]
    obtain ⟨text, hconv⟩ : ∃ text, convert T (s.read T va args).1 = ⟨text, .fault .string⟩ := by
      rw [hread, convert]
      dsimp only
      rw [if_neg haddr]
      exact ⟨_, bind_fault hout⟩
    rw [formatted_directive_fault s hfits hconv]
    exact iff_of_false (by simp) hnul

/-- `%-6.*s` of a string of two characters, with the precision 3. -/
theorem string_field_iff_nul :
    formatted .riscv32 (argList .riscv32) ("%-6.*s".toList.map Char.toUInt8 ++ [0])
        (.start [.word32 3, .pointer ⟨1, cstr "ab"⟩]) =
      ⟨stringField true 6 (((cstr "ab").takeWhile (· ≠ 0)).take 3), .value ()⟩ := by
  have hwidth : (Number.digits [6]).Gives (argList .riscv32)
      (.start [.word32 3, .pointer ⟨1, cstr "ab"⟩]) 6
      (.start [.word32 3, .pointer ⟨1, cstr "ab"⟩]) := ⟨rfl, rfl⟩
  exact (string_field_iff .riscv32 (argList .riscv32)
    ⟨[.minus], .digits [6], some .star, .string, by rintro ds ⟨⟩; decide⟩ rfl rfl hwidth rfl
    ⟨by decide, rfl⟩ (by decide) (by decide) (by decide) rfl).mpr (by decide)

/-- An array of two bytes is no valid argument of `%.2s`, and `%.0s` shows all of its argument. -/
theorem string_field_array :
    formatted .riscv32 (argList .riscv32) (cstr "%.2s")
        (.start [.pointer ⟨1, "ab".toList.map Char.toUInt8⟩]) ≠
      ⟨stringField false 0 ("ab".toList.map Char.toUInt8), .value ()⟩ ∧
    formatted .riscv32 (argList .riscv32) (cstr "%.0s") (.start [.pointer ⟨1, cstr "ab"⟩]) ≠
      ⟨stringField false 0 [], .value ()⟩ := by
  decide

end Noc.Printf
