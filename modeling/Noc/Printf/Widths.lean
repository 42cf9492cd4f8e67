import Mathlib.Data.List.TakeWhile
import Noc.Lib.Numeral
import Noc.Printf.Run
import Noc.Printf.Syntax

/-! # Widths and precisions

The width and the precision of a directive are read in 32 bits and compared with `MAX_FORMAT` behind
the last digit.

* `numbers_exact_iff`: they are the numbers that the digits denote, and greater numbers are refused,
  exactly if both numbers are below `2 ^ 32` or one of them is too big modulo `2 ^ 32`, too. -/

namespace Noc.Printf

open Noc.Lib.Numeral Noc.Lib.Output Noc.Targets

variable {ν : Type} {T : Target} {va : VaArg ν}

/-! ### Digits -/

/-- The number that digits denote. -/
def decimal (ds : List (Fin 10)) : ℕ := value 10 (ds.map Fin.val)

theorem digitsValue_eq (ds : List (Fin 10)) : digitsValue 0 ds = decimal ds % 2 ^ 32 := by
  have h := foldl_mod (b := 10) (show 0 < 2 ^ 32 by decide) (ds.map Fin.val)
  rw [Nat.zero_mul, Nat.zero_add] at h
  rw [decimal, ← h, digitsValue, List.map_eq_flatMap]
  rfl

/-- The number that a width or a precision denotes: that of its digits, or the argument. -/
def Number.denoted (va : VaArg ν) : Number → ν → ℕ
  | .star, args => (Number.star.read va args).1
  | .digits ds, _ => decimal ds

/-- Without a precision it is 0. -/
def precisionDenoted (va : VaArg ν) : Option Number → ν → ℕ
  | none, _ => 0
  | some n, args => n.denoted va args

theorem Number.read_denoted (n : Number) (args : ν) :
    (n.read va args).1 = n.denoted va args % 2 ^ 32 := by
  rcases n with _ | ds
  · have h : (Number.star.read va args).1 < 2 ^ 32 := by
      unfold Number.read
      dsimp only
      split_ifs
      · decide
      · exact (va.word32 args).1.isLt
    exact (Nat.mod_eq_of_lt h).symm
  · exact digitsValue_eq ds

theorem readPrecision_denoted (p : Option Number) (args : ν) :
    (readPrecision va p args).1 = precisionDenoted va p args % 2 ^ 32 := by
  rcases p with _ | n
  · rfl
  · exact n.read_denoted args

/-! ### Directives as they are written -/

theorem Number.eq_zero_of_mem {n : Number} {d : Fin 10} (h : d ∈ n.zeros) : d = 0 := by
  rcases n with _ | ds
  · cases h
  · have hd := List.mem_takeWhile_imp (p := fun d : Fin 10 => decide (d.val = 0)) h
    exact Fin.ext (of_decide_eq_true hd)

theorem Number.render_zeros (n : Number) :
    n.zeros.map digitChar ++ n.behindZeros.render = n.render := by
  rcases n with _ | ds
  · rfl
  · show (ds.takeWhile _).map digitChar ++ (ds.dropWhile _).map digitChar = ds.map digitChar
    rw [← List.map_append, List.takeWhile_append_dropWhile]

theorem Number.denoted_zeros (n : Number) (args : ν) :
    n.behindZeros.denoted va args = n.denoted va args := by
  rcases n with _ | ds
  · rfl
  · have hzeros : ∀ d ∈ (ds.takeWhile fun d => d.val = 0).map Fin.val, d = 0 := by
      intro d hd
      obtain ⟨e, he, rfl⟩ := List.mem_map.mp hd
      rw [Number.eq_zero_of_mem (n := .digits ds) he]
      rfl
    have h := value_zeros_append (b := 10) hzeros ((ds.dropWhile fun d => d.val = 0).map Fin.val)
    rw [← List.map_append, List.takeWhile_append_dropWhile] at h
    exact h.symm

theorem Number.head_behindZeros (n : Number) (ds : List (Fin 10))
    (h : n.behindZeros = .digits ds) : ds.head? ≠ some 0 := by
  rcases n with _ | ds'
  · cases h
  · obtain rfl := Number.digits.inj h
    intro hhead
    have hnot := List.head?_dropWhile_not (fun d : Fin 10 => decide (d.val = 0)) ds'
    rw [hhead] at hnot
    cases hnot

/-- The characters of a directive behind the `%`. The digits of the width may begin with 0. -/
def directiveText (flags : List Flag) (width : Number) (precision : Option Number)
    (conversion : Conversion) : List Byte :=
  flags.map Flag.char ++ (width.render ++ (renderPrecision precision ++ conversion.render))

/-- The directive that is read: zeros in front of the width are flags. -/
def Spec.written (flags : List Flag) (width : Number) (precision : Option Number)
    (conversion : Conversion) : Spec where
  flags := flags ++ width.zeros.map fun _ => .zero
  width := width.behindZeros
  precision := precision
  conversion := conversion
  width_head := width.head_behindZeros

theorem Spec.written_body (flags : List Flag) (width : Number) (precision : Option Number)
    (conversion : Conversion) :
    (Spec.written flags width precision conversion).body =
      directiveText flags width precision conversion := by
  have hzeros : (width.zeros.map fun _ => Flag.zero).map Flag.char =
      width.zeros.map digitChar := by
    rw [List.map_map]
    refine List.map_congr_left fun d hd => ?_
    rw [Number.eq_zero_of_mem hd]
    rfl
  show (flags ++ width.zeros.map fun _ => Flag.zero).map Flag.char ++ (width.behindZeros.render ++
    (renderPrecision precision ++ conversion.render)) = _
  rw [List.map_append, hzeros, List.append_assoc, ← List.append_assoc (width.zeros.map _),
    width.render_zeros]
  rfl

/-- **The width and the precision that are read**: those that are denoted, modulo `2 ^ 32`. -/
theorem Spec.written_numbers (va : VaArg ν) (flags : List Flag) (width : Number)
    (precision : Option Number) (conversion : Conversion) (args : ν) :
    ((Spec.written flags width precision conversion).numbers va args).1 =
        width.denoted va args % 2 ^ 32 ∧
      ((Spec.written flags width precision conversion).numbers va args).2.1 =
        precisionDenoted va precision (width.read va args).2 % 2 ^ 32 := by
  have hargs : (width.behindZeros.read va args).2 = (width.read va args).2 := by
    rcases width with _ | ds <;> rfl
  constructor
  · show (width.behindZeros.read va args).1 = _
    rw [Number.read_denoted, width.denoted_zeros]
  · show (readPrecision va precision (width.behindZeros.read va args).2).1 = _
    rw [readPrecision_denoted, hargs]

/-! ### What is accepted and what is refused -/

/-- The numbers of the directive are taken as they are written: if it is accepted, they are at most
`MAX_FORMAT` and are used as they are; if one is greater, it leads to `ERROR_STR`. -/
structure NumbersExact (T : Target) (va : VaArg ν) (flags : List Flag) (width : Number)
    (precision : Option Number) (conversion : Conversion) (args : ν) : Prop where
  accepted : ∀ {c : Byte} {format rest : List Byte},
    directiveText flags width precision conversion ++ rest = c :: format →
    ∃ d rest' args', parse T va c format args = .ok (d, rest', args') ∧
      (d.conv ≠ .error →
        width.denoted va args ≤ maxFormat ∧ d.padWidth = width.denoted va args ∧
        precisionDenoted va precision (width.read va args).2 ≤ maxFormat ∧
        d.precision = precisionDenoted va precision (width.read va args).2)
  refused : maxFormat < width.denoted va args ∨
      maxFormat < precisionDenoted va precision (width.read va args).2 →
    ∀ rest, formatted T va
        ('%'.toUInt8 :: (directiveText flags width precision conversion ++ rest)) args =
      ⟨"<ERROR>\n".toList.map Char.toUInt8, .value ()⟩

theorem directiveText_ne_nil (flags : List Flag) (width : Number) (precision : Option Number)
    (conversion : Conversion) (rest : List Byte) :
    directiveText flags width precision conversion ++ rest ≠ [] := by
  obtain ⟨c, t, h, -⟩ := head_of_conversion conversion rest
  unfold directiveText
  simp only [List.append_assoc, h]
  exact List.append_ne_nil_of_right_ne_nil _ (List.append_ne_nil_of_right_ne_nil _
    (List.append_ne_nil_of_right_ne_nil _ (List.cons_ne_nil c t)))

/-- A directive that is too big leads to `ERROR_STR`. -/
theorem formatted_of_tooBig (s : Spec) {args : ν} (hbig : s.TooBig va args) (rest : List Byte)
    (hne : s.body ++ rest ≠ []) :
    formatted T va ('%'.toUInt8 :: (s.body ++ rest)) args =
      ⟨"<ERROR>\n".toList.map Char.toUInt8, .value ()⟩ := by
  obtain ⟨c, format, hbody⟩ := List.exists_cons_of_ne_nil hne
  obtain ⟨d, rest', hd, hconv⟩ := parse_render_error (T := T) s hbody hbig
  have herror : convert T d = ⟨[], .value false⟩ := by
    rw [convert, hconv]
    rfl
  obtain ⟨hc, h0⟩ := s.body_head hbody
  rw [hbody]
  exact (Run.error hc h0 hd herror).formatted_eq

/-- A conversion is none of the errors. -/
theorem conv_ne_error (conv : Conversion) (flags : Flags) (args : ν) :
    (conv.read va flags args).1 ≠ .error := by
  cases conv <;> exact Conv.noConfusion

/-- **When widths and precisions are exact**: for all flags, digits and arguments, exactly if both
numbers are below `2 ^ 32`, or one of them is above `MAX_FORMAT` modulo `2 ^ 32`, too. -/
theorem numbers_exact_iff (T : Target) (va : VaArg ν) (flags : List Flag) (width : Number)
    (precision : Option Number) (conversion : Conversion) (args : ν) :
    NumbersExact T va flags width precision conversion args ↔
      let w := width.denoted va args
      let p := precisionDenoted va precision (width.read va args).2
      (w < 2 ^ 32 ∧ p < 2 ^ 32) ∨ maxFormat < w % 2 ^ 32 ∨ maxFormat < p % 2 ^ 32 := by
  obtain ⟨hw, hp⟩ := Spec.written_numbers va flags width precision conversion args
  have hbody := Spec.written_body flags width precision conversion
  generalize Spec.written flags width precision conversion = s at hw hp hbody
  by_cases hbig : s.TooBig va args
  · -- the directive is an error, whatever its numbers are
    refine iff_of_true ⟨?_, ?_⟩ (Or.inr ?_)
    · intro c format rest h
      rw [← hbody] at h
      obtain ⟨d, rest', hd, hconv⟩ := parse_render_error (T := T) s h hbig
      exact ⟨d, rest', _, hd, fun hne => absurd hconv hne⟩
    · intro _ rest
      rw [← hbody]
      exact formatted_of_tooBig s hbig rest
        (by rw [hbody]; exact directiveText_ne_nil flags width precision conversion rest)
    · rw [← hw, ← hp]
      exact hbig
  · have hsmall : ¬ (maxFormat < width.denoted va args % 2 ^ 32 ∨
        maxFormat < precisionDenoted va precision (width.read va args).2 % 2 ^ 32) := by
      rw [← hw, ← hp]
      exact hbig
    constructor
    · intro h
      obtain ⟨c, format, hcons⟩ := List.exists_cons_of_ne_nil
        (directiveText_ne_nil flags width precision conversion [])
      obtain ⟨d, rest', args', hd, htaken⟩ := h.accepted hcons
      rw [← hbody] at hcons
      rw [parse_render s hcons hbig] at hd
      cases hd
      obtain ⟨-, h1, -, h2⟩ := htaken (conv_ne_error _ _ _)
      change (s.numbers va args).1 = _ at h1
      change (s.numbers va args).2.1 = _ at h2
      rw [hw] at h1
      rw [hp] at h2
      exact Or.inl ⟨by omega, by omega⟩
    · rintro (⟨h1, h2⟩ | h)
      · rw [Nat.mod_eq_of_lt h1, Nat.mod_eq_of_lt h2] at hsmall
        rw [Nat.mod_eq_of_lt h1] at hw
        rw [Nat.mod_eq_of_lt h2] at hp
        refine ⟨fun hcons => ?_, fun hlarge => absurd hlarge hsmall⟩
        rw [← hbody] at hcons
        obtain ⟨hle1, hle2⟩ := not_or.mp hsmall
        exact ⟨_, _, _, parse_render s hcons hbig, fun _ =>
          ⟨not_lt.mp hle1, hw, not_lt.mp hle2, hp⟩⟩
      · exact absurd h hsmall

/-- `4294967297` is read as 1. -/
theorem numbers_exact_wraps :
    decimal [4, 2, 9, 4, 9, 6, 7, 2, 9, 7] = 4294967297 ∧
    directiveText [] (.digits [4, 2, 9, 4, 9, 6, 7, 2, 9, 7]) none (.integer .none .d) ++ [0] =
      cstr "4294967297d" ∧
    formatted .x8664 wordArgs (cstr "%4294967297d") [5] = ⟨['5'.toUInt8], .value ()⟩ ∧
    ¬ NumbersExact .x8664 wordArgs [] (.digits [4, 2, 9, 4, 9, 6, 7, 2, 9, 7]) none
      (.integer .none .d) [5] := by
  have htext : formatted .x8664 wordArgs (cstr "%4294967297d") [5] = ⟨['5'.toUInt8], .value ()⟩ :=
    rfl
  refine ⟨rfl, rfl, htext, fun h => ?_⟩
  have herror := h.refused (Or.inl (by decide)) [0]
  change formatted .x8664 wordArgs (cstr "%4294967297d") [5] = _ at herror
  rw [htext] at herror
  cases herror

end Noc.Printf
