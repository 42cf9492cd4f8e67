import Noc.Printf.Parse

/-! # The syntax of formats

Formats as syntax: a `Format` is a list of items, and an item is a character, `%%`, or a directive
(`Spec`) with flags, a width, a precision and a conversion. `render` gives the characters, and
`Spec.read` says what the formatter makes of a directive and the arguments.

* `parse_render`, `parse_render_error`: a directive is read as it is rendered. -/

namespace Noc.Printf

open Noc.Targets

variable {ν : Type} (T : Target) (va : VaArg ν)

/-- A flag. -/
inductive Flag where
  | minus
  | plus
  | zero
  | sharp
  | space
deriving DecidableEq

/-- The character of a flag. -/
def Flag.char : Flag → Byte
  | .minus => '-'.toUInt8
  | .plus => '+'.toUInt8
  | .zero => '0'.toUInt8
  | .sharp => '#'.toUInt8
  | .space => ' '.toUInt8

/-- Set a flag. -/
def Flag.apply (flags : Flags) : Flag → Flags
  | .minus => { flags with left := true }
  | .plus => { flags with addSign := true }
  | .zero => { flags with padZero := true }
  | .sharp => { flags with alt := true }
  | .space => { flags with space := true }

/-- A width or a precision: an argument, or digits (if any). -/
inductive Number where
  | star
  | digits (ds : List (Fin 10))
deriving DecidableEq

/-- The character of a decimal digit. -/
def digitChar (d : Fin 10) : Byte := '0'.toUInt8 + UInt8.ofNat d

def Number.render : Number → List Byte
  | .star => ['*'.toUInt8]
  | .digits ds => ds.map digitChar

/-- The zeros that digits begin with. -/
def Number.zeros : Number → List (Fin 10)
  | .star => []
  | .digits ds => ds.takeWhile fun d => d.val = 0

/-- The number without the zeros in front. -/
def Number.behindZeros : Number → Number
  | .star => .star
  | .digits ds => .digits (ds.dropWhile fun d => d.val = 0)

/-- The value of digits behind a number `n`, as a `uint32_t`. -/
def digitsValue (n : ℕ) (ds : List (Fin 10)) : ℕ :=
  ds.foldl (fun n d => (10 * n + d) % 2 ^ 32) n

/-- A negative argument counts as 0. -/
def Number.read : Number → ν → ℕ × ν
  | .star, args =>
    let (p, args) := va.word32 args
    (if p.toInt < 0 then 0 else p.toNat, args)
  | .digits ds, args => (digitsValue 0 ds, args)

/-- A precision is behind a dot. -/
def renderPrecision : Option Number → List Byte
  | none => []
  | some n => '.'.toUInt8 :: n.render

/-- Without a precision it is 0. -/
def readPrecision : Option Number → ν → ℕ × ν
  | none, args => (0, args)
  | some n, args => n.read va args

/-- A length modifier, or none. -/
inductive Length where
  | none
  | hh
  | h
  | l
  | ll
  | z
  | t
  | j
deriving DecidableEq

def Length.render : Length → List Byte
  | .none => []
  | .hh => ['h'.toUInt8, 'h'.toUInt8]
  | .h => ['h'.toUInt8]
  | .l => ['l'.toUInt8]
  | .ll => ['l'.toUInt8, 'l'.toUInt8]
  | .z => ['z'.toUInt8]
  | .t => ['t'.toUInt8]
  | .j => ['j'.toUInt8]

/-- The size flag that the formatter sets for a length modifier. -/
def Length.apply (flags : Flags) : Length → Flags
  | .none => flags
  | .hh => { flags with bit8 := true }
  | .h => { flags with bit16 := true }
  | .l | .ll | .j => { flags with bit64 := true }
  | .z | .t => if T.ptrBytes = 8 then { flags with bit64 := true } else flags

/-- A length modifier sets nothing but the size. -/
theorem Length.apply_eq (length : Length) (flags : Flags) : ∃ bit64 bit16 bit8,
    length.apply T flags = { flags with bit64 := bit64, bit16 := bit16, bit8 := bit8 } := by
  have hptr : ∃ bit64, (if T.ptrBytes = 8 then { flags with bit64 := true } else flags) =
      { flags with bit64 := bit64 } := by
    by_cases h : T.ptrBytes = 8
    · exact ⟨true, if_pos h⟩
    · exact ⟨flags.bit64, if_neg h⟩
  cases length with
  | z =>
    obtain ⟨bit64, h⟩ := hptr
    exact ⟨bit64, _, _, h⟩
  | t =>
    obtain ⟨bit64, h⟩ := hptr
    exact ⟨bit64, _, _, h⟩
  | _ => exact ⟨_, _, _, rfl⟩

/-- A conversion of an integer. -/
inductive Radix where
  | d
  | u
  | x
  | X
  | o
  | b
deriving DecidableEq

def Radix.char : Radix → Byte
  | .d => 'd'.toUInt8
  | .u => 'u'.toUInt8
  | .x => 'x'.toUInt8
  | .X => 'X'.toUInt8
  | .o => 'o'.toUInt8
  | .b => 'b'.toUInt8

/-- A conversion. -/
inductive Conversion where
  | integer (length : Length) (radix : Radix)
  | pointer
  | char
  | string
  | dump
deriving DecidableEq

def Conversion.render : Conversion → List Byte
  | .integer length radix => length.render ++ [radix.char]
  | .pointer => ['p'.toUInt8]
  | .char => ['c'.toUInt8]
  | .string => ['s'.toUInt8]
  | .dump => ['H'.toUInt8]

/-- The flags with those of the conversion. -/
def Conversion.apply (flags : Flags) : Conversion → Flags
  | .integer length _ => length.apply T flags
  | .pointer =>
    { (if T.ptrBytes = 8 then { flags with bit64 := true } else flags) with padZero := true }
  | _ => flags

/-- What is to be converted, under the flags of the conversion. -/
def Conversion.read (flags : Flags) : Conversion → ν → Conv × ν
  | .integer _ radix, args =>
    let (v, args) := integerArg va flags args
    (.integer radix.char v, args)
  | .pointer, args =>
    let (v, args) := integerArg va flags args
    (.integer 'p'.toUInt8 v, args)
  | .char, args =>
    let (w, args) := va.word32 args
    (.char (UInt8.ofNat w.toNat), args)
  | .string, args =>
    let (p, args) := va.pointer args
    (.string p, args)
  | .dump, args =>
    let (p, args) := va.pointer args
    (.dump p, args)

/-- A directive. The digits of a width do not begin with 0, which would be a flag. -/
structure Spec where
  flags : List Flag
  width : Number
  precision : Option Number
  conversion : Conversion
  width_head : ∀ ds, width = .digits ds → ds.head? ≠ some 0

namespace Spec
variable (s : Spec)

/-- The characters behind the `%`. -/
def body : List Byte :=
  s.flags.map Flag.char ++ (s.width.render ++ (renderPrecision s.precision ++ s.conversion.render))

/-- The flags that are given. -/
def setFlags : Flags := s.flags.foldl Flag.apply {}

/-- The flags leave the size alone. -/
theorem setFlags_sizes :
    s.setFlags.bit64 = false ∧ s.setFlags.bit16 = false ∧ s.setFlags.bit8 = false := by
  have hfold : ∀ (fs : List Flag) (flags : Flags),
      flags.bit64 = false ∧ flags.bit16 = false ∧ flags.bit8 = false →
      (fs.foldl Flag.apply flags).bit64 = false ∧ (fs.foldl Flag.apply flags).bit16 = false ∧
        (fs.foldl Flag.apply flags).bit8 = false := by
    intro fs
    induction fs with
    | nil => exact fun _ h => h
    | cons f fs ih =>
      intro flags h
      exact ih _ (by cases f <;> exact h)
  exact hfold s.flags {} ⟨rfl, rfl, rfl⟩

/-- The width and the precision, and the arguments behind them. -/
def numbers (args : ν) : ℕ × ℕ × ν :=
  let (padWidth, args) := s.width.read va args
  let (precision, args) := readPrecision va s.precision args
  (padWidth, precision, args)

/-- The width or the precision is too big. -/
def TooBig (args : ν) : Prop :=
  maxFormat < (s.numbers va args).1 ∨ maxFormat < (s.numbers va args).2.1

instance (args : ν) : Decidable (s.TooBig va args) := inferInstanceAs (Decidable (_ ∨ _))

/-- What the formatter makes of the directive, and the arguments behind it. -/
def read (args : ν) : Directive × ν :=
  let (padWidth, precision, args) := s.numbers va args
  let flags := s.conversion.apply T s.setFlags
  let (conv, args) := s.conversion.read va flags args
  (⟨flags, padWidth, precision, conv⟩, args)

end Spec

/-- An item of a format. -/
inductive Item where
  | char (c : Byte) (h0 : c ≠ 0) (hc : c ≠ '%'.toUInt8)
  | percent
  | directive (s : Spec)

def Item.render : Item → List Byte
  | .char c _ _ => [c]
  | .percent => ['%'.toUInt8, '%'.toUInt8]
  | .directive s => '%'.toUInt8 :: s.body

/-- A format. -/
abbrev Format : Type := List Item

/-- The characters of a format, without the NUL. -/
def Format.render (format : Format) : List Byte := format.flatMap Item.render

/-! ### Reading what is rendered

The functions that read have the first character apart, so the lemmas are about a text that is
rendered and has this character at its head. -/

section Read
variable {T va} {c c' : Byte} {format rest t : List Byte} {args args' : ν} {flags : Flags}

/-- A character that ends the flags, and goes on with the directive. -/
def Follows (c : Byte) : Prop := (∀ flags : Flags, flags.set c = none) ∧ c ≠ '%'.toUInt8 ∧ c ≠ 0

theorem set_char (flag : Flag) : flags.set flag.char = some (flag.apply flags) := by
  cases flag <;> rfl

theorem append_cons_ne_nil (l l' : List Byte) (b : Byte) : l ++ b :: l' ≠ [] :=
  List.append_ne_nil_of_right_ne_nil l (List.cons_ne_nil b l')

theorem flagsLoop_render (fs : List Flag) (h : fs.map Flag.char ++ c' :: rest = c :: format)
    (hstop : Follows c') :
    flagsLoop flags c format = .ok (fs.foldl Flag.apply flags, c', rest) := by
  induction fs generalizing flags c format with
  | nil =>
    cases h
    exact flagsLoop_stop (hstop.1 flags)
  | cons f fs ih =>
    rw [List.map_cons, List.cons_append] at h
    obtain ⟨rfl, hformat⟩ := List.cons.inj h
    cases format with
    | nil => exact absurd hformat (append_cons_ne_nil _ _ _)
    | cons c format =>
      rw [flagsLoop, set_char]
      exact ih hformat

theorem isdigit_digitChar (d : Fin 10) : isdigit (digitChar d) = true := by
  revert d
  decide

theorem toNat_digitChar (d : Fin 10) : (digitChar d).toNat - '0'.toNat = d := by
  revert d
  decide

theorem numberLoop_render (ds : List (Fin 10)) {n : ℕ}
    (h : ds.map digitChar ++ c' :: rest = c :: format) (hstop : isdigit c' = false) :
    numberLoop n c format = .ok (digitsValue n ds, c', rest) := by
  induction ds generalizing n c format with
  | nil =>
    cases h
    exact numberLoop_stop hstop
  | cons d ds ih =>
    rw [List.map_cons, List.cons_append] at h
    obtain ⟨rfl, hformat⟩ := List.cons.inj h
    cases format with
    | nil => exact absurd hformat (append_cons_ne_nil _ _ _)
    | cons c format =>
      rw [numberLoop, isdigit_digitChar, if_pos rfl, toNat_digitChar]
      exact ih hformat

theorem digitChar_ne (d : Fin 10) : digitChar d ≠ '*'.toUInt8 ∧ digitChar d ≠ '.'.toUInt8 := by
  revert d
  decide

theorem parseNumber_render (n : Number) (h : n.render ++ c' :: rest = c :: format)
    (hstop : isdigit c' = false) (hstar : c' ≠ '*'.toUInt8) :
    parseNumber va c format args = .ok ((n.read va args).1, c', rest, (n.read va args).2) := by
  cases n with
  | star =>
    cases h
    rw [parseNumber, if_pos rfl]
    rfl
  | digits ds =>
    have hc : c ≠ '*'.toUInt8 := by
      cases ds with
      | nil =>
        cases h
        exact hstar
      | cons d ds =>
        cases h
        exact (digitChar_ne d).1
    rw [parseNumber, if_neg hc, numberLoop_render ds h hstop]
    rfl

theorem parsePrecision_render (p : Option Number)
    (h : renderPrecision p ++ c' :: rest = c :: format) (hstop : isdigit c' = false)
    (hstar : c' ≠ '*'.toUInt8) (hdot : c' ≠ '.'.toUInt8) :
    parsePrecision va c format args =
      .ok ((readPrecision va p args).1, c', rest, (readPrecision va p args).2) := by
  cases p with
  | none =>
    cases h
    exact if_neg hdot
  | some n =>
    rw [renderPrecision, List.cons_append] at h
    obtain ⟨rfl, hformat⟩ := List.cons.inj h
    cases format with
    | nil => exact absurd hformat (append_cons_ne_nil _ _ _)
    | cons c format =>
      rw [parsePrecision, if_pos rfl]
      exact parseNumber_render n hformat hstop hstar

theorem lengthModifier_render (length : Length) (radix : Radix)
    (h : length.render ++ radix.char :: t = c :: format) :
    lengthModifier T flags c format = .ok (length.apply T flags, radix.char, t) := by
  cases length <;> cases h <;> cases radix <;> rfl

theorem parseConv_render (conv : Conversion) (h : conv.render ++ t = c :: format) :
    parseConv T va flags c format args = .ok (conv.apply T flags,
      (conv.read va (conv.apply T flags) args).1, t,
      (conv.read va (conv.apply T flags) args).2) := by
  cases conv with
  | integer length radix =>
    rw [Conversion.render, List.append_assoc, List.singleton_append] at h
    have hs : c ≠ 's'.toUInt8 ∧ c ≠ 'H'.toUInt8 := by
      cases length <;> cases h <;> first | decide | (cases radix <;> decide)
    have hc : radix.char ≠ 'c'.toUInt8 := by cases radix <;> decide
    rw [parseConv, if_neg hs.1, if_neg hs.2, lengthModifier_render length radix h, ok_bind]
    dsimp only
    rw [if_neg hc]
    rfl
  | pointer =>
    cases h
    rfl
  | char =>
    cases h
    rfl
  | string =>
    cases h
    rfl
  | dump =>
    cases h
    rfl

/-! The first characters of what follows the flags, the width and the precision. -/

theorem head_of_conversion (conv : Conversion) (t : List Byte) : ∃ c rest,
    conv.render ++ t = c :: rest ∧ Follows c ∧ isdigit c = false ∧ c ≠ '*'.toUInt8 ∧
      c ≠ '.'.toUInt8 := by
  have hhead : ∀ (c : Byte) (rest : List Byte), conv.render = c :: rest → Follows c →
      isdigit c = false ∧ c ≠ '*'.toUInt8 ∧ c ≠ '.'.toUInt8 →
      ∃ c rest, conv.render ++ t = c :: rest ∧ Follows c ∧
        isdigit c = false ∧ c ≠ '*'.toUInt8 ∧ c ≠ '.'.toUInt8 := by
    intro c rest h h1 h2
    exact ⟨c, rest ++ t, by rw [h, List.cons_append], h1, h2⟩
  cases conv with
  | integer length radix =>
    cases length with
    | none =>
      cases radix <;> exact hhead _ _ rfl ⟨fun _ => rfl, by decide, by decide⟩ (by decide)
    | _ => exact hhead _ _ rfl ⟨fun _ => rfl, by decide, by decide⟩ (by decide)
  | _ => exact hhead _ _ rfl ⟨fun _ => rfl, by decide, by decide⟩ (by decide)

theorem head_of_precision (p : Option Number) (rest : List Byte) (h : Follows c)
    (hdigit : isdigit c = false) (hstar : c ≠ '*'.toUInt8) :
    ∃ c' rest', renderPrecision p ++ c :: rest = c' :: rest' ∧
      Follows c' ∧ isdigit c' = false ∧ c' ≠ '*'.toUInt8 := by
  cases p with
  | none => exact ⟨c, rest, rfl, h, hdigit, hstar⟩
  | some n => exact ⟨_, _, rfl, ⟨fun _ => rfl, by decide, by decide⟩, by decide, by decide⟩

theorem follows_digitChar {d : Fin 10} (h : d ≠ 0) : Follows (digitChar d) := by
  have hset : ∀ d : Fin 10, d ≠ 0 → digitChar d ≠ '-'.toUInt8 ∧ digitChar d ≠ '+'.toUInt8 ∧
      digitChar d ≠ '0'.toUInt8 ∧ digitChar d ≠ '#'.toUInt8 ∧ digitChar d ≠ ' '.toUInt8 ∧
      digitChar d ≠ '%'.toUInt8 ∧ digitChar d ≠ 0 := by decide
  obtain ⟨h1, h2, h3, h4, h5, h6⟩ := hset d h
  refine ⟨fun flags => ?_, h6⟩
  rw [Flags.set, if_neg h1, if_neg h2, if_neg h3, if_neg h4, if_neg h5]

theorem head_of_width (n : Number) (hn : ∀ ds, n = .digits ds → ds.head? ≠ some 0)
    (rest : List Byte) (h : Follows c) :
    ∃ c' rest', n.render ++ c :: rest = c' :: rest' ∧ Follows c' := by
  rcases n with _ | _ | ⟨d, ds⟩
  · exact ⟨_, _, rfl, fun _ => rfl, by decide, by decide⟩
  · exact ⟨c, rest, rfl, h⟩
  · refine ⟨digitChar d, _, rfl, follows_digitChar fun h0 => hn _ rfl ?_⟩
    rw [h0]
    rfl

theorem head_of_flags (fs : List Flag) (h : fs.map Flag.char ++ c' :: rest = c :: format)
    (hc' : Follows c') : c ≠ '%'.toUInt8 ∧ c ≠ 0 := by
  cases fs with
  | nil =>
    cases h
    exact hc'.2
  | cons f fs =>
    cases h
    cases f <;> decide

/-- The parts of a directive, one after the other. -/
theorem Spec.parts (s : Spec) (h : s.body ++ t = c :: format) :
    ∃ c₁ rest₁ c₂ rest₂ c₃ rest₃, s.conversion.render ++ t = c₃ :: rest₃ ∧
      renderPrecision s.precision ++ c₃ :: rest₃ = c₂ :: rest₂ ∧
      s.width.render ++ c₂ :: rest₂ = c₁ :: rest₁ ∧
      s.flags.map Flag.char ++ c₁ :: rest₁ = c :: format ∧ Follows c₁ ∧
      (isdigit c₂ = false ∧ c₂ ≠ '*'.toUInt8) ∧
      isdigit c₃ = false ∧ c₃ ≠ '*'.toUInt8 ∧ c₃ ≠ '.'.toUInt8 := by
  obtain ⟨c₃, rest₃, h3, hf3, hd3, hs3, hdot⟩ := head_of_conversion s.conversion t
  obtain ⟨c₂, rest₂, h2, hf2, hd2, hs2⟩ := head_of_precision s.precision rest₃ hf3 hd3 hs3
  obtain ⟨c₁, rest₁, h1, hf1⟩ := head_of_width s.width s.width_head rest₂ hf2
  refine ⟨c₁, rest₁, c₂, rest₂, c₃, rest₃, h3, h2, h1, ?_, hf1, ⟨hd2, hs2⟩, hd3, hs3, hdot⟩
  rw [← h1, ← h2, ← h3, ← h, Spec.body]
  simp only [List.append_assoc]

theorem Spec.body_head (s : Spec) (h : s.body ++ t = c :: format) : c ≠ '%'.toUInt8 ∧ c ≠ 0 := by
  obtain ⟨c₁, rest₁, c₂, rest₂, c₃, rest₃, -, -, -, hflags, hf1, -⟩ := s.parts h
  exact head_of_flags s.flags hflags hf1

/-- **A directive is read as it is rendered**, with the arguments that it names. -/
theorem parse_render (s : Spec) (h : s.body ++ t = c :: format) (hfits : ¬ s.TooBig va args) :
    parse T va c format args = .ok ((s.read T va args).1, t, (s.read T va args).2) := by
  obtain ⟨c₁, rest₁, c₂, rest₂, c₃, rest₃, h3, h2, h1, hflags, hf1, ⟨hd2, hs2⟩, hd3, hs3, hdot⟩ :=
    s.parts h
  exact parse_of_conv (flagsLoop_render s.flags hflags hf1) (parseNumber_render s.width h1 hd2 hs2)
    (parsePrecision_render s.precision h2 hd3 hs3 hdot) hfits (parseConv_render s.conversion h3)

/-- A directive with a width or a precision that is too big is an error. -/
theorem parse_render_error (s : Spec) (h : s.body ++ t = c :: format) (hbig : s.TooBig va args) :
    ∃ d rest, parse T va c format args = .ok (d, rest, (s.numbers va args).2.2) ∧
      d.conv = .error := by
  obtain ⟨c₁, rest₁, c₂, rest₂, c₃, rest₃, h3, h2, h1, hflags, hf1, ⟨hd2, hs2⟩, hd3, hs3, hdot⟩ :=
    s.parts h
  exact ⟨_, _, parse_of_error (flagsLoop_render s.flags hflags hf1)
    (parseNumber_render s.width h1 hd2 hs2) (parsePrecision_render s.precision h2 hd3 hs3 hdot)
    hbig, rfl⟩

end Read

end Noc.Printf
