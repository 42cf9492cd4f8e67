import Noc.Lib.Output
import Noc.Support.Umoddiv
import Noc.Targets
import Mathlib.Data.Nat.Notation

/-! # `printf.c`: the formatter

`formatter` and the functions it calls. Every place where the source writes a character is
`if (!write(state, c)) return EOF; count++;`, so what the formatter does is an `Emission`: the
characters it emits in turn, and how it ends, which `formatter` gives to the caller's `write`. An
early `return EOF` is the end `stop`. A fault is a step that C does not define: a read behind the
bytes that belong to the format or to a string argument, a store outside the array `digits`, a
division by zero, a count above `INT_MAX`.

A string is the list of the bytes that can be read from a pointer on. What `va_arg` gives is a
parameter: `VaArg` has a function for each type the formatter asks for. A directive is read first
(`parse`), with its arguments, and then carried out (`convert`); in the source, too, nothing is
written before the whole directive is read. -/

namespace Noc.Printf

open Noc.Lib.Output Noc.Lib.Output.Emission Noc.Targets Noc.Support.Umoddiv

/-! ### Strings and arguments -/

/-- A `char`. -/
abbrev Byte : Type := UInt8

/-- What C does not define. -/
inductive Fault where
  | format
  | string
  | digits
  | division
  | overflow
  | fuel
deriving DecidableEq, Repr

/-- A pointer to characters: the address, and the bytes that can be read from there. -/
structure Ptr where
  addr : ℕ
  bytes : List Byte

/-- The characters of a Lean string, with the terminating NUL. -/
def cstr (s : String) : List Byte := s.toList.map Char.toUInt8 ++ [0]

/-- `va_arg`, for each type that the formatter asks for. -/
structure VaArg (ν : Type) where
  /-- an `int` or a `uint32_t` -/
  word32 : ν → BitVec 32 × ν
  /-- a `uint64_t` -/
  word64 : ν → BitVec 64 × ν
  /-- a `char *` -/
  pointer : ν → Ptr × ν

/-- `EOF` -/
def EOF : ℤ := -1

/-- `INT_MAX` -/
def intMax : ℕ := 2 ^ 31 - 1

/-- `ERROR_STR` -/
def errorStr : List Byte := cstr "<ERROR>\n"

/-- `MAX_FORMAT` -/
def maxFormat : ℕ := 128

/-- `sizeof(digits)` -/
def digitsSize : ℕ := 68

/-- The next character of the format: `*format++`. -/
def next : List Byte → Except Fault (Byte × List Byte)
  | [] => .error .format
  | c :: format => .ok (c, format)

/-- `isdigit` -/
def isdigit (c : Byte) : Bool := '0'.toUInt8 ≤ c ∧ c ≤ '9'.toUInt8

/-- `strlen` -/
def strlen : List Byte → Except Fault ℕ
  | [] => .error .string
  | c :: s => if c = 0 then .ok 0 else (strlen s).map (· + 1)

variable {ν σ : Type} (T : Target) (va : VaArg ν)

/-! ### Digits -/

/-- `umoddiv32` of `common.h` or of `umoddiv.c`: the remainder and the quotient. -/
def umoddiv32 (n d : ℕ) : Except Fault (ℕ × ℕ) :=
  match if T.platform64BitDiv then umoddiv32Platform n d else Support.Umoddiv.umoddiv32 u32 n d with
  | some (q, r) => .ok (r.toNat, q.toNat)
  | none => .error .division

/-- `get_digit`: the digit in base `d` and what is left of `n`. -/
def getDigit (n d : ℕ) : Except Fault (ℕ × ℕ) :=
  match d with
  | 2 => .ok (n &&& 1, n >>> 1)
  | 8 => .ok (n &&& 7, n >>> 3)
  | 16 => .ok (n &&& 0xf, n >>> 4)
  | d => umoddiv32 T n d

/-- `char_digit` -/
def charDigit (c a : Byte) : Byte := if 9 < c then c + a - 10 else c + '0'.toUInt8

/-- `*(--value_str) = c`: the bytes of `digits` from `value_str` on. -/
def push (c : Byte) (valueStr : List Byte) : Except Fault (List Byte) :=
  if valueStr.length < digitsSize then .ok (c :: valueStr) else .error .digits

/-- The `for` loop of the integer conversion: as many digits as the precision says. -/
def precisionLoop (base : ℕ) (hex : Byte) : ℕ → ℕ → List Byte → Except Fault (ℕ × List Byte)
  | 0, v, valueStr => .ok (v, valueStr)
  | i + 1, v, valueStr => do
    let (r, v) ← getDigit T v base
    let valueStr ← push (charDigit (UInt8.ofNat r) hex) valueStr
    precisionLoop base hex i v valueStr

/-- The `while (v)` loop of the integer conversion. -/
def valueLoop (base : ℕ) (hex : Byte) : ℕ → ℕ → List Byte → Except Fault (List Byte)
  | 0, _, _ => .error .fuel
  | fuel + 1, v, valueStr =>
    if v = 0 then .ok valueStr
    else do
      let (r, v) ← getDigit T v base
      let valueStr ← push (charDigit (UInt8.ofNat r) hex) valueStr
      valueLoop base hex fuel v valueStr

/-- The integer conversion: the text in `digits`, from its first character to the NUL at the end of
the array. A 64-bit value has at most 64 digits. -/
def integerText (base : ℕ) (hex sign : Byte) (precision v : ℕ) : Except Fault (List Byte) := do
  let valueStr := [0]
  let (v, valueStr) ← precisionLoop T base hex precision v valueStr
  let valueStr ← if precision = 0 ∧ v = 0 then push '0'.toUInt8 valueStr else pure valueStr
  let valueStr ← valueLoop T base hex 65 v valueStr
  if sign ≠ 0 then push sign valueStr else pure valueStr

/-! ### Reading a directive -/

/-- The flags of a directive, `struct fmt`. -/
structure Flags where
  left : Bool := false
  padZero : Bool := false
  addSign : Bool := false
  bit64 : Bool := false
  bit16 : Bool := false
  bit8 : Bool := false
  alt : Bool := false
  space : Bool := false
deriving DecidableEq, Repr

/-- The flag that the character `c` sets. -/
def Flags.set (flags : Flags) (c : Byte) : Option Flags :=
  if c = '-'.toUInt8 then some { flags with left := true }
  else if c = '+'.toUInt8 then some { flags with addSign := true }
  else if c = '0'.toUInt8 then some { flags with padZero := true }
  else if c = '#'.toUInt8 then some { flags with alt := true }
  else if c = ' '.toUInt8 then some { flags with space := true }
  else none

/-- The `do` loop over the flags. -/
def flagsLoop : Flags → Byte → List Byte → Except Fault (Flags × Byte × List Byte)
  | flags, c, [] =>
    match flags.set c with
    | some _ => .error .format
    | none => .ok (flags, c, [])
  | flags, c, c' :: format =>
    match flags.set c with
    | some flags => flagsLoop flags c' format
    | none => .ok (flags, c, c' :: format)

/-- The `while` loop over the digits of a width or a precision. -/
def numberLoop : ℕ → Byte → List Byte → Except Fault (ℕ × Byte × List Byte)
  | n, c, [] => if isdigit c then .error .format else .ok (n, c, [])
  | n, c, c' :: format =>
    if isdigit c then numberLoop ((10 * n + (c.toNat - '0'.toNat)) % 2 ^ 32) c' format
    else .ok (n, c, c' :: format)

/-- A width or a precision: `*` or digits. -/
def parseNumber (c : Byte) (format : List Byte) (args : ν) :
    Except Fault (ℕ × Byte × List Byte × ν) :=
  if c = '*'.toUInt8 then do
    let (p, args) := va.word32 args
    let (c, format) ← next format
    pure (if p.toInt < 0 then 0 else p.toNat, c, format, args)
  else do
    let (n, c, format) ← numberLoop 0 c format
    pure (n, c, format, args)

/-- The length modifier. For `p` it stays at the character. -/
def lengthModifier (flags : Flags) (c : Byte) (format : List Byte) :
    Except Fault (Flags × Byte × List Byte) :=
  if c = 'h'.toUInt8 then do
    let (c, format) ← next format
    if c = 'h'.toUInt8 then do
      let (c, format) ← next format
      pure ({ flags with bit8 := true }, c, format)
    else pure ({ flags with bit16 := true }, c, format)
  else if c = 'l'.toUInt8 then do
    let flags := { flags with bit64 := true }
    let (c, format) ← next format
    if c = 'l'.toUInt8 then do
      let (c, format) ← next format
      pure (flags, c, format)
    else pure (flags, c, format)
  else if c = 'z'.toUInt8 ∨ c = 't'.toUInt8 then do
    -- the size of a `size_t` or a `ptrdiff_t`
    let flags := if T.ptrBytes = 8 then { flags with bit64 := true } else flags
    let (c, format) ← next format
    pure (flags, c, format)
  else if c = 'p'.toUInt8 then
    let flags := if T.ptrBytes = 8 then { flags with bit64 := true } else flags
    pure ({ flags with padZero := true }, c, format)
  else if c = 'j'.toUInt8 then do
    -- `intmax_t` has 64 bits on every target
    let flags := { flags with bit64 := true }
    let (c, format) ← next format
    pure (flags, c, format)
  else pure (flags, c, format)

/-- What a directive converts: an error in the directive, a string, an array to dump, a character,
or an integer under a conversion character. -/
inductive Conv where
  | error
  | string (p : Ptr)
  | dump (p : Ptr)
  | char (c : Byte)
  | integer (c : Byte) (v : BitVec 64)

/-- A directive with its arguments. -/
structure Directive where
  flags : Flags
  padWidth : ℕ
  precision : ℕ
  conv : Conv

/-- The argument of an integer conversion. -/
def integerArg (flags : Flags) (args : ν) : BitVec 64 × ν :=
  if flags.bit64 then va.word64 args
  else
    let (w, args) := va.word32 args
    let v := w.setWidth 64
    let v := if flags.bit16 then v &&& 0xffff else v
    let v := if flags.bit8 then v &&& 0xff else v
    (v, args)

/-- The precision, if there is one. -/
def parsePrecision (c : Byte) (format : List Byte) (args : ν) :
    Except Fault (ℕ × Byte × List Byte × ν) :=
  if c = '.'.toUInt8 then do
    let (c, format) ← next format
    parseNumber va c format args
  else .ok (0, c, format, args)

/-- The length modifier and the conversion character, with the argument. -/
def parseConv (flags : Flags) (c : Byte) (format : List Byte) (args : ν) :
    Except Fault (Flags × Conv × List Byte × ν) :=
  if c = 's'.toUInt8 then
    let (p, args) := va.pointer args
    .ok (flags, .string p, format, args)
  else if c = 'H'.toUInt8 then
    let (p, args) := va.pointer args
    .ok (flags, .dump p, format, args)
  else do
    let (flags, c, format) ← lengthModifier T flags c format
    if c = 'c'.toUInt8 then
      let (w, args) := va.word32 args
      pure (flags, .char (UInt8.ofNat w.toNat), format, args)
    else
      let (v, args) := integerArg va flags args
      pure (flags, .integer c v, format, args)

/-- Read a directive from the character `c` behind the `%`. -/
def parse (c : Byte) (format : List Byte) (args : ν) :
    Except Fault (Directive × List Byte × ν) := do
  let (flags, c, format) ← flagsLoop {} c format
  let (padWidth, c, format, args) ← parseNumber va c format args
  let (precision, c, format, args) ← parsePrecision va c format args
  if maxFormat < padWidth ∨ maxFormat < precision then
    pure (⟨flags, padWidth, precision, .error⟩, format, args)
  else do
    let (flags, conv, format, args) ← parseConv T va flags c format args
    pure (⟨flags, padWidth, precision, conv⟩, format, args)

/-! ### Carrying out a directive -/

/-- What the formatter emits, and how it ends. -/
abbrev Output (α : Type) : Type := Emission Byte Fault α

/-- The sign and the magnitude of a value at its size. The source does not negate the smallest
values of 64 and 32 bits, and looks at the flag `+` for these sizes only. -/
def signExtend (flags : Flags) (v : ℕ) : Byte × ℕ :=
  if flags.bit16 then
    if 2 ^ 15 ≤ v then ('-'.toUInt8, 2 ^ 16 - v) else (0, v)
  else if flags.bit8 then
    if 2 ^ 7 ≤ v then ('-'.toUInt8, 2 ^ 8 - v) else (0, v)
  else if flags.bit64 then
    if 2 ^ 63 ≤ v then ('-'.toUInt8, if v ≠ 2 ^ 63 then 2 ^ 64 - v else v)
    else (if flags.addSign then '+'.toUInt8 else 0, v)
  else
    if 2 ^ 31 ≤ v then ('-'.toUInt8, if v ≠ 2 ^ 31 then 2 ^ 32 - v else v)
    else (if flags.addSign then '+'.toUInt8 else 0, v)

/-- The sign and the magnitude for `%d`. -/
def signed (flags : Flags) (v : ℕ) : Byte × ℕ :=
  let (sign, v) := signExtend flags v
  (if sign = 0 ∧ flags.space then ' '.toUInt8 else sign, v)

/-- The `switch` on the conversion character: the base, the sign and the magnitude. -/
def conversion (flags : Flags) (c : Byte) (v : ℕ) : Output (ℕ × Byte × ℕ) :=
  if c = 'd'.toUInt8 then
    let (sign, v) := signed flags v
    pure (10, sign, v)
  else if c = 'u'.toUInt8 then pure (10, 0, v)
  else if c = 'p'.toUInt8 then do
    emit '0'.toUInt8
    emit 'x'.toUInt8
    pure (16, 0, v)
  else if c = 'X'.toUInt8 ∨ c = 'x'.toUInt8 then pure (16, 0, v)
  else if c = 'o'.toUInt8 then do
    emit '0'.toUInt8
    pure (8, 0, v)
  else if c = 'b'.toUInt8 then pure (2, 0, v)
  else stop

/-- A padding loop. -/
def padLoop (c : Byte) : ℕ → Output Unit
  | 0 => pure ()
  | n + 1 => do
    emit c
    padLoop c n

/-- The padding on one side, if it is asked for. -/
def pad (asked : Bool) (c : Byte) (n : ℕ) : Output Unit := if asked then padLoop c n else pure ()

/-- The loop `while (*value_str && precision)`. -/
def valueStrLoop : ℕ → List Byte → Output Unit
  | _, [] => fault .string
  | 0, _ :: _ => pure ()
  | precision + 1, c :: s =>
    if c = 0 then pure ()
    else do
      emit c
      valueStrLoop precision s

/-- `value_len`, after the precision has been applied. -/
def shownLen (precision valueLen : ℕ) : ℕ :=
  if precision ≠ 0 ∧ precision < valueLen then precision else valueLen

/-- The bound of the output loop. Without a precision it is the longer of text and field, stored in
a `uint32_t`. -/
def shownMax (padWidth precision valueLen : ℕ) : ℕ :=
  if precision = 0 then (if padWidth < valueLen then valueLen else padWidth) % 2 ^ 32 else precision

/-- The end of a directive: the text with its padding. -/
def output (flags : Flags) (padWidth precision : ℕ) (valueStr : List Byte) : Output Unit := do
  let valueLen ← strlen valueStr
  let valueLen := shownLen precision valueLen
  let precision := shownMax padWidth precision valueLen
  pad (!flags.left) (if flags.padZero then '0'.toUInt8 else ' '.toUInt8) (padWidth - valueLen)
  valueStrLoop precision valueStr
  pad flags.left ' '.toUInt8 (padWidth - valueLen)

/-- `(unsigned char)(c >> 4)` for a `char`. -/
def highNibble (c : Byte) : Byte := if T.charSigned then (c.toInt8 >>> 4).toUInt8 else c >>> 4

/-- The loop of `%H`. -/
def dumpLoop : ℕ → List Byte → Output Unit
  | 0, _ => pure ()
  | _ + 1, [] => fault .string
  | precision + 1, c :: s => do
    emit (charDigit (highNibble T c) 'a'.toUInt8)
    emit (charDigit (c &&& 0xf) 'a'.toUInt8)
    dumpLoop precision s

/-- Carry out a directive: whether the format goes on. Otherwise `format` is set to `ERROR_STR`. -/
def convert (d : Directive) : Output Bool :=
  match d.conv with
  | .error => pure false
  | .string p => do
    output d.flags d.padWidth d.precision (if p.addr = 0 then cstr "[null]" else p.bytes)
    pure true
  | .dump p =>
    if p.addr = 0 ∨ d.precision = 0 then pure false
    else do
      dumpLoop T d.precision p.bytes
      pure true
  | .char c => do
    emit c
    pure true
  | .integer c v => do
    let (base, sign, v) ← conversion d.flags c v.toNat
    if digitsSize - 1 < d.precision then pure false
    else do
      let hex :=
        if c = 'X'.toUInt8 ∨ c = 'p'.toUInt8 ∨ d.flags.alt then 'A'.toUInt8 else 'a'.toUInt8
      let valueStr ← integerText T base hex sign d.precision v
      output d.flags d.padWidth 0 valueStr
      pure true

/-! ### `formatter` -/

/-- The loop over the format. -/
def formatLoop : ℕ → List Byte → ν → Output Unit
  | 0, _, _ => fault .fuel
  | fuel + 1, format, args => do
    let (c, format) ← next format
    if c = 0 then pure ()
    else if c ≠ '%'.toUInt8 then do
      emit c
      formatLoop fuel format args
    else do
      let (c, format) ← next format
      if c = '%'.toUInt8 then do
        emit c
        formatLoop fuel format args
      else if c = 0 then formatLoop fuel errorStr args
      else do
        let (d, format, args) ← parse T va c format args
        if ← convert T d then formatLoop fuel format args
        else formatLoop fuel errorStr args

/-- All that the formatter emits. Every round of the loop takes a character, of the format or of
`ERROR_STR`. -/
def formatted (format : List Byte) (args : ν) : Output Unit :=
  formatLoop T va (format.length + errorStr.length + 1) format args

/-- `formatter`: the result and the state of `write`. -/
def formatter (write : Byte → σ → Bool × σ) (state : σ) (format : Ptr) (args : ν) :
    Except Fault (ℤ × σ) :=
  if format.addr = 0 then .ok (EOF, state)
  else
    let out := formatted T va format.bytes args
    let (accepted, count, state) := deliver write out.text 0 state
    if accepted then
      match out.ending with
      | .fault f => .error f
      | .stop => if intMax < count then .error .overflow else .ok (EOF, state)
      | .value () => if intMax < count then .error .overflow else .ok (count, state)
    else if intMax < count then .error .overflow else .ok (EOF, state)

end Noc.Printf
