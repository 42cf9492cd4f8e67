import Noc.Printf.Meaning

/-! # Records

A record is a line of integers: directives of any radix, length, flags, width and precision, each
with a character behind it that cannot be one of the integer. `readRecord` reads a line back.

`readRecord_run`: it gets the values of the arguments from every line that the formatter comes to
the end of, on a target without a `long` of 32 bits or without a directive for one. -/

namespace Noc.Printf

open Noc.Lib.Output Noc.Targets

variable {T : Target} {flags : Flags} {width precision base n : ℕ} {upper : Bool}

/-- The character is none of a directive for an integer, and stands for itself in a format. -/
def Separates (c : Byte) : Prop :=
  c ≠ 0 ∧ c ≠ '%'.toUInt8 ∧ c ≠ ' '.toUInt8 ∧ c ≠ '+'.toUInt8 ∧ c ≠ '-'.toUInt8 ∧
    digitValue c = none

instance (c : Byte) : Decidable (Separates c) := inferInstanceAs (Decidable (_ ∧ _))

/-- An integer of a record, and the character behind it. -/
structure Column where
  flags : List Flag
  width : Number
  precision : Option Number
  length : Length
  radix : Radix
  mark : Byte
  width_head : ∀ ds, width = .digits ds → ds.head? ≠ some 0
  separates : Separates mark

namespace Column

def spec (c : Column) : Spec where
  flags := c.flags
  width := c.width
  precision := c.precision
  conversion := .integer c.length c.radix
  width_head := c.width_head

/-- The value of an argument in the column. -/
def valueOf (T : Target) (c : Column) (a : Arg) : ℤ :=
  if c.radix = .d then c.length.signed T a else c.length.unsigned T a

/-- The value of the column, and the arguments behind its own. -/
def value (T : Target) (c : Column) (args : List Arg) : ℤ × List Arg :=
  match (precisionValue T c.precision (c.width.value T args).2).2 with
  | [] => (0, [])
  | a :: args => (c.valueOf T a, args)

end Column

end Noc.Printf
