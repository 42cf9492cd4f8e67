import Noc.Printf.Format

/-! # Argument lists

The arguments of a call as a list of objects with their sizes. `argList` is what `va_arg` does with
such a list: it gives the next argument, and remembers whether every argument was asked for with the
size that it has (`Unread.matched`); C defines nothing else.

`Extends`: arguments behind those that are read make no difference. This goes from `va_arg` to the
whole of a directive (`parse_extends`). -/

namespace Noc.Printf

open Noc.Targets

/-- An argument of a call. -/
inductive Arg where
  | word32 (w : BitVec 32)
  | word64 (w : BitVec 64)
  | pointer (p : Ptr)

/-- The size of the argument on the target. -/
def Arg.size (T : Target) : Arg → ℕ
  | .word32 _ => 4
  | .word64 _ => 8
  | .pointer _ => T.ptrBytes

/-- The argument as a number. -/
def Arg.toNat : Arg → ℕ
  | .word32 w => w.toNat
  | .word64 w => w.toNat
  | .pointer p => p.addr

/-- The argument as a pointer. Nothing is known of the bytes at an address made of a number. -/
def Arg.toPtr : Arg → Ptr
  | .pointer p => p
  | a => ⟨a.toNat, []⟩

/-- The arguments that have not been read, and whether the size has been right so far. -/
structure Unread where
  args : List Arg
  matched : Bool

/-- The unread arguments at the start of a call. -/
def Unread.start (args : List Arg) : Unread := ⟨args, true⟩

/-- Ask for an object of `size` bytes. Without a next argument there is nothing that could match. -/
def Unread.ask (T : Target) (size : ℕ) (u : Unread) : Arg × Unread :=
  match u.args with
  | [] => (.word32 0, ⟨[], false⟩)
  | a :: args => (a, ⟨args, u.matched && a.size T = size⟩)

/-- `va_arg` on a list of arguments. -/
def argList (T : Target) : VaArg Unread where
  word32 u := let (a, u) := u.ask T 4; (BitVec.ofNat 32 a.toNat, u)
  word64 u := let (a, u) := u.ask T 8; (BitVec.ofNat 64 a.toNat, u)
  pointer u := let (a, u) := u.ask T T.ptrBytes; (a.toPtr, u)

/-! ### Further arguments -/

/-- The change `more` of the arguments makes no difference for what is read, as long as the
arguments stay `good`. -/
structure Extends {ν : Type} (va : VaArg ν) (good : ν → Prop) (more : ν → ν) : Prop where
  word32 : ∀ args, good (va.word32 args).2 →
    good args ∧ va.word32 (more args) = ((va.word32 args).1, more (va.word32 args).2)
  word64 : ∀ args, good (va.word64 args).2 →
    good args ∧ va.word64 (more args) = ((va.word64 args).1, more (va.word64 args).2)
  pointer : ∀ args, good (va.pointer args).2 →
    good args ∧ va.pointer (more args) = ((va.pointer args).1, more (va.pointer args).2)

/-- Further arguments behind the unread ones. -/
def Unread.more (args : List Arg) (u : Unread) : Unread := ⟨u.args ++ args, u.matched⟩

theorem Unread.ask_more {T : Target} {size : ℕ} {u : Unread} (args : List Arg)
    (h : (u.ask T size).2.matched) : u.matched ∧
      (u.more args).ask T size = ((u.ask T size).1, (u.ask T size).2.more args) := by
  obtain ⟨_ | ⟨a, as⟩, m⟩ := u
  · cases h
  · rw [Unread.ask] at h
    exact ⟨(Bool.and_eq_true_iff.mp h).1, rfl⟩

theorem argList_extends (T : Target) (args : List Arg) :
    Extends (argList T) (fun u => u.matched) (Unread.more args) where
  word32 u h := by
    obtain ⟨hm, hask⟩ := Unread.ask_more args h
    exact ⟨hm, congrArg (fun r => (BitVec.ofNat 32 r.1.toNat, r.2)) hask⟩
  word64 u h := by
    obtain ⟨hm, hask⟩ := Unread.ask_more args h
    exact ⟨hm, congrArg (fun r => (BitVec.ofNat 64 r.1.toNat, r.2)) hask⟩
  pointer u h := by
    obtain ⟨hm, hask⟩ := Unread.ask_more args h
    exact ⟨hm, congrArg (fun r => (r.1.toPtr, r.2)) hask⟩

section Directive
variable {ν : Type} {T : Target} {va : VaArg ν} {good : ν → Prop} {more : ν → ν}
variable {c c' : Byte} {format rest : List Byte} {args args' : ν} {flags flags' : Flags} {n : ℕ}

theorem parseNumber_extends (hva : Extends va good more)
    (h : parseNumber va c format args = .ok (n, c', rest, args')) (hgood : good args') :
    good args ∧ parseNumber va c format (more args) = .ok (n, c', rest, more args') := by
  unfold parseNumber at h ⊢
  by_cases hstar : c = '*'.toUInt8
  · rw [if_pos hstar] at h ⊢
    obtain ⟨⟨c₁, rest₁⟩, h1, h2⟩ := bind_eq_ok h
    cases h2
    obtain ⟨hargs, hword⟩ := hva.word32 args hgood
    rw [hword, h1]
    exact ⟨hargs, rfl⟩
  · rw [if_neg hstar] at h ⊢
    obtain ⟨⟨n₁, c₁, rest₁⟩, h1, h2⟩ := bind_eq_ok h
    cases h2
    rw [h1]
    exact ⟨hgood, rfl⟩

theorem parsePrecision_extends (hva : Extends va good more)
    (h : parsePrecision va c format args = .ok (n, c', rest, args')) (hgood : good args') :
    good args ∧ parsePrecision va c format (more args) = .ok (n, c', rest, more args') := by
  unfold parsePrecision at h ⊢
  by_cases hdot : c = '.'.toUInt8
  · rw [if_pos hdot] at h ⊢
    obtain ⟨⟨c₁, rest₁⟩, h1, h2⟩ := bind_eq_ok h
    rw [h1]
    exact parseNumber_extends hva h2 hgood
  · rw [if_neg hdot] at h ⊢
    cases h
    exact ⟨hgood, rfl⟩

theorem integerArg_extends (hva : Extends va good more)
    (hgood : good (integerArg va flags args).2) :
    good args ∧ integerArg va flags (more args) =
      ((integerArg va flags args).1, more (integerArg va flags args).2) := by
  unfold integerArg at hgood ⊢
  by_cases h64 : flags.bit64
  · rw [if_pos h64] at hgood
    rw [if_pos h64, if_pos h64]
    exact hva.word64 args hgood
  · rw [if_neg h64] at hgood
    rw [if_neg h64, if_neg h64]
    obtain ⟨hargs, hword⟩ := hva.word32 args hgood
    rw [hword]
    exact ⟨hargs, rfl⟩

theorem parseConv_extends {conv : Conv} (hva : Extends va good more)
    (h : parseConv T va flags c format args = .ok (flags', conv, rest, args'))
    (hgood : good args') : good args ∧
      parseConv T va flags c format (more args) = .ok (flags', conv, rest, more args') := by
  unfold parseConv at h ⊢
  by_cases hs : c = 's'.toUInt8
  · rw [if_pos hs] at h ⊢
    cases h
    obtain ⟨hargs, hptr⟩ := hva.pointer args hgood
    rw [hptr]
    exact ⟨hargs, rfl⟩
  by_cases hh : c = 'H'.toUInt8
  · rw [if_neg hs, if_pos hh] at h ⊢
    cases h
    obtain ⟨hargs, hptr⟩ := hva.pointer args hgood
    rw [hptr]
    exact ⟨hargs, rfl⟩
  rw [if_neg hs, if_neg hh] at h ⊢
  obtain ⟨⟨flags₁, c₁, rest₁⟩, h1, h2⟩ := bind_eq_ok h
  rw [h1, ok_bind]
  dsimp only at h2 ⊢
  by_cases hc : c₁ = 'c'.toUInt8
  · rw [if_pos hc] at h2 ⊢
    cases h2
    obtain ⟨hargs, hword⟩ := hva.word32 args hgood
    exact ⟨hargs, congrArg (fun r : BitVec 32 × ν =>
      Except.ok (flags', Conv.char (UInt8.ofNat r.1.toNat), rest, r.2)) hword⟩
  · rw [if_neg hc] at h2 ⊢
    cases h2
    obtain ⟨hargs, hint⟩ := integerArg_extends hva hgood
    rw [hint]
    exact ⟨hargs, rfl⟩

/-- **A directive** does not depend on the arguments behind its own. -/
theorem parse_extends {d : Directive} (hva : Extends va good more)
    (h : parse T va c format args = .ok (d, rest, args')) (hgood : good args') :
    good args ∧ parse T va c format (more args) = .ok (d, rest, more args') := by
  obtain ⟨flags, c₁, format₁, c₂, format₂, args₂, c₃, format₃, args₃, h1, h2, h3, h4⟩ :=
    parse_eq_ok h
  rcases h4 with ⟨hbig, hd, rfl, rfl⟩ | ⟨hbig, h4⟩
  · obtain ⟨hargs₂, h3'⟩ := parsePrecision_extends hva h3 hgood
    obtain ⟨hargs, h2'⟩ := parseNumber_extends hva h2 hargs₂
    rw [hd]
    exact ⟨hargs, parse_of_error h1 h2' h3' hbig⟩
  · obtain ⟨hargs₃, h4'⟩ := parseConv_extends hva h4 hgood
    obtain ⟨hargs₂, h3'⟩ := parsePrecision_extends hva h3 hargs₃
    obtain ⟨hargs, h2'⟩ := parseNumber_extends hva h2 hargs₂
    exact ⟨hargs, parse_of_conv h1 h2' h3' hbig h4'⟩

end Directive

end Noc.Printf
