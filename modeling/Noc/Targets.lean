import Noc.Lib.Bytes
import Mathlib.Tactic.NormNum

/-! # Targets

What the sources take from the target they are compiled for: the size of a pointer (which is also
that of `size_t` and `ptrdiff_t`), the macro `MALLOC_ALIGN`, whether `ARCH_X86_64` selects the
assembler versions of the string functions, whether plain `char` is signed, and whether
`USE_PLATFORM_64BIT_DIV` selects the division of the hardware. The fields carry what the build
guarantees: the Makefile targets are 32-bit or 64-bit, and the `STATIC_ASSERT` of `malloc.c` makes
`MALLOC_ALIGN` divide the offset of `next` in `struct free_chunk`, which is the size of a `size_t`.

Addresses and values of `size_t` are numbers below `T.space`; `T.add` and `T.sub` wrap as the
machine does. -/

namespace Noc.Targets

open Noc.Lib.Bytes

/-- A target of the library. -/
structure Target where
  /-- `sizeof(void *)`, which is also `sizeof(size_t)` -/
  ptrBytes : ℕ
  /-- `MALLOC_ALIGN` -/
  mallocAlign : ℕ
  /-- `ARCH_X86_64` is defined -/
  archX8664 : Bool
  /-- plain `char` is signed -/
  charSigned : Bool
  /-- `USE_PLATFORM_64BIT_DIV` is not 0 -/
  platform64BitDiv : Bool
  ptr_cases : ptrBytes = 4 ∨ ptrBytes = 8
  align_dvd : mallocAlign ∣ ptrBytes

namespace Target

/-- x86_64, `MALLOC_ALIGN` left at its default. -/
def x8664 : Target := ⟨8, 8, true, true, true, by decide, by decide⟩

/-- riscv32, `MALLOC_ALIGN` left at its default. -/
def riscv32 : Target := ⟨4, 4, false, false, false, by decide, by decide⟩

variable (T : Target)

/-- `MALLOC_ALIGN` has its default, `sizeof(void *)`. -/
def DefaultAlign : Prop := T.mallocAlign = T.ptrBytes

instance : Decidable T.DefaultAlign := inferInstanceAs (Decidable (_ = _))

/-- The number of addresses. -/
def space : ℕ := 256 ^ T.ptrBytes

/-- `SIZE_MAX` -/
def sizeMax : ℕ := T.space - 1

/-- `INTPTR_MAX` -/
def intptrMax : ℕ := T.space / 2 - 1

/-- `SBRK_FAILURE`, that is `(void *)-1` -/
def sbrkFailure : ℕ := T.space - 1

/-- Addition of addresses or sizes. -/
def add (a b : ℕ) : ℕ := (a + b) % T.space

/-- Subtraction of addresses or sizes. -/
def sub (a b : ℕ) : ℕ := (a + (T.space - b)) % T.space

/-- `(intptr_t)a` -/
def toIntptr (a : ℕ) : ℤ := if a ≤ T.intptrMax then a else a - T.space

/-- The pointer or `size_t` stored at `a`. -/
def load (m : Mem) (a : ℕ) : ℕ := m.load a T.ptrBytes

/-- A pointer or `size_t` stored at `a`. -/
def store (m : Mem) (a v : ℕ) : Mem := m.store a T.ptrBytes v

variable {T}

theorem ptrBytes_bounds : 4 ≤ T.ptrBytes ∧ T.ptrBytes ≤ 8 := by
  rcases T.ptr_cases with h | h <;> omega

theorem align_pos : 0 < T.mallocAlign :=
  Nat.pos_of_dvd_of_pos T.align_dvd (by have := T.ptrBytes_bounds; omega)

theorem align_le : T.mallocAlign ≤ T.ptrBytes :=
  Nat.le_of_dvd (by have := T.ptrBytes_bounds; omega) T.align_dvd

theorem space_cases : T.space = 2 ^ 32 ∨ T.space = 2 ^ 64 := by
  unfold space
  rcases T.ptr_cases with h | h <;> rw [h]
  · left; norm_num
  · right; norm_num

theorem ptrBytes_dvd_space : T.ptrBytes ∣ T.space := by
  unfold space
  rcases T.ptr_cases with h | h <;> rw [h] <;> norm_num

theorem align_dvd_space : T.mallocAlign ∣ T.space := T.align_dvd.trans ptrBytes_dvd_space

/-- The sizes a proof about addresses needs: a word is small beside the address space. -/
theorem space_bounds : 2 ^ 32 ≤ T.space ∧ 2 * T.intptrMax + 2 = T.space := by
  unfold intptrMax
  rcases T.space_cases with h | h <;> rw [h] <;> omega

theorem add_of_lt {a b : ℕ} (h : a + b < T.space) : T.add a b = a + b := Nat.mod_eq_of_lt h

theorem sub_of_le {a b : ℕ} (h : b ≤ a) (ha : a < T.space) : T.sub a b = a - b := by
  unfold sub
  rw [show a + (T.space - b) = (a - b) + T.space by omega, Nat.add_mod_right,
    Nat.mod_eq_of_lt (by omega)]

theorem load_lt (m : Mem) (a : ℕ) : T.load m a < T.space := Mem.load_lt m a _

theorem load_store {m : Mem} {a v : ℕ} (hv : v < T.space) : T.load (T.store m a v) a = v :=
  Mem.load_store hv

theorem load_store_of_disj {m : Mem} {a b v : ℕ} (h : b + T.ptrBytes ≤ a ∨ a + T.ptrBytes ≤ b) :
    T.load (T.store m a v) b = T.load m b := Mem.load_store_of_disj h

theorem load_congr {m m' : Mem} {a : ℕ} (h : ∀ x, a ≤ x → x < a + T.ptrBytes → m' x = m x) :
    T.load m' a = T.load m a := Mem.load_congr h

theorem store_of_notMem {m : Mem} {a v x : ℕ} (h : x < a ∨ a + T.ptrBytes ≤ x) :
    T.store m a v x = m x := Mem.store_of_notMem h

end Target

end Noc.Targets
