import Noc.Targets
import Mathlib.Tactic.SplitIfs

/-! # The `sbrk` of the environment

`unistd.h` leaves `sbrk` to the platform. Here it is a parameter: a function of a state `ε` of
everything outside the library, together with the break in each state (which only the contract
mentions). `Contract` is what the header promises the allocator: a call fails, returning
`(void *)-1`, or returns the break and raises it by the increment. Between two calls other users may
raise the break, so the break a call returns may be above the one the last call left.

`arena` is an environment that meets the contract and has no other users. -/

namespace Noc.Unistd

open Noc.Targets

/-- An environment with an `sbrk`. -/
structure Sbrk (ε : Type) where
  /-- `sbrk(incr)`: the pointer it returns and the new state -/
  call : ε → ℤ → ℕ × ε
  /-- the break -/
  brk : ε → ℕ

variable {ε : Type}

/-- **The contract of `unistd.h`** for increments that are not negative: a call fails, or hands out
the region that starts at the break and ends at the new one. A region does not contain `NULL`, and
the break is an address that `sbrk(0)` can report: `(void *)-1` means failure. -/
structure Contract (T : Target) (S : Sbrk ε) : Prop where
  brk_lt : ∀ e, S.brk e < T.sbrkFailure
  call_cases : ∀ e (incr : ℕ), incr ≤ T.intptrMax →
    ((S.call e incr).1 = T.sbrkFailure ∧ S.brk e ≤ S.brk (S.call e incr).2) ∨
    (0 < (S.call e incr).1 ∧ S.brk e ≤ (S.call e incr).1 ∧
      S.brk (S.call e incr).2 = (S.call e incr).1 + incr)

/-- Nobody else moves the break: it is where the last call left it. -/
def Exclusive (T : Target) (S : Sbrk ε) : Prop :=
  ∀ e (incr : ℕ), incr ≤ T.intptrMax →
    ((S.call e incr).1 = T.sbrkFailure ∧ S.brk (S.call e incr).2 = S.brk e) ∨
    ((S.call e incr).1 = S.brk e ∧ S.brk (S.call e incr).2 = S.brk e + incr)

/-! ### An environment -/

/-- The breaks of an arena: addresses below `(void *)-1`. -/
def Break (T : Target) : Type := { b : ℕ // 0 < b ∧ b < T.sbrkFailure }

/-- A break that moves up to `limit`. -/
def arena (T : Target) (limit : ℕ) : Sbrk (Break T) where
  call e incr :=
    if h : 0 ≤ incr ∧ e.1 + incr.toNat ≤ limit ∧ e.1 + incr.toNat < T.sbrkFailure then
      (e.1, ⟨e.1 + incr.toNat, Nat.add_pos_left e.2.1 _, h.2.2⟩)
    else (T.sbrkFailure, e)
  brk e := e.1

theorem arena_cases (T : Target) (limit : ℕ) (e : Break T) (incr : ℕ) :
    (arena T limit).call e incr = (T.sbrkFailure, e) ∨
      ((arena T limit).call e incr).1 = e.1 ∧
        (arena T limit).brk ((arena T limit).call e incr).2 = e.1 + incr := by
  unfold arena
  dsimp only
  split_ifs with h
  · exact Or.inr ⟨rfl, rfl⟩
  · exact Or.inl rfl

/-- An arena meets the contract. -/
theorem arena_contract (T : Target) (limit : ℕ) : Contract T (arena T limit) where
  brk_lt e := e.2.2
  call_cases e incr _ := by
    rcases arena_cases T limit e incr with h | ⟨h1, h2⟩
    · rw [h]; exact Or.inl ⟨rfl, le_rfl⟩
    · rw [h1]; exact Or.inr ⟨e.2.1, le_rfl, h2⟩

/-- Only the allocator moves the break of an arena. -/
theorem arena_exclusive (T : Target) (limit : ℕ) : Exclusive T (arena T limit) := by
  intro e incr _
  rcases arena_cases T limit e incr with h | h
  · rw [h]; exact Or.inl ⟨rfl, rfl⟩
  · exact Or.inr h

end Noc.Unistd
