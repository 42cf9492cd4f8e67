import Noc.Targets

/-! # `strmem.c`

`memchr` and `memrchr` as the source computes them. They compare a plain `char`, which the target
may take as signed, with the `int` they search for, and never look at the last address.

* `memchrLoop_first`, `memrchrLoop_last`: the loops find the first and the last match.
* `memchr_iff`: the answers are those for `c` converted to `unsigned char` exactly if the bytes that
  match are equal to `c` as a `char`, too, and not at the last address. -/

namespace Noc.Strmem

open Noc.Lib.Bytes Noc.Targets

/-! ### The functions of the source -/

/-- A plain `char` in an expression. -/
def charInt (T : Target) (b : UInt8) : ℤ := if T.charSigned then b.toInt8.toInt else b.toNat

/-- The loop of `memchr` over `n` bytes from `current` on. -/
def memchrLoop (T : Target) (m : Mem) (c : ℤ) (current : ℕ) : ℕ → Option ℕ
  | 0 => none
  | n + 1 => if charInt T (m current) = c then some current else memchrLoop T m c (current + 1) n

/-- The loop of `memrchr` over `n` bytes from `start` on, the last one first. -/
def memrchrLoop (T : Target) (m : Mem) (c : ℤ) (start : ℕ) : ℕ → Option ℕ
  | 0 => none
  | n + 1 =>
    let current := start + n
    if charInt T (m current) = c then some current else memrchrLoop T m c start n

/-- `PLATFORM_MAX_ADDR`, which is `UINTPTR_MAX` if no platform says otherwise. -/
def platformMaxAddr (T : Target) : ℕ := T.space - 1

/-- `memchr`; `none` is `NULL`. -/
def memchr (T : Target) (m : Mem) (buffer : ℕ) (c : ℤ) (n : ℕ) : Option ℕ :=
  let n := min n (platformMaxAddr T - buffer)
  memchrLoop T m c buffer n

/-- `memrchr`; `none` is `NULL`. -/
def memrchr (T : Target) (m : Mem) (buffer : ℕ) (c : ℤ) (n : ℕ) : Option ℕ :=
  let n := min n (platformMaxAddr T - buffer)
  memrchrLoop T m c buffer n

variable {T : Target} {m : Mem} {c : ℤ} {a n k : ℕ} {p q : ℕ → Prop}

/-! ### First and last matches -/

/-- The first place with `p` among `n` places from `a` on, or none. -/
def First (p : ℕ → Prop) (a n : ℕ) : Option ℕ → Prop
  | some x => ∃ i < n, x = a + i ∧ p (a + i) ∧ ∀ j < i, ¬ p (a + j)
  | none => ∀ i < n, ¬ p (a + i)

/-- The last place with `p` among `n` places from `a` on, or none. -/
def Last (p : ℕ → Prop) (a n : ℕ) : Option ℕ → Prop
  | some x => ∃ i < n, x = a + i ∧ p (a + i) ∧ ∀ j < n, i < j → ¬ p (a + j)
  | none => ∀ i < n, ¬ p (a + i)

theorem memchrLoop_first (T : Target) (m : Mem) (c : ℤ) (a n : ℕ) :
    First (fun x => charInt T (m x) = c) a n (memchrLoop T m c a n) := by
  induction n generalizing a with
  | zero => exact fun i hi => absurd hi (Nat.not_lt_zero i)
  | succ n ih =>
    rw [memchrLoop]
    split_ifs with h
    · exact ⟨0, Nat.succ_pos n, rfl, h, fun j hj => absurd hj (Nat.not_lt_zero j)⟩
    have ih := ih (a + 1)
    have hnext : ∀ i, a + (i + 1) = a + 1 + i := fun i => by omega
    rcases hr : memchrLoop T m c (a + 1) n with _ | x
    · rw [hr] at ih
      rintro (_ | i) hi
      · exact h
      · rw [hnext]
        exact ih i (by omega)
    · rw [hr] at ih
      obtain ⟨i, hi, hx, hp, hmin⟩ := ih
      refine ⟨i + 1, by omega, by omega, by rwa [hnext], ?_⟩
      rintro (_ | j) hj
      · exact h
      · rw [hnext]
        exact hmin j (by omega)

theorem memrchrLoop_last (T : Target) (m : Mem) (c : ℤ) (a n : ℕ) :
    Last (fun x => charInt T (m x) = c) a n (memrchrLoop T m c a n) := by
  induction n with
  | zero => exact fun i hi => absurd hi (Nat.not_lt_zero i)
  | succ n ih =>
    rw [memrchrLoop]
    split_ifs with h
    · exact ⟨n, Nat.lt_succ_self n, rfl, h, fun j hj hlt => absurd hlt (by omega)⟩
    have hlast : ∀ {i}, i < n + 1 → ¬ i < n → i = n := fun hi hn => by omega
    rcases hr : memrchrLoop T m c a n with _ | x
    · rw [hr] at ih
      intro i hi
      by_cases hin : i < n
      · exact ih i hin
      · rwa [hlast hi hin]
    · rw [hr] at ih
      obtain ⟨i, hi, hx, hp, hmax⟩ := ih
      refine ⟨i, by omega, hx, hp, fun j hj hij => ?_⟩
      by_cases hjn : j < n
      · exact hmax j hjn hij
      · rwa [hlast hj hjn]

/-- A match that is never the last of more places is one of fewer. -/
theorem First.congr {r : Option ℕ} (h : First p a k r) (hk : k ≤ n) (hpq : ∀ x, p x → q x)
    (hqp : ∀ i < n, q (a + i) → i < k ∧ p (a + i)) : First q a n r := by
  cases r with
  | none => exact fun i hi hq => h i (hqp i hi hq).1 (hqp i hi hq).2
  | some x =>
    obtain ⟨i, hi, hx, hp, hmin⟩ := h
    exact ⟨i, by omega, hx, hpq _ hp, fun j hj hq => hmin j hj (hqp j (by omega) hq).2⟩

theorem Last.congr {r : Option ℕ} (h : Last p a k r) (hk : k ≤ n) (hpq : ∀ x, p x → q x)
    (hqp : ∀ i < n, q (a + i) → i < k ∧ p (a + i)) : Last q a n r := by
  cases r with
  | none => exact fun i hi hq => h i (hqp i hi hq).1 (hqp i hi hq).2
  | some x =>
    obtain ⟨i, hi, hx, hp, hmax⟩ := h
    refine ⟨i, by omega, hx, hpq _ hp, fun j hj hij hq => ?_⟩
    exact hmax j (hqp j hj hq).1 hij (hqp j hj hq).2

theorem First.unique {r r' : Option ℕ} (h : First p a n r) (h' : First p a n r') : r = r' := by
  rcases r with _ | x <;> rcases r' with _ | x'
  · rfl
  · obtain ⟨i, hi, -, hp, -⟩ := h'
    exact absurd hp (h i hi)
  · obtain ⟨i, hi, -, hp, -⟩ := h
    exact absurd hp (h' i hi)
  · obtain ⟨i, hi, rfl, hp, hmin⟩ := h
    obtain ⟨i', hi', rfl, hp', hmin'⟩ := h'
    rcases Nat.lt_trichotomy i i' with hlt | rfl | hlt
    · exact absurd hp (hmin' i hlt)
    · rfl
    · exact absurd hp' (hmin i' hlt)

theorem Last.unique {r r' : Option ℕ} (h : Last p a n r) (h' : Last p a n r') : r = r' := by
  rcases r with _ | x <;> rcases r' with _ | x'
  · rfl
  · obtain ⟨i, hi, -, hp, -⟩ := h'
    exact absurd hp (h i hi)
  · obtain ⟨i, hi, -, hp, -⟩ := h
    exact absurd hp (h' i hi)
  · obtain ⟨i, hi, rfl, hp, hmax⟩ := h
    obtain ⟨i', hi', rfl, hp', hmax'⟩ := h'
    rcases Nat.lt_trichotomy i i' with hlt | rfl | hlt
    · exact absurd hp' (hmax i' hi' hlt)
    · rfl
    · exact absurd hp (hmax' i hi hlt)

/-! ### Characters -/

/-- `(unsigned char)c` -/
def toUChar (c : ℤ) : UInt8 := UInt8.ofNat (c % 256).toNat

/-- The values of a plain `char`. -/
def IsChar (T : Target) (c : ℤ) : Prop :=
  if T.charSigned then -128 ≤ c ∧ c ≤ 127 else 0 ≤ c ∧ c ≤ 255

theorem toInt_toInt8 (b : UInt8) :
    b.toInt8.toInt = if b.toNat < 128 then (b.toNat : ℤ) else b.toNat - 256 := by
  show b.toBitVec.toInt = _
  rw [BitVec.toInt_eq_toNat_cond]
  show (if 2 * b.toNat < 2 ^ 8 then (b.toNat : ℤ) else (b.toNat : ℤ) - 2 ^ 8) = _
  split_ifs <;> omega

theorem toNat_toUChar (c : ℤ) : ((toUChar c).toNat : ℤ) = c % 256 := by
  rw [toUChar, UInt8.toNat_ofNat']
  omega

theorem isChar_charInt (b : UInt8) : IsChar T (charInt T b) := by
  have hb := b.toNat_lt
  unfold IsChar charInt
  rw [toInt_toInt8]
  split_ifs <;> omega

/-- A `char` is what it is made of. -/
theorem toUChar_charInt (b : UInt8) : toUChar (charInt T b) = b := by
  have hb := b.toNat_lt
  have h := toNat_toUChar (charInt T b)
  refine UInt8.toNat_inj.mp ?_
  unfold charInt at h ⊢
  rw [toInt_toInt8] at h ⊢
  split_ifs at h ⊢ <;> omega

theorem charInt_toUChar (h : IsChar T c) : charInt T (toUChar c) = c := by
  have hc := toNat_toUChar c
  unfold IsChar at h
  unfold charInt
  rw [toInt_toInt8]
  split_ifs at h ⊢ <;> omega

/-! ### The answers -/

/-- Both functions answer for `c` converted to `unsigned char`. -/
structure Right (T : Target) (m : Mem) (buffer : ℕ) (c : ℤ) (n : ℕ) : Prop where
  first : First (fun x => m x = toUChar c) buffer n (memchr T m buffer c n)
  last : Last (fun x => m x = toUChar c) buffer n (memrchr T m buffer c n)

/-- Every byte that matches is equal to `c` as a `char`, and not at the last address. -/
def Seen (T : Target) (m : Mem) (buffer : ℕ) (c : ℤ) (n : ℕ) : Prop :=
  ∀ i < n, m (buffer + i) = toUChar c → IsChar T c ∧ buffer + i < platformMaxAddr T

/-- One target: the answers are right if all matches are seen. -/
theorem right_iff : Right T m a c n ↔ Seen T m a c n := by
  have hfirst := memchrLoop_first T m c a (min n (platformMaxAddr T - a))
  have hlast := memrchrLoop_last T m c a (min n (platformMaxAddr T - a))
  have hpq : ∀ x, charInt T (m x) = c → m x = toUChar c := by
    intro x h
    rw [← h, toUChar_charInt]
  constructor
  · rintro ⟨hf, hl⟩ i hi hm
    constructor
    · change First _ a _ (memchr T m a c n) at hfirst
      rcases hr : memchr T m a c n with _ | x
      · rw [hr] at hf
        exact absurd hm (hf i hi)
      · rw [hr] at hfirst
        obtain ⟨j, -, -, hj, -⟩ := hfirst
        rw [← hj]
        exact isChar_charInt _
    · change Last _ a _ (memrchr T m a c n) at hlast
      rcases hr : memrchr T m a c n with _ | x
      · rw [hr] at hl
        exact absurd hm (hl i hi)
      · rw [hr] at hl hlast
        obtain ⟨j, hj, hx, -, hmax⟩ := hl
        obtain ⟨j', hj', hx', -, -⟩ := hlast
        have hij : ¬ j < i := fun hij => hmax i hi hij hm
        omega
  · intro h
    have hqp : ∀ i < n, m (a + i) = toUChar c →
        i < min n (platformMaxAddr T - a) ∧ charInt T (m (a + i)) = c := by
      intro i hi hm
      obtain ⟨hchar, hlt⟩ := h i hi hm
      exact ⟨by omega, by rw [hm, charInt_toUChar hchar]⟩
    exact ⟨hfirst.congr (Nat.min_le_left _ _) hpq hqp, hlast.congr (Nat.min_le_left _ _) hpq hqp⟩

/-- The target with the other choice for plain `char`. -/
def withChar (T : Target) (signed : Bool) : Target := { T with charSigned := signed }

/-- The answers do not depend on whether plain `char` is signed. -/
def SameAnswers (T : Target) (m : Mem) (buffer : ℕ) (c : ℤ) (n : ℕ) : Prop :=
  memchr (withChar T true) m buffer c n = memchr (withChar T false) m buffer c n ∧
    memrchr (withChar T true) m buffer c n = memrchr (withChar T false) m buffer c n

/-- The answers are right for both kinds of `char`. -/
theorem right_and_same_iff : Right T m a c n ∧ SameAnswers T m a c n ↔
    Right (withChar T true) m a c n ∧ Right (withChar T false) m a c n := by
  have hself : withChar T T.charSigned = T := rfl
  constructor
  · rintro ⟨hright, hchr, hrchr⟩
    cases hs : T.charSigned with
    | true =>
      rw [hs] at hself
      rw [← hself] at hright
      exact ⟨hright, ⟨hchr ▸ hright.first, hrchr ▸ hright.last⟩⟩
    | false =>
      rw [hs] at hself
      rw [← hself] at hright
      exact ⟨⟨hchr ▸ hright.first, hrchr ▸ hright.last⟩, hright⟩
  · rintro ⟨h1, h2⟩
    refine ⟨?_, h1.first.unique h2.first, h1.last.unique h2.last⟩
    rw [← hself]
    cases T.charSigned
    · exact h2
    · exact h1

/-- **When `memchr` and `memrchr` are right**: for every buffer, every `c` and either kind of plain
`char`, exactly if each byte that matches is seen. They are right and the same for both kinds
exactly if, should a byte match, `c` is a character of both kinds. -/
theorem memchr_iff (T : Target) (m : Mem) (a n : ℕ) (c : ℤ) :
    (Right T m a c n ↔ Seen T m a c n) ∧
    (Right T m a c n ∧ SameAnswers T m a c n ↔ ∀ i < n, m (a + i) = toUChar c →
      (0 ≤ c ∧ c ≤ 127) ∧ a + i < platformMaxAddr T) := by
  refine ⟨right_iff, ?_⟩
  rw [right_and_same_iff, right_iff, right_iff]
  constructor
  · rintro ⟨h1, h2⟩ i hi hm
    obtain ⟨⟨-, hle⟩, hlt⟩ := h1 i hi hm
    obtain ⟨⟨hge, -⟩, -⟩ := h2 i hi hm
    exact ⟨⟨hge, hle⟩, hlt⟩
  · intro h
    constructor
    · intro i hi hm
      obtain ⟨⟨hge, hle⟩, hlt⟩ := h i hi hm
      exact ⟨⟨by omega, hle⟩, hlt⟩
    · intro i hi hm
      obtain ⟨⟨hge, hle⟩, hlt⟩ := h i hi hm
      exact ⟨⟨hge, by omega⟩, hlt⟩

/-- On a target with a signed `char` the byte 0xff is not found, on one with an unsigned `char` it
is. -/
theorem memchr_signed :
    memchr .x8664 (fun _ => 0xff) 4096 0xff 1 = none ∧ ¬ Right .x8664 (fun _ => 0xff) 4096 0xff 1 ∧
    ¬ SameAnswers .x8664 (fun _ => 0xff) 4096 0xff 1 := by
  have hnone : memchr .x8664 (fun _ => 0xff) 4096 0xff 1 = none := by decide
  refine ⟨hnone, fun h => ?_, fun h => ?_⟩
  · have hfirst := h.first
    rw [hnone] at hfirst
    exact hfirst 0 (by decide) (by decide)
  · exact absurd h.1 (by decide)

end Noc.Strmem
