import Noc.Lib.Bytes
import Mathlib.Data.Nat.Basic

/-! # Texts that end with a NUL

`TextAt m p s`: the memory `m` has the characters `s` at `p`, none of which is a NUL, and a NUL
behind them. A text is still there if its bytes and the NUL are as before (`TextAt.congr`).

`diff s t` is the difference of the first characters at which `s` and `t` differ, where a text that
has ended counts as having a NUL. Its sign is the lexicographic order of the texts (`diff_neg_iff`,
`diff_eq_zero_iff`, `diff_swap`, `diff_trans`), and texts cut behind the end of the shorter one have
the same difference (`diff_take`). -/

namespace Noc.Lib.Text

open Noc.Lib.Bytes

/-- The text `s` and a NUL are stored at `p`; no character of `s` is a NUL. -/
def TextAt (m : Mem) : ℕ → List UInt8 → Prop
  | p, [] => m p = 0
  | p, c :: s => c ≠ 0 ∧ m p = c ∧ TextAt m (p + 1) s

variable {m m' : Mem} {a b k p : ℕ} {s t : List UInt8}

namespace TextAt

theorem nul : ∀ {p : ℕ} {s : List UInt8}, TextAt m p s → m (p + s.length) = 0
  | _, [], h => h
  | p, c :: s, ⟨_, _, h⟩ => by
    rw [List.length_cons, Nat.add_comm s.length 1, ← Nat.add_assoc]
    exact nul h

theorem ne_zero : ∀ {p i : ℕ} {s : List UInt8}, TextAt m p s → i < s.length → m (p + i) ≠ 0
  | p, 0, c :: s, ⟨h0, hc, _⟩, _ => by
    rw [Nat.add_zero, hc]
    exact h0
  | p, i + 1, c :: s, ⟨_, _, h⟩, hi => by
    rw [Nat.add_comm i 1, ← Nat.add_assoc]
    exact ne_zero h (Nat.lt_of_succ_lt_succ hi)

theorem notMem : ∀ {p : ℕ} {s : List UInt8}, TextAt m p s → (0 : UInt8) ∉ s
  | _, [], _ => List.not_mem_nil
  | _, c :: s, ⟨h0, _, h⟩ => by
    intro hmem
    rcases List.mem_cons.mp hmem with rfl | hmem
    · exact h0 rfl
    · exact notMem h hmem

/-- A text does not depend on the bytes around it. -/
theorem congr : ∀ {p : ℕ} {s : List UInt8}, TextAt m p s →
    (∀ x, p ≤ x → x ≤ p + s.length → m' x = m x) → TextAt m' p s
  | p, [], h, heq => (heq p le_rfl le_rfl).trans h
  | p, c :: s, ⟨h0, hc, h⟩, heq => by
    refine ⟨h0, (heq p le_rfl (Nat.le_add_right _ _)).trans hc, congr h fun x h1 h2 => ?_⟩
    refine heq x (by omega) ?_
    rw [List.length_cons]
    omega

end TextAt

/-! ### The first difference -/

/-- The difference of the characters where the texts differ first, or 0. -/
def diff : List UInt8 → List UInt8 → ℤ
  | [], [] => 0
  | [], d :: _ => -d.toNat
  | c :: _, [] => c.toNat
  | c :: s, d :: t => if c = d then diff s t else c.toNat - d.toNat

theorem diff_swap : ∀ s t : List UInt8, diff t s = -diff s t
  | [], [] => rfl
  | [], d :: t => (Int.neg_neg _).symm
  | c :: s, [] => rfl
  | c :: s, d :: t => by
    rw [diff, diff]
    by_cases h : c = d
    · rw [if_pos h, if_pos h.symm]
      exact diff_swap s t
    · rw [if_neg h, if_neg (Ne.symm h)]
      omega

/-- What lies behind the end of the shorter text makes no difference. -/
theorem diff_take : ∀ {k : ℕ} {s t : List UInt8}, min s.length t.length < k →
    diff (s.take k) (t.take k) = diff s t
  | k + 1, [], [], _ => rfl
  | k + 1, [], d :: t, _ => rfl
  | k + 1, c :: s, [], _ => rfl
  | k + 1, c :: s, d :: t, h => by
    rw [List.length_cons, List.length_cons] at h
    rw [List.take_succ_cons, List.take_succ_cons, diff, diff, diff_take (by omega)]

theorem toNat_pos {c : UInt8} (h : c ≠ 0) : 0 < c.toNat :=
  Nat.pos_of_ne_zero fun h0 => h (UInt8.toNat_inj.mp h0)

/-- Texts without a difference are the same. -/
theorem diff_eq_zero_iff : ∀ {s t : List UInt8}, (0 : UInt8) ∉ s → (0 : UInt8) ∉ t →
    (diff s t = 0 ↔ s = t)
  | [], [], _, _ => iff_of_true rfl rfl
  | [], d :: t, _, ht => by
    have hd := toNat_pos (List.ne_of_not_mem_cons ht).symm
    refine iff_of_false ?_ (List.cons_ne_nil _ _).symm
    rw [diff]
    omega
  | c :: s, [], hs, _ => by
    have hc := toNat_pos (List.ne_of_not_mem_cons hs).symm
    refine iff_of_false ?_ (List.cons_ne_nil _ _)
    rw [diff]
    omega
  | c :: s, d :: t, hs, ht => by
    rw [diff]
    by_cases h : c = d
    · subst h
      rw [if_pos rfl, diff_eq_zero_iff (List.not_mem_of_not_mem_cons hs)
        (List.not_mem_of_not_mem_cons ht)]
      exact ⟨congrArg _, fun h => (List.cons.inj h).2⟩
    · rw [if_neg h]
      have hne : c.toNat ≠ d.toNat := fun h0 => h (UInt8.toNat_inj.mp h0)
      refine iff_of_false (by omega) fun h0 => h (List.cons.inj h0).1

/-- **The difference is negative for a text that comes first** in the lexicographic order. -/
theorem diff_neg_iff : ∀ {s t : List UInt8}, (0 : UInt8) ∉ s → (0 : UInt8) ∉ t →
    (diff s t < 0 ↔ s < t)
  | [], [], _, _ => iff_of_false (lt_irrefl _) (List.not_lt_nil _)
  | [], d :: t, _, ht => by
    have hd := toNat_pos (List.ne_of_not_mem_cons ht).symm
    refine iff_of_true ?_ (List.nil_lt_cons _ _)
    rw [diff]
    omega
  | c :: s, [], _, _ => by
    refine iff_of_false ?_ (List.not_lt_nil _)
    rw [diff]
    omega
  | c :: s, d :: t, hs, ht => by
    rw [diff, List.cons_lt_cons_iff, UInt8.lt_iff_toNat_lt]
    by_cases h : c = d
    · subst h
      rw [if_pos rfl, diff_neg_iff (List.not_mem_of_not_mem_cons hs)
        (List.not_mem_of_not_mem_cons ht)]
      simp
    · rw [if_neg h, or_iff_left fun h0 => h h0.1]
      omega

theorem diff_nonpos_iff (hs : (0 : UInt8) ∉ s) (ht : (0 : UInt8) ∉ t) :
    diff s t ≤ 0 ↔ s < t ∨ s = t := by
  rw [Int.le_iff_lt_or_eq, diff_neg_iff hs ht, diff_eq_zero_iff hs ht]

/-- The order is transitive, and strictly if one of the steps is. -/
theorem diff_trans {u : List UInt8} (hs : (0 : UInt8) ∉ s) (ht : (0 : UInt8) ∉ t)
    (hu : (0 : UInt8) ∉ u) : (diff s t ≤ 0 → diff t u ≤ 0 → diff s u ≤ 0) ∧
      (diff s t ≤ 0 → diff t u < 0 → diff s u < 0) ∧
      (diff s t < 0 → diff t u ≤ 0 → diff s u < 0) := by
  rw [diff_nonpos_iff hs ht, diff_nonpos_iff ht hu, diff_nonpos_iff hs hu, diff_neg_iff hs ht,
    diff_neg_iff ht hu, diff_neg_iff hs hu]
  refine ⟨?_, ?_, ?_⟩
  · rintro (h1 | rfl) (h2 | rfl)
    · exact Or.inl (List.lt_trans h1 h2)
    · exact Or.inl h1
    · exact Or.inl h2
    · exact Or.inr rfl
  · rintro (h1 | rfl) h2
    · exact List.lt_trans h1 h2
    · exact h2
  · rintro h1 (h2 | rfl)
    · exact List.lt_trans h1 h2
    · exact h1

/-! ### Differences in memory -/

/-- The first character of a text against an ended one. -/
theorem diff_nil (h : TextAt m p t) : diff [] t = -(m p).toNat := by
  cases t with
  | nil => rw [show m p = 0 from h]; rfl
  | cons d t => rw [h.2.1, diff]

/-- Two texts that start with different characters. -/
theorem diff_of_ne (hs : TextAt m a s) (ht : TextAt m b t) (h : m a ≠ m b) :
    diff (s.take (k + 1)) (t.take (k + 1)) = (m a).toNat - (m b).toNat := by
  rcases s with _ | ⟨c, s⟩ <;> rcases t with _ | ⟨d, t⟩
  · exact absurd (Eq.trans hs (Eq.symm ht)) h
  · rw [show m a = 0 from hs, ht.2.1, List.take_nil, List.take_succ_cons, diff]
    simp
  · rw [hs.2.1, show m b = 0 from ht, List.take_nil, List.take_succ_cons, diff]
    simp
  · rw [hs.2.1, ht.2.1] at h ⊢
    rw [List.take_succ_cons, List.take_succ_cons, diff, if_neg h]

end Noc.Lib.Text
