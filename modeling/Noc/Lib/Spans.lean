import Mathlib.Algebra.GroupWithZero.Nat
import Mathlib.Data.List.Pairwise
import Mathlib.Data.Finset.Card
import Mathlib.Order.Interval.Finset.Nat
import Mathlib.Tactic.SplitIfs

/-! # Spans of addresses

A span is a start and a size; it contains the addresses from `start` up to `stop`. A *separated*
list is sorted by address with a gap after every span but the last, the form in which an allocator
keeps its free memory.

* `insertJoin c l` puts `c` into a separated list, joining it with the span that ends where `c`
  starts and with the one that starts where `c` ends. What the list contains grows by `c`
  (`covered_insertJoin`), the list stays separated (`separated_insertJoin`), and a property of spans
  that joining keeps, stays true of all (`forall_insertJoin`).
* `Separated.ext`: two separated lists that contain the same addresses are equal.
* `total_eq_of_tiles`: disjoint spans that fill `[s, e)` have total size `e - s`.
* `eq_singleton_of_tiles`: a separated list that fills `[s, e)` is one span. -/

namespace Noc.Lib.Spans

/-- The addresses from `start` to `start + size`. -/
structure Span where
  start : ℕ
  size : ℕ
deriving DecidableEq, Repr

namespace Span

/-- The first address after the span. -/
def stop (c : Span) : ℕ := c.start + c.size

/-- No address is in both (for spans that are not empty). -/
def Disj (c d : Span) : Prop := c.stop ≤ d.start ∨ d.stop ≤ c.start

/-- The span from `c` through the adjacent `d`. -/
def join (c d : Span) : Span := ⟨c.start, c.size + d.size⟩

instance (c d : Span) : Decidable (c.Disj d) := inferInstanceAs (Decidable (_ ∨ _))

theorem Disj.symm {c d : Span} (h : c.Disj d) : d.Disj c := Or.symm h

instance : Std.Symm Disj := ⟨fun _ _ => Disj.symm⟩

@[simp] theorem stop_mk (a n : ℕ) : stop ⟨a, n⟩ = a + n := rfl

@[simp] theorem join_start (c d : Span) : (c.join d).start = c.start := rfl

@[simp] theorem join_size (c d : Span) : (c.join d).size = c.size + d.size := rfl

theorem join_stop {c d : Span} (h : c.stop = d.start) : (c.join d).stop = d.stop := by
  show c.start + (c.size + d.size) = d.start + d.size
  rw [← Nat.add_assoc]; exact congrArg (· + d.size) h

/-- A span disjoint from two adjacent spans is disjoint from their join. -/
theorem Disj.join {c d x : Span} (hx : 0 < x.size) (hc : c.Disj x) (hd : d.Disj x)
    (h : c.stop = d.start) : (c.join d).Disj x := by
  unfold Disj at *
  rw [join_stop h, join_start]
  unfold stop at *; omega

end Span

open Noc.Lib.Spans.Span

/-- Some span of the list contains `a`. -/
def Covered (l : List Span) (a : ℕ) : Prop := ∃ c ∈ l, c.start ≤ a ∧ a < c.stop

/-- Sorted by address, with a gap after every span but the last. -/
def Separated (l : List Span) : Prop := l.Pairwise fun c d => c.stop < d.start

/-- The sizes added up. -/
def total (l : List Span) : ℕ := (l.map Span.size).sum

instance (l : List Span) (a : ℕ) : Decidable (Covered l a) :=
  inferInstanceAs (Decidable (∃ c ∈ l, _))

instance (l : List Span) : Decidable (Separated l) :=
  inferInstanceAs (Decidable (List.Pairwise _ l))

theorem Separated.disj {l : List Span} (h : Separated l) : l.Pairwise Disj :=
  h.imp fun h => Or.inl h.le

/-- A separated list is no longer than the range its spans start in. -/
theorem Separated.length_le : ∀ {l : List Span} {b e : ℕ}, Separated l →
    (∀ c ∈ l, b ≤ c.start ∧ c.start < e) → l.length ≤ e - b
  | [], _, _, _, _ => Nat.zero_le _
  | c :: l, b, e, h, hb => by
    obtain ⟨hc, hl⟩ := List.pairwise_cons.mp h
    have h1 := hb c (by simp)
    have ih : l.length ≤ e - (b + 1) := Separated.length_le hl fun d hd => by
      have h2 := hc d hd
      have h3 := hb d (by simp [hd])
      unfold stop at h2; omega
    rw [List.length_cons]; omega

section Covered
variable {l l' : List Span} {c : Span} {a : ℕ}

@[simp] theorem not_covered_nil : ¬ Covered [] a := by rintro ⟨c, h, -⟩; cases h

@[simp] theorem covered_cons : Covered (c :: l) a ↔ (c.start ≤ a ∧ a < c.stop) ∨ Covered l a := by
  simp [Covered]

@[simp] theorem covered_append : Covered (l ++ l') a ↔ Covered l a ∨ Covered l' a := by
  simp only [Covered, List.mem_append, or_and_right, exists_or]

theorem covered_append_cons : Covered (l ++ c :: l') a ↔
    (c.start ≤ a ∧ a < c.stop) ∨ Covered (l ++ l') a := by
  rw [covered_append, covered_cons, covered_append, or_left_comm]

theorem covered_perm (h : l.Perm l') : Covered l a ↔ Covered l' a := by
  simp only [Covered, h.mem_iff]

/-- An address of `c` is not covered by spans disjoint from `c`. -/
theorem not_covered_of_disj (h : ∀ d ∈ l, d.Disj c) (h1 : c.start ≤ a) (h2 : a < c.stop) :
    ¬ Covered l a := by
  rintro ⟨d, hd, h3, h4⟩
  have := h d hd
  unfold Disj at this; omega

end Covered

theorem forall_mem_insert {P : Span → Prop} {pre post : List Span} {c : Span} (hc : P c)
    (h : ∀ d ∈ pre ++ post, P d) : ∀ d ∈ pre ++ c :: post, P d := by
  intro d hd
  simp only [List.mem_append, List.mem_cons] at hd
  rcases hd with hd | rfl | hd
  · exact h d (by simp [hd])
  · exact hc
  · exact h d (by simp [hd])

/-- A span disjoint from all others anywhere in a disjoint list. -/
theorem pairwise_disj_insert {pre post : List Span} {c : Span} (h : (pre ++ post).Pairwise Disj)
    (hc : ∀ d ∈ pre ++ post, d.Disj c) : (pre ++ c :: post).Pairwise Disj := by
  obtain ⟨h1, h2, h3⟩ := List.pairwise_append.mp h
  refine List.pairwise_append.mpr ⟨h1, List.pairwise_cons.mpr
    ⟨fun x hx => (hc x (by simp [hx])).symm, h2⟩, fun x hx y hy => ?_⟩
  rcases List.mem_cons.mp hy with rfl | hy
  · exact hc x (by simp [hx])
  · exact h3 x hx y hy

/-- The other spans of a disjoint list. -/
theorem disj_of_middle {pre post : List Span} {c : Span} (h : (pre ++ c :: post).Pairwise Disj) :
    ∀ x ∈ pre ++ post, x.Disj c := by
  obtain ⟨-, h1, h2⟩ := List.pairwise_append.mp h
  intro x hx
  rcases List.mem_append.mp hx with hx | hx
  · exact h2 x hx c (by simp)
  · exact ((List.pairwise_cons.mp h1).1 x hx).symm

/-- The second part of a span of a disjoint list in its place: the list is disjoint, also from the
first part. -/
theorem pairwise_disj_split {pre post : List Span} {c : Span} {n extra : ℕ}
    (h : (pre ++ c :: post).Pairwise Disj) (hc : c.size = n + extra) :
    (pre ++ ⟨c.start + n, extra⟩ :: post).Pairwise Disj ∧
      ∀ x ∈ pre ++ ⟨c.start + n, extra⟩ :: post, x.Disj ⟨c.start, n⟩ := by
  have hother := disj_of_middle h
  constructor
  · refine pairwise_disj_insert (h.sublist (List.Sublist.append_left (List.sublist_cons_self c post)
      pre)) fun x hx => ?_
    have := hother x hx
    simp only [Disj, stop] at this ⊢; omega
  · refine forall_mem_insert ?_ fun x hx => ?_
    · right; exact le_rfl
    · have := hother x hx
      simp only [Disj, stop] at this ⊢; omega

theorem sublist_middle (pre post : List Span) (c : Span) :
    (pre ++ post).Sublist (pre ++ c :: post) :=
  List.Sublist.append_left (List.sublist_cons_self c post) pre

/-- Joining two adjacent spans of a list keeps the list disjoint. -/
theorem pairwise_disj_join {pre post : List Span} {c d : Span} (hcd : c.stop = d.start)
    (hpos : ∀ x ∈ pre ++ post, 0 < x.size) (h : (pre ++ c :: d :: post).Pairwise Disj) :
    (pre ++ c.join d :: post).Pairwise Disj := by
  obtain ⟨h1, h2, h3⟩ := List.pairwise_append.mp h
  obtain ⟨h4, h5⟩ := List.pairwise_cons.mp h2
  obtain ⟨h6, h7⟩ := List.pairwise_cons.mp h5
  refine List.pairwise_append.mpr ⟨h1, List.pairwise_cons.mpr ⟨fun x hx => ?_, h7⟩,
    fun x hx y hy => ?_⟩
  · exact (h4 x (by simp [hx])).join (hpos x (by simp [hx])) (h6 x hx) hcd
  · rcases List.mem_cons.mp hy with rfl | hy
    · exact (Disj.join (hpos x (by simp [hx])) (h3 x hx c (by simp)).symm
        (h3 x hx d (by simp)).symm hcd).symm
    · exact h3 x hx y (by simp [hy])

/-- Spans without a common address are disjoint. -/
theorem disj_of_forall {c d : Span} (hc : 0 < c.size) (hd : 0 < d.size)
    (h : ∀ a, c.start ≤ a → a < c.stop → ¬ (d.start ≤ a ∧ a < d.stop)) : c.Disj d := by
  by_contra hn
  unfold Disj at hn
  rcases Nat.le_total c.start d.start with hle | hle
  · exact h d.start hle (by omega) ⟨le_rfl, by unfold stop; omega⟩
  · exact h c.start le_rfl (by unfold stop; omega) ⟨hle, by omega⟩

/-- A span that is covered by spans disjoint from `d` is disjoint from `d`. -/
theorem disj_of_covered {l : List Span} {c d : Span} (hc : 0 < c.size) (hd : 0 < d.size)
    (hcov : ∀ a, c.start ≤ a → a < c.stop → Covered l a) (h : ∀ x ∈ l, x.Disj d) : c.Disj d :=
  disj_of_forall hc hd fun a h1 h2 h3 => not_covered_of_disj h h3.1 h3.2 (hcov a h1 h2)

/-! ### Insertion with joining -/

/-- `c` before a list, joined with its first span if they touch. -/
def consJoin (c : Span) : List Span → List Span
  | [] => [c]
  | n :: l => if c.stop = n.start then c.join n :: l else c :: n :: l

/-- `c` put at its place in a list sorted by address, joined with its neighbours. -/
def insertJoin (c : Span) : List Span → List Span
  | [] => [c]
  | p :: l =>
    if p.start < c.start then
      if p.stop = c.start then consJoin (p.join c) l else p :: insertJoin c l
    else consJoin c (p :: l)

section Forall
variable {P : Span → Prop} (hj : ∀ c d, P c → P d → c.stop = d.start → P (c.join d))
include hj

theorem forall_consJoin {c : Span} (hc : P c) :
    ∀ {l : List Span}, (∀ x ∈ l, P x) → ∀ x ∈ consJoin c l, P x
  | [], _ => by simpa [consJoin] using hc
  | n :: l, hl => by
    obtain ⟨hn, hl⟩ := List.forall_mem_cons.mp hl
    rw [consJoin]
    split_ifs with h
    · exact List.forall_mem_cons.mpr ⟨hj c n hc hn h, hl⟩
    · exact List.forall_mem_cons.mpr ⟨hc, List.forall_mem_cons.mpr ⟨hn, hl⟩⟩

/-- A property that joining keeps holds of all spans after an insertion. -/
theorem forall_insertJoin {c : Span} (hc : P c) :
    ∀ {l : List Span}, (∀ x ∈ l, P x) → ∀ x ∈ insertJoin c l, P x
  | [], _ => by simpa [insertJoin] using hc
  | p :: l, hl => by
    obtain ⟨hp, hl'⟩ := List.forall_mem_cons.mp hl
    unfold insertJoin
    split_ifs with h1 h2
    · exact forall_consJoin hj (hj p c hp hc h2) hl'
    · exact List.forall_mem_cons.mpr ⟨hp, forall_insertJoin hc hl'⟩
    · exact forall_consJoin hj hc hl

end Forall

theorem covered_join {c d : Span} (h : c.stop = d.start) {a : ℕ} :
    ((c.join d).start ≤ a ∧ a < (c.join d).stop) ↔
      (c.start ≤ a ∧ a < c.stop) ∨ (d.start ≤ a ∧ a < d.stop) := by
  rw [join_stop h, join_start]
  unfold stop at *; omega

/-- Two spans at different places of a list, replaced by one with the addresses of both. -/
theorem covered_middle {pre post : List Span} {c d e : Span} {a : ℕ} (rest : List Span)
    (he : (e.start ≤ a ∧ a < e.stop) ↔ (d.start ≤ a ∧ a < d.stop) ∨ (c.start ≤ a ∧ a < c.stop)) :
    Covered (pre ++ d :: post ++ c :: rest) a ↔ Covered (pre ++ post ++ e :: rest) a := by
  have hp : (pre ++ d :: post ++ c :: rest).Perm (d :: c :: (pre ++ post ++ rest)) :=
    (List.perm_middle.append_right _).trans (List.perm_middle.trans
      (List.Perm.swap d c _))
  have hq : (pre ++ post ++ e :: rest).Perm (e :: (pre ++ post ++ rest)) := List.perm_middle
  rw [covered_perm hp, covered_perm hq, covered_cons, covered_cons, covered_cons, ← or_assoc, he]

/-- The spans `old` of a list, and one behind them, replaced by a span with their addresses. -/
theorem covered_replace {pre old rest : List Span} {c d : Span} {a : ℕ}
    (hc : (c.start ≤ a ∧ a < c.stop) ↔ Covered (old ++ [d]) a) :
    Covered (pre ++ c :: rest) a ↔
      Covered (pre ++ (old ++ rest)) a ∨ (d.start ≤ a ∧ a < d.stop) := by
  rw [covered_append, covered_cons, hc]
  simp only [covered_append, covered_cons, not_covered_nil, or_false]
  tauto

theorem covered_consJoin {c : Span} {a : ℕ} (l : List Span) :
    Covered (consJoin c l) a ↔ (c.start ≤ a ∧ a < c.stop) ∨ Covered l a := by
  cases l with
  | nil => simp [consJoin]
  | cons n l =>
    rw [consJoin]
    split_ifs with h
    · rw [covered_cons, covered_join h, covered_cons, or_assoc]
    · rw [covered_cons]

/-- An insertion adds exactly the addresses of the new span. -/
theorem covered_insertJoin {c : Span} {a : ℕ} : ∀ l : List Span,
    Covered (insertJoin c l) a ↔ (c.start ≤ a ∧ a < c.stop) ∨ Covered l a
  | [] => by simp [insertJoin]
  | p :: l => by
    unfold insertJoin
    split_ifs with h1 h2
    · rw [covered_consJoin, covered_join h2, covered_cons]; tauto
    · rw [covered_cons, covered_insertJoin l, covered_cons]; tauto
    · rw [covered_consJoin]

theorem separated_consJoin {c : Span} : ∀ {l : List Span}, Separated l →
    (∀ x ∈ l, c.stop ≤ x.start) → (∀ x ∈ l, 0 < x.size) → Separated (consJoin c l)
  | [], _, _, _ => by simp [consJoin, Separated]
  | n :: l, hl, hc, hpos => by
    obtain ⟨hn, hl⟩ := List.pairwise_cons.mp hl
    have hcn := hc n (by simp)
    have hn0 := hpos n (by simp)
    rw [consJoin]
    split_ifs with h
    · refine List.pairwise_cons.mpr ⟨fun x hx => ?_, hl⟩
      rw [join_stop h]; exact hn x hx
    · refine List.pairwise_cons.mpr ⟨fun x hx => ?_, List.pairwise_cons.mpr ⟨hn, hl⟩⟩
      rcases List.mem_cons.mp hx with rfl | hx
      · omega
      · have := hn x hx
        unfold stop at *; omega

/-- The list stays separated when the new span is disjoint from all others. -/
theorem separated_insertJoin {c : Span} (hc0 : 0 < c.size) : ∀ {l : List Span}, Separated l →
    (∀ x ∈ l, x.Disj c) → (∀ x ∈ l, 0 < x.size) → Separated (insertJoin c l)
  | [], _, _, _ => by simp [insertJoin, Separated]
  | p :: l, hl, hd, hpos => by
    obtain ⟨hp, hl'⟩ := List.pairwise_cons.mp hl
    have hpd := hd p (by simp)
    have hp0 := hpos p (by simp)
    have hpos' : ∀ x ∈ l, 0 < x.size := fun x hx => hpos x (by simp [hx])
    -- a later span that does not lie after `c` would have to end before it
    have hafter : p.stop = c.start ∨ c.start ≤ p.start → ∀ x ∈ l, c.stop ≤ x.start := by
      intro h x hx
      have h1 := hp x hx
      have h2 := hd x (by simp [hx])
      have h3 := hpos' x hx
      unfold Disj stop at *; omega
    unfold insertJoin
    split_ifs with h1 h2
    · refine separated_consJoin hl' (fun x hx => ?_) hpos'
      rw [join_stop h2]; exact hafter (Or.inl h2) x hx
    · refine List.pairwise_cons.mpr ⟨?_, separated_insertJoin hc0 hl'
        (fun x hx => hd x (by simp [hx])) hpos'⟩
      have hpc : p.stop < c.start := by unfold Disj stop at *; omega
      refine fun x hx => forall_insertJoin (P := fun x => p.stop < x.start) ?_ hpc hp x hx
      exact fun a b ha _ _ => ha
    · refine separated_consJoin hl (fun x hx => ?_) hpos
      rcases List.mem_cons.mp hx with rfl | hx
      · unfold Disj stop at *; omega
      · exact hafter (Or.inr (by omega)) x hx

theorem mem_consJoin {c d : Span} (h : d.stop < c.stop) : ∀ {l : List Span},
    d ∈ consJoin c l ↔ d ∈ l
  | [] => by
    rw [consJoin, List.mem_singleton]
    refine ⟨fun hd => ?_, fun hd => by cases hd⟩
    rw [hd] at h; omega
  | n :: l => by
    have hc : d ≠ c := fun hd => by rw [hd] at h; omega
    rw [consJoin]
    split_ifs with hn
    · have hj : d ≠ c.join n := by
        rintro rfl
        rw [join_stop hn] at h
        unfold stop at h hn; omega
      have hdn : d ≠ n := by
        rintro rfl
        unfold stop at h hn; omega
      simp [hj, hdn]
    · simp [hc]

/-- An insertion keeps the spans that end before the new one starts. -/
theorem mem_insertJoin {c d : Span} (h : d.stop < c.start) : ∀ {l : List Span},
    d ∈ insertJoin c l ↔ d ∈ l
  | [] => by
    rw [insertJoin, List.mem_singleton]
    refine ⟨fun hd => ?_, fun hd => by cases hd⟩
    rw [hd] at h
    unfold stop at h; omega
  | p :: l => by
    have hdc : d.stop < c.stop := by unfold stop at h ⊢; omega
    unfold insertJoin
    split_ifs with h1 h2
    · have hdp : d ≠ p := by
        rintro rfl; omega
      rw [mem_consJoin (by rw [join_stop h2]; exact hdc)]
      simp [hdp]
    · rw [List.mem_cons, List.mem_cons, mem_insertJoin h]
    · rw [mem_consJoin hdc]

/-! ### Separated lists are determined by their addresses -/

section Ext
variable {l l' : List Span} {c : Span} {a : ℕ}

/-- The first span of a separated list starts at its first address. -/
theorem Separated.start_le (h : Separated (c :: l)) (ha : Covered (c :: l) a) : c.start ≤ a := by
  rcases covered_cons.mp ha with ha | ⟨d, hd, hda, -⟩
  · exact ha.1
  · have hcd := (List.pairwise_cons.mp h).1 d hd
    unfold stop at hcd; omega

/-- The spans behind the first one have the addresses behind it. -/
theorem Separated.covered_tail (h : Separated (c :: l)) :
    Covered l a ↔ Covered (c :: l) a ∧ c.stop < a := by
  rw [covered_cons]
  constructor
  · intro ha
    obtain ⟨d, hd, hda, -⟩ := id ha
    exact ⟨Or.inr ha, ((List.pairwise_cons.mp h).1 d hd).trans_le hda⟩
  · rintro ⟨ha | ha, hlt⟩
    · omega
    · exact ha

/-- Behind the first span there is a gap. -/
theorem Separated.not_covered_stop (h : Separated (c :: l)) : ¬ Covered (c :: l) c.stop := by
  intro hs
  rcases covered_cons.mp hs with hs | hs
  · omega
  · exact absurd (h.covered_tail.mp hs).2 (lt_irrefl _)

/-- **A separated list is determined by the addresses that it contains.** -/
theorem Separated.ext : ∀ {l l' : List Span}, Separated l → Separated l' →
    (∀ c ∈ l, 0 < c.size) → (∀ c ∈ l', 0 < c.size) → (∀ a, Covered l a ↔ Covered l' a) → l = l'
  | [], [], _, _, _, _, _ => rfl
  | [], d :: l', _, _, _, hpos', hcov => by
    have hd := hpos' d (by simp)
    exact absurd ((hcov d.start).mpr ⟨d, by simp, le_rfl, by unfold stop; omega⟩) not_covered_nil
  | c :: l, [], _, _, hpos, _, hcov => by
    have hc := hpos c (by simp)
    exact absurd ((hcov c.start).mp ⟨c, by simp, le_rfl, by unfold stop; omega⟩) not_covered_nil
  | c :: l, d :: l', h, h', hpos, hpos', hcov => by
    have hc := hpos c (by simp)
    have hd := hpos' d (by simp)
    have hc0 : Covered (c :: l) c.start := ⟨c, by simp, le_rfl, by unfold stop; omega⟩
    have hd0 : Covered (d :: l') d.start := ⟨d, by simp, le_rfl, by unfold stop; omega⟩
    have hstart : c.start = d.start :=
      le_antisymm (h.start_le ((hcov _).mpr hd0)) (h'.start_le ((hcov _).mp hc0))
    -- the gap behind one of them would be inside the other
    have hstop : c.stop = d.stop := by
      rcases lt_trichotomy c.stop d.stop with hlt | heq | hlt
      · refine absurd ((hcov _).mpr ⟨d, by simp, ?_, hlt⟩) h.not_covered_stop
        unfold stop; omega
      · exact heq
      · refine absurd ((hcov _).mp ⟨c, by simp, ?_, hlt⟩) h'.not_covered_stop
        unfold stop; omega
    have hcd : c = d := by
      cases c
      cases d
      simp only [stop] at hstart hstop
      rw [Span.mk.injEq]
      omega
    have htail : l = l' := by
      refine Separated.ext (List.pairwise_cons.mp h).2 (List.pairwise_cons.mp h').2
        (fun x hx => hpos x (by simp [hx])) (fun x hx => hpos' x (by simp [hx])) fun a => ?_
      rw [h.covered_tail, h'.covered_tail, hcov a, hstop]
    rw [hcd, htail]

end Ext

/-! ### Tilings -/

theorem total_append (l l' : List Span) : total (l ++ l') = total l + total l' := by
  simp [total]

/-- Disjoint spans have as many addresses as their sizes add up to. -/
theorem card_covered : ∀ {l : List Span} {e : ℕ}, l.Pairwise Disj → (∀ c ∈ l, 0 < c.size) →
    (∀ c ∈ l, c.stop ≤ e) → ((Finset.range e).filter (Covered l)).card = total l
  | [], e, _, _, _ => by simp [total]
  | c :: l, e, hd, hpos, he => by
    obtain ⟨hc, hd'⟩ := List.pairwise_cons.mp hd
    have hce := he c (by simp)
    have ih := card_covered hd' (fun x hx => hpos x (by simp [hx])) fun x hx => he x (by simp [hx])
    have hu : (Finset.range e).filter (Covered (c :: l)) =
        Finset.Ico c.start c.stop ∪ (Finset.range e).filter (Covered l) := by
      ext a
      simp only [Finset.mem_filter, Finset.mem_range, covered_cons, Finset.mem_union,
        Finset.mem_Ico]
      exact ⟨fun ⟨h1, h2⟩ => h2.imp id fun h => ⟨h1, h⟩, fun h => h.elim
        (fun h => ⟨by omega, Or.inl h⟩) fun h => ⟨h.1, Or.inr h.2⟩⟩
    have hdis : Disjoint (Finset.Ico c.start c.stop) ((Finset.range e).filter (Covered l)) := by
      refine Finset.disjoint_left.mpr fun a ha hb => ?_
      rw [Finset.mem_Ico] at ha
      exact not_covered_of_disj (fun d hd => (hc d hd).symm) ha.1 ha.2 (Finset.mem_filter.mp hb).2
    rw [hu, Finset.card_union_of_disjoint hdis, ih, Nat.card_Ico]
    simp [total, stop]

/-- **Disjoint spans that fill `[s, e)` have total size `e - s`.** -/
theorem total_eq_of_tiles {l : List Span} {s e : ℕ} (hd : l.Pairwise Disj)
    (hpos : ∀ c ∈ l, 0 < c.size) (hin : ∀ c ∈ l, s ≤ c.start ∧ c.stop ≤ e)
    (hfill : ∀ a, s ≤ a → a < e → Covered l a) : total l = e - s := by
  rw [← card_covered hd hpos fun c hc => (hin c hc).2, ← Nat.card_Ico]
  congr 1
  ext a
  simp only [Finset.mem_filter, Finset.mem_range, Finset.mem_Ico]
  constructor
  · rintro ⟨ha, c, hc, h1, -⟩
    exact ⟨(hin c hc).1.trans h1, ha⟩
  · exact fun ⟨h1, h2⟩ => ⟨h2, hfill a h1 h2⟩

/-- **A separated list that fills `[s, e)` is the single span.** -/
theorem eq_singleton_of_tiles {l : List Span} {s e : ℕ} (hse : s < e) (hl : Separated l)
    (hpos : ∀ c ∈ l, 0 < c.size) (hin : ∀ c ∈ l, s ≤ c.start ∧ c.stop ≤ e)
    (hfill : ∀ a, s ≤ a → a < e → Covered l a) : l = [⟨s, e - s⟩] := by
  cases l with
  | nil => exact absurd (hfill s le_rfl hse) not_covered_nil
  | cons c l =>
    obtain ⟨hc, -⟩ := List.pairwise_cons.mp hl
    have hcin := hin c (by simp)
    have hstart : c.start = s := by
      obtain ⟨d, hd, h1, h2⟩ := hfill s le_rfl hse
      have := hpos c (by simp)
      rcases List.mem_cons.mp hd with rfl | hd
      · omega
      · have := hc d hd
        unfold stop at *; omega
    have hstop : c.stop = e := by
      by_contra hne
      obtain ⟨d, hd, h1, h2⟩ := hfill c.stop (by unfold stop; omega) (by omega)
      rcases List.mem_cons.mp hd with rfl | hd
      · omega
      · have := hc d hd; omega
    have hnil : l = [] := by
      refine List.eq_nil_iff_forall_not_mem.mpr fun d hd => ?_
      have h1 := hc d hd
      have h2 := hin d (by simp [hd])
      have h3 := hpos d (by simp [hd])
      unfold stop at *; omega
    subst hnil
    cases c
    simp_all [stop]; omega

end Noc.Lib.Spans
