import Noc.Lib.Spans

/-! # Spans that grow

`Grows b l b' l'`: a list of spans changes from `l` to `l'` while a bound rises from `b` to `b'`. No
address is given up, and the ones that are new lie between the bounds. Steps add up
(`Grows.trans`), and what a step leaves alone can be put behind it (`Grows.append`).

* `Grows.total_le`: so does the size of all spans grow, by no more than the bound rises.
* `Grows.eq_of_rest`: one part of the spans is known by the other part when the bound stays.

`Separated.length_le_of_fill`: spans with gaps between them are few if other spans fill the gaps. -/

namespace Noc.Lib.Spans

open Noc.Lib.Spans.Span

/-- The spans keep all their addresses and get others only between the bounds. -/
structure Grows (b : ℕ) (l : List Span) (b' : ℕ) (l' : List Span) : Prop where
  le : b ≤ b'
  kept : ∀ a, Covered l a → Covered l' a
  fresh : ∀ a, Covered l' a → Covered l a ∨ (b ≤ a ∧ a < b')

variable {b b' b'' : ℕ} {l l' l'' r r' f f' : List Span} {c d : Span}

/-- Spans that cover the same, under a bound that may rise. -/
theorem Grows.of_iff (hb : b ≤ b') (h : ∀ a, Covered l' a ↔ Covered l a) : Grows b l b' l' :=
  ⟨hb, fun a => (h a).mpr, fun a ha => Or.inl ((h a).mp ha)⟩

theorem Grows.trans (h : Grows b l b' l') (h' : Grows b' l' b'' l'') : Grows b l b'' l'' where
  le := h.le.trans h'.le
  kept a ha := h'.kept a (h.kept a ha)
  fresh a ha := by
    have h1 := h.le
    have h2 := h'.le
    rcases h'.fresh a ha with ha | ha
    · rcases h.fresh a ha with ha | ha
      · exact Or.inl ha
      · exact Or.inr (by omega)
    · exact Or.inr (by omega)

/-- Spans that are left alone. -/
theorem Grows.append (h : Grows b l b' l') (r : List Span) : Grows b (l ++ r) b' (l' ++ r) where
  le := h.le
  kept a ha := covered_append.mpr ((covered_append.mp ha).imp_left (h.kept a))
  fresh a ha := by
    rcases covered_append.mp ha with ha | ha
    · exact (h.fresh a ha).imp_left fun ha => covered_append.mpr (Or.inl ha)
    · exact Or.inl (covered_append.mpr (Or.inr ha))

/-- A new span between the bounds. -/
theorem Grows.cons (l : List Span) (hb : b ≤ c.start) (hb' : c.stop ≤ b') :
    Grows b l b' (c :: l) where
  le := by unfold stop at hb'; omega
  kept a ha := covered_cons.mpr (Or.inr ha)
  fresh a ha := by
    rcases covered_cons.mp ha with ha | ha
    · exact Or.inr (by omega)
    · exact Or.inl ha

/-- **The sizes add up to more**, by no more than the bound rises. -/
theorem Grows.total_le (h : Grows b l b' l') (hd : l.Pairwise Disj) (hd' : l'.Pairwise Disj)
    (hpos : ∀ c ∈ l, 0 < c.size) (hpos' : ∀ c ∈ l', 0 < c.size) {e : ℕ}
    (he : ∀ c ∈ l, c.stop ≤ e) (he' : ∀ c ∈ l', c.stop ≤ e) :
    total l ≤ total l' ∧ total l' ≤ total l + (b' - b) := by
  rw [← card_covered hd hpos he, ← card_covered hd' hpos' he']
  constructor
  · refine Finset.card_le_card fun a ha => ?_
    rw [Finset.mem_filter] at ha ⊢
    exact ⟨ha.1, h.kept a ha.2⟩
  · rw [← Nat.card_Ico b b']
    refine (Finset.card_le_card fun a ha => ?_).trans (Finset.card_union_le _ _)
    rw [Finset.mem_filter] at ha
    rw [Finset.mem_union, Finset.mem_filter, Finset.mem_Ico]
    exact (h.fresh a ha.2).imp_left fun h => ⟨ha.1, h⟩

/-- **The rest decides**: when no address is new, separated spans are the same if the spans that
they are disjoint from are. -/
theorem Grows.eq_of_rest (h : Grows b (f ++ r) b (f' ++ r')) (hr : ∀ c, c ∈ r' ↔ c ∈ r)
    (hf : Separated f) (hf' : Separated f') (hpos : ∀ c ∈ f, 0 < c.size)
    (hpos' : ∀ c ∈ f', 0 < c.size) (hfr : ∀ c ∈ f, ∀ d ∈ r, c.Disj d)
    (hfr' : ∀ c ∈ f', ∀ d ∈ r', c.Disj d) : f' = f := by
  have hrest : ∀ a, Covered r' a ↔ Covered r a := fun a => by
    unfold Covered
    simp only [hr]
  refine hf'.ext hf hpos' hpos fun a => ⟨fun ha => ?_, fun ha => ?_⟩
  · have hnot : ¬ Covered r' a := by
      obtain ⟨c, hc, h1, h2⟩ := ha
      exact not_covered_of_disj (fun d hd => (hfr' c hc d hd).symm) h1 h2
    rcases h.fresh a (covered_append.mpr (Or.inl ha)) with ha | ha
    · exact (covered_append.mp ha).resolve_right fun hc => hnot ((hrest a).mpr hc)
    · omega
  · have hnot : ¬ Covered r a := by
      obtain ⟨c, hc, h1, h2⟩ := ha
      exact not_covered_of_disj (fun d hd => (hfr c hc d hd).symm) h1 h2
    exact (covered_append.mp (h.kept a (covered_append.mpr (Or.inl ha)))).resolve_right
      fun hc => hnot ((hrest a).mp hc)

/-! ### Gaps that are filled -/

/-- Behind every span of a separated list there is a gap. -/
theorem Separated.not_covered_stop_of_mem (hl : Separated l) (hc : c ∈ l) :
    ¬ Covered l c.stop := by
  rintro ⟨d, hd, h1, h2⟩
  obtain ⟨pre, post, rfl⟩ := List.append_of_mem hc
  obtain ⟨-, hpost, hpre⟩ := List.pairwise_append.mp hl
  rcases List.mem_append.mp hd with hd | hd
  · have := hpre d hd c List.mem_cons_self
    unfold stop at *; omega
  · rcases List.mem_cons.mp hd with rfl | hd
    · omega
    · have := (List.pairwise_cons.mp hpost).1 d hd
      omega

/-- **Separated spans are few**: the gap behind each but the last is filled by another span. -/
theorem Separated.length_le_of_fill (hl : Separated l) (hpos : ∀ c ∈ l, 0 < c.size) {e : ℕ}
    (he : ∀ c ∈ l, c.stop ≤ e) {s : ℕ} (hs : ∀ c ∈ l, s ≤ c.start)
    (hfill : ∀ a, s ≤ a → a < e → Covered (l ++ r) a) (hlr : ∀ c ∈ l, ∀ d ∈ r, c.Disj d) :
    l.length ≤ r.length + 1 := by
  rcases List.eq_nil_or_concat l with rfl | ⟨k, x, rfl⟩
  · exact Nat.zero_le _
  rw [List.concat_eq_append] at *
  obtain ⟨hk, -, hx⟩ := List.pairwise_append.mp hl
  have hnodup : (k.map stop).Nodup := by
    refine List.pairwise_map.mpr ((List.Pairwise.and_mem.mp hk).imp fun {c d} h => ?_)
    have h1 := hpos d (List.mem_append_left [x] h.2.1)
    have h2 := h.2.2
    have h3 : d.stop = d.start + d.size := rfl
    omega
  have hsub : k.map stop ⊆ r.map Span.start := by
    intro a ha
    obtain ⟨c, hc, rfl⟩ := List.mem_map.mp ha
    have hc' : c ∈ k ++ [x] := List.mem_append_left [x] hc
    have h1 := hs c hc'
    have h2 := hx c hc x (List.mem_singleton.mpr rfl)
    have h3 := he x (List.mem_append_right k (List.mem_singleton.mpr rfl))
    have h4 : Covered r c.stop := by
      refine (covered_append.mp (hfill c.stop ?_ ?_)).resolve_left (hl.not_covered_stop_of_mem hc')
      · unfold stop; omega
      · unfold stop at *; omega
    obtain ⟨d, hd, h5, h6⟩ := h4
    have h7 := hlr c hc' d hd
    have h8 := hpos c hc'
    refine List.mem_map.mpr ⟨d, hd, ?_⟩
    unfold Disj at h7
    unfold stop at *; omega
  have hlen := (List.subperm_of_subset hnodup hsub).length_le
  rw [List.length_map, List.length_map] at hlen
  rw [List.length_append, List.length_singleton]
  omega

end Noc.Lib.Spans
