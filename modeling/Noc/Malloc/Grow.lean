import Noc.Malloc.Moves

/-! # Memory from the environment

`alignedSbrk_calls` lists how a call of `aligned_sbrk` goes under the contract of `sbrk`; what is
proved about one follows by these cases. `alignedSbrk_cases`: it is `Refused`, or hands out an
aligned region past everything the heap has (`Granted`). In both cases the memory and the free list
are as before, so a refusal keeps the invariant (`Inv.refused`), and a granted region becomes an
allocated chunk (`Inv.granted`) or the end of one (`Inv.grown`).

`chunkGrow_cases` puts these together for `chunk_grow`. -/

namespace Noc.Malloc

open Noc.Lib.Bytes Noc.Lib.Spans Noc.Lib.Spans.Span Noc.Targets Noc.Unistd

variable {ε : Type} {T : Target} {S : Sbrk ε} {h h' : Heap ε}
variable {free live rest : List Span} {c : Span} {n p : ℕ}

/-- `aligned_sbrk` handed out nothing. When the padding of a misaligned break is what failed, the
end of the heap has moved all the same. -/
structure Refused (T : Target) (S : Sbrk ε) (h h' : Heap ε) : Prop where
  mem : h'.mem = h.mem
  head : h'.head = h.head
  sbrkStart : h'.sbrkStart = h.sbrkStart
  le_sbrkEnd : h.sbrkEnd ≤ h'.sbrkEnd
  end_le : h'.sbrkEnd ≤ S.brk h'.env
  exclusive : Exclusive T S → T.mallocAlign ∣ S.brk h.env →
    h'.sbrkEnd = h.sbrkEnd ∧ S.brk h'.env = S.brk h.env

/-- `aligned_sbrk` handed out `n` bytes at `p`. -/
structure Granted (T : Target) (S : Sbrk ε) (n : ℕ) (h : Heap ε) (p : ℕ) (h' : Heap ε) : Prop where
  mem : h'.mem = h.mem
  head : h'.head = h.head
  sbrkStart : h'.sbrkStart = if h.sbrkStart = 0 then p else h.sbrkStart
  sbrkEnd : h'.sbrkEnd = p + n
  pos : 0 < p
  align : T.mallocAlign ∣ p
  brk_le : S.brk h.env ≤ p
  end_le : h'.sbrkEnd ≤ S.brk h'.env
  exclusive : Exclusive T S → S.brk h'.env = p + n ∧ (T.mallocAlign ∣ S.brk h.env → p = S.brk h.env)

/-- The padding that `aligned_sbrk` asks for behind a misaligned address. -/
def padding (T : Target) (p : ℕ) : ℤ := T.mallocAlign - (T.toIntptr p).tmod T.mallocAlign

/-- The remainder of an address in the upper half is negative, but 0 for the aligned ones only; and
the padding of the others makes them aligned, though it may be more than `MALLOC_ALIGN`. -/
theorem padding_cases (hp : p < T.space) :
    ((T.toIntptr p).tmod T.mallocAlign = 0 ∧ T.mallocAlign ∣ p) ∨
      ∃ pad : ℕ, (T.toIntptr p).tmod T.mallocAlign ≠ 0 ∧ padding T p = pad ∧ 0 < pad ∧
        pad < 2 * T.mallocAlign ∧ T.mallocAlign ∣ p + pad ∧ ¬ T.mallocAlign ∣ p := by
  have ha := T.align_pos
  have hlt : ∀ m : ℕ, m % T.mallocAlign < T.mallocAlign := fun m => Nat.mod_lt _ ha
  have htmod : ∀ m : ℕ, (m : ℤ).tmod T.mallocAlign = (m % T.mallocAlign : ℕ) := fun m => by
    rw [Int.tmod_eq_emod_of_nonneg (Int.natCast_nonneg m)]; rfl
  unfold padding Target.toIntptr
  by_cases hlow : p ≤ T.intptrMax
  · rw [if_pos hlow, htmod]
    by_cases h0 : p % T.mallocAlign = 0
    · left
      exact ⟨by rw [h0]; rfl, Nat.dvd_of_mod_eq_zero h0⟩
    · right
      have := hlt p
      refine ⟨T.mallocAlign - p % T.mallocAlign, by omega, by omega, by omega, by omega, ?_,
        fun hd => h0 (Nat.mod_eq_zero_of_dvd hd)⟩
      have hsum : p + (T.mallocAlign - p % T.mallocAlign) =
          T.mallocAlign * (p / T.mallocAlign) + T.mallocAlign := by
        have := Nat.div_add_mod p T.mallocAlign
        omega
      rw [hsum]
      exact Nat.dvd_add (Nat.dvd_mul_right _ _) (dvd_refl _)
  · have hneg : (p : ℤ) - T.space = -((T.space - p : ℕ) : ℤ) := by omega
    rw [if_neg hlow, hneg, Int.neg_tmod, htmod]
    have hsplit := Nat.div_add_mod (T.space - p) T.mallocAlign
    have hsp : p + (T.space - p) = T.space := by omega
    by_cases h0 : (T.space - p) % T.mallocAlign = 0
    · left
      refine ⟨by rw [h0]; rfl, (Nat.dvd_add_left (Nat.dvd_of_mod_eq_zero h0)).mp ?_⟩
      rw [hsp]; exact T.align_dvd_space
    · right
      have := hlt (T.space - p)
      refine ⟨T.mallocAlign + (T.space - p) % T.mallocAlign, by omega, by omega, by omega, by omega,
        ?_, fun hd => h0 (Nat.mod_eq_zero_of_dvd ?_)⟩
      · have hsum : p + (T.mallocAlign + (T.space - p) % T.mallocAlign) +
            T.mallocAlign * ((T.space - p) / T.mallocAlign) = T.space + T.mallocAlign := by omega
        have hmul := Nat.dvd_mul_right T.mallocAlign ((T.space - p) / T.mallocAlign)
        refine (Nat.dvd_add_left hmul).mp ?_
        rw [hsum]
        exact Nat.dvd_add T.align_dvd_space (dvd_refl _)
      · refine (Nat.dvd_add_right hd).mp ?_
        rw [hsp]; exact T.align_dvd_space

/-! ### The four outcomes of `aligned_sbrk` -/

section Outcomes
variable {p' : ℕ} {e₁ e₂ : ε} (hn : n ≤ T.intptrMax)
include hn

theorem alignedSbrk_fail (h₁ : S.call h.env n = (T.sbrkFailure, e₁)) :
    alignedSbrk T S n h = (T.sbrkFailure, { h with env := e₁, errno := ENOMEM }) := by
  rw [alignedSbrk, if_neg (by omega)]
  dsimp only
  rw [h₁, if_pos rfl]

theorem alignedSbrk_aligned (h₁ : S.call h.env n = (p, e₁)) (hp : p ≠ T.sbrkFailure)
    (hlt : p < T.space) (hd : T.mallocAlign ∣ p) :
    alignedSbrk T S n h = (p, { h with
      sbrkStart := if h.sbrkStart = 0 then p else h.sbrkStart
      sbrkEnd := T.add p n
      env := e₁ }) := by
  have hpad : (T.toIntptr p).tmod T.mallocAlign = 0 := by
    rcases padding_cases hlt with ⟨h0, -⟩ | ⟨-, -, -, -, -, -, hnd⟩
    · exact h0
    · exact absurd hd hnd
  rw [alignedSbrk, if_neg (by omega)]
  dsimp only
  rw [h₁]
  dsimp only
  rw [if_neg hp, if_pos hpad]
  split_ifs <;> rfl

theorem alignedSbrk_pad (h₁ : S.call h.env n = (p, e₁)) (hp : p ≠ T.sbrkFailure)
    (hlt : p < T.space) (hd : ¬ T.mallocAlign ∣ p) (h₂ : S.call e₁ (padding T p) = (p', e₂)) :
    alignedSbrk T S n h =
      if p' ≠ T.add p n then (T.sbrkFailure, { h with sbrkEnd := T.add p n, env := e₂ })
      else (T.add p (padding T p).toNat, { h with
        sbrkStart := if h.sbrkStart = 0 then T.add p (padding T p).toNat else h.sbrkStart
        sbrkEnd := T.add p' (padding T p).toNat
        env := e₂ }) := by
  have hpad : ¬ (T.toIntptr p).tmod T.mallocAlign = 0 := by
    rcases padding_cases hlt with ⟨-, h0⟩ | ⟨-, h0, -⟩
    · exact absurd h0 hd
    · exact h0
  rw [alignedSbrk, if_neg (by omega)]
  dsimp only
  rw [h₁]
  dsimp only
  rw [if_neg hp, if_neg hpad]
  unfold padding at h₂ ⊢
  rw [h₂]
  split_ifs <;> rfl

end Outcomes

/-- A call of `sbrk` that hands out `n` bytes at `p`. -/
structure Handed (T : Target) (S : Sbrk ε) (e : ε) (n p : ℕ) (e' : ε) : Prop where
  call : S.call e n = (p, e')
  ne : p ≠ T.sbrkFailure
  pos : 0 < p
  brk_le : S.brk e ≤ p
  brk : S.brk e' = p + n
  stop_lt : p + n < T.sbrkFailure

theorem Handed.lt {e e' : ε} (hp : Handed T S e n p e') : p < T.space := by
  have := hp.stop_lt
  unfold Target.sbrkFailure at this; omega

theorem Handed.add_eq {e e' : ε} (hp : Handed T S e n p e') : T.add p n = p + n :=
  Target.add_of_lt (by
    have := hp.stop_lt
    unfold Target.sbrkFailure at this; omega)

/-- How a call of `aligned_sbrk` goes: which calls of `sbrk` it makes, what the contract says of
them, and what it returns. -/
inductive Calls (T : Target) (S : Sbrk ε) (n : ℕ) (h : Heap ε) : Prop where
  | tooLarge (hmax : T.intptrMax < n) (result : alignedSbrk T S n h = (T.sbrkFailure, h))
  | failed {e₁ : ε} (hn : n ≤ T.intptrMax) (call : S.call h.env n = (T.sbrkFailure, e₁))
      (brk_le : S.brk h.env ≤ S.brk e₁)
      (result : alignedSbrk T S n h = (T.sbrkFailure, { h with env := e₁, errno := ENOMEM }))
  | aligned {p : ℕ} {e₁ : ε} (hn : n ≤ T.intptrMax) (first : Handed T S h.env n p e₁)
      (align : T.mallocAlign ∣ p)
      (result : alignedSbrk T S n h = (p, { h with
        sbrkStart := if h.sbrkStart = 0 then p else h.sbrkStart
        sbrkEnd := p + n
        env := e₁ }))
  | padded {p pad : ℕ} {e₁ e₂ : ε} (hn : n ≤ T.intptrMax) (first : Handed T S h.env n p e₁)
      (misaligned : ¬ T.mallocAlign ∣ p) (padding_eq : padding T p = pad) (pos : 0 < pad)
      (second : Handed T S e₁ pad (p + n) e₂) (align : T.mallocAlign ∣ p + pad)
      (result : alignedSbrk T S n h = (p + pad, { h with
        sbrkStart := if h.sbrkStart = 0 then p + pad else h.sbrkStart
        sbrkEnd := p + n + pad
        env := e₂ }))
  | elsewhere {p pad q : ℕ} {e₁ e₂ : ε} (hn : n ≤ T.intptrMax) (first : Handed T S h.env n p e₁)
      (misaligned : ¬ T.mallocAlign ∣ p) (padding_eq : padding T p = pad)
      (call : S.call e₁ pad = (q, e₂)) (hne : q ≠ p + n) (brk_le : p + n ≤ S.brk e₂)
      (result : alignedSbrk T S n h = (T.sbrkFailure, { h with sbrkEnd := p + n, env := e₂ }))

section Contract
variable (hS : Contract T S)
include hS

/-- A call of `sbrk` fails or hands out a region. -/
theorem call_handed (e : ε) (hn : n ≤ T.intptrMax) :
    (∃ e', S.call e n = (T.sbrkFailure, e') ∧ S.brk e ≤ S.brk e') ∨
      ∃ p e', Handed T S e n p e' := by
  obtain ⟨p, e', hcall⟩ : ∃ p e', S.call e n = (p, e') := ⟨_, _, rfl⟩
  have hcases := hS.call_cases e n hn
  have hlt := hS.brk_lt e'
  rw [hcall] at hcases
  dsimp only at hcases
  by_cases hp : p = T.sbrkFailure
  · exact Or.inl ⟨e', hp ▸ hcall, by omega⟩
  · obtain ⟨hpos, hle, hbrk⟩ := hcases.resolve_left fun hc => hp hc.1
    exact Or.inr ⟨p, e', hcall, hp, hpos, hle, hbrk, hbrk ▸ hlt⟩

/-- **The calls of `aligned_sbrk`.** -/
theorem alignedSbrk_calls (n : ℕ) (h : Heap ε) : Calls T S n h := by
  have hspace := T.space_bounds
  have hw := T.ptrBytes_bounds
  have hal := T.align_le
  by_cases hmax : T.intptrMax < n
  · exact .tooLarge hmax (by rw [alignedSbrk, if_pos hmax])
  have hn : n ≤ T.intptrMax := by omega
  rcases call_handed hS h.env hn with ⟨e₁, hcall, hle⟩ | ⟨p, e₁, h1⟩
  · exact .failed hn hcall hle (alignedSbrk_fail hn hcall)
  rcases padding_cases h1.lt with ⟨-, hd⟩ | ⟨pad, -, hpad, hpos, hpad2, hdvd, hnd⟩
  · refine .aligned hn h1 hd ?_
    rw [alignedSbrk_aligned hn h1.call h1.ne h1.lt hd, h1.add_eq]
  obtain ⟨q, e₂, hcall⟩ : ∃ q e₂, S.call e₁ pad = (q, e₂) := ⟨_, _, rfl⟩
  have hresult := alignedSbrk_pad hn h1.call h1.ne h1.lt hnd (hpad ▸ hcall)
  rw [h1.add_eq, hpad, Int.toNat_natCast] at hresult
  have hsecond := call_handed hS e₁ (n := pad) (by omega)
  by_cases hq : q = p + n
  · -- the padding is right behind the region
    subst hq
    obtain ⟨q, e', h2⟩ := hsecond.resolve_left (by
      rintro ⟨e', hc, -⟩
      rw [hcall] at hc
      exact h1.stop_lt.ne (Prod.mk.inj hc).1)
    obtain ⟨rfl, rfl⟩ := Prod.mk.inj (hcall.symm.trans h2.call)
    refine .padded hn h1 hnd hpad hpos h2 hdvd ?_
    rw [hresult, if_neg (not_not.mpr rfl), h2.add_eq, Target.add_of_lt (by
      have := h2.stop_lt
      unfold Target.sbrkFailure at this; omega)]
  · refine .elsewhere hn h1 hnd hpad hcall hq ?_ (by rw [hresult, if_pos hq])
    rw [← h1.brk]
    rcases hsecond with ⟨e', hc, hle⟩ | ⟨q', e', h2⟩
    · rw [hcall] at hc
      rw [(Prod.mk.inj hc).2]
      exact hle
    · obtain ⟨rfl, rfl⟩ := Prod.mk.inj (hcall.symm.trans h2.call)
      rw [h2.brk]
      exact h2.brk_le.trans (Nat.le_add_right _ _)

/-- **`aligned_sbrk`** is refused or hands out a region. -/
theorem alignedSbrk_cases (he : h.sbrkEnd ≤ S.brk h.env) (n : ℕ) :
    ((alignedSbrk T S n h).1 = T.sbrkFailure ∧ Refused T S h (alignedSbrk T S n h).2) ∨
    ((alignedSbrk T S n h).1 ≠ T.sbrkFailure ∧
      Granted T S n h (alignedSbrk T S n h).1 (alignedSbrk T S n h).2) := by
  -- alone in the arena, the first call hands out the old end
  have hexcl : ∀ {p : ℕ} {e₁ : ε}, n ≤ T.intptrMax → Handed T S h.env n p e₁ → Exclusive T S →
      p = S.brk h.env := fun hn h1 hx => by
    have := hx h.env n hn
    rw [h1.call] at this
    exact (this.resolve_left fun hc => h1.ne hc.1).1
  cases alignedSbrk_calls hS n h with
  | tooLarge hmax hr =>
    rw [hr]
    exact Or.inl ⟨rfl, rfl, rfl, rfl, le_rfl, he, fun _ _ => ⟨rfl, rfl⟩⟩
  | @failed e₁ hn hcall hle hr =>
    rw [hr]
    refine Or.inl ⟨rfl, rfl, rfl, rfl, le_rfl, he.trans hle, fun hx _ => ⟨rfl, ?_⟩⟩
    have hlt := hS.brk_lt h.env
    have hcases := hx h.env n hn
    rw [hcall] at hcases
    dsimp only at hcases ⊢
    omega
  | aligned hn h1 hd hr =>
    rw [hr]
    exact Or.inr ⟨h1.ne, rfl, rfl, rfl, rfl, h1.pos, hd, h1.brk_le, h1.brk.ge,
      fun hx => ⟨h1.brk, fun _ => hexcl hn h1 hx⟩⟩
  | @padded p pad e₁ e₂ hn h1 hnd hpad hpos h2 hd hr =>
    rw [hr]
    have h3 := h1.pos
    have h4 := h1.brk_le
    have h5 := h2.stop_lt
    have h6 : S.brk e₂ = p + pad + n := by rw [h2.brk]; omega
    refine Or.inr ⟨by dsimp only; omega, rfl, rfl, rfl, ?_, by omega, hd, by omega, h2.brk.ge,
      fun hx => ⟨h6, fun hd' => absurd (hexcl hn h1 hx ▸ hd') hnd⟩⟩
    show p + n + pad = p + pad + n
    omega
  | elsewhere hn h1 hnd hpad hcall hne hle hr =>
    rw [hr]
    have h3 := h1.brk_le
    refine Or.inl ⟨rfl, rfl, rfl, rfl, ?_, hle, fun hx hd => absurd (hexcl hn h1 hx ▸ hd) hnd⟩
    dsimp only
    omega

end Contract

/-- A refusal keeps the invariant. -/
theorem Inv.refused (hi : Inv T S h free live) (hr : Refused T S h h') : Inv T S h' free live where
  list := hi.list.congr hr.head fun _ _ _ _ _ => by rw [hr.mem]
  separated := hi.separated
  header c hc := by
    rw [← hi.header c hc]
    unfold Heap.size
    rw [hr.mem]
  sized := hi.sized
  inside c hc := by
    have hin := hi.inside c hc
    exact ⟨hr.sbrkStart.trans_le hin.lo, hin.hi.trans hr.le_sbrkEnd⟩
  live_disj := hi.live_disj
  free_live := hi.free_live
  none h0 := hi.none (hr.sbrkStart.symm.trans h0)
  start_lt h0 := by
    have := hi.start_lt (hr.sbrkStart ▸ h0)
    have := hr.sbrkStart
    have := hr.le_sbrkEnd
    omega
  start_align := hr.sbrkStart ▸ hi.start_align
  end_le := hr.end_le
  tiled hx h0 := by
    have ht := hi.tiled hx (hr.sbrkStart ▸ h0)
    obtain ⟨h1, h2⟩ := hr.exclusive hx (ht.brk ▸ ht.align)
    exact ⟨h1 ▸ ht.align, by rw [h1, h2, ht.brk], by rw [hr.sbrkStart, h1]; exact ht.fill⟩

/-- With a granted region the heap has room for it, and for every chunk that it had before. -/
theorem Inv.inside_granted {h₁ : Heap ε} (hi : Inv T S h free live) (hg : Granted T S n h p h₁) :
    ∀ c ∈ ⟨p, n⟩ :: (free ++ live), Inside h₁ c := by
  have hep : h.sbrkEnd ≤ p := hi.end_le.trans hg.brk_le
  refine List.forall_mem_cons.mpr ⟨⟨?_, hg.sbrkEnd.ge⟩, fun c hc => ⟨?_, ?_⟩⟩
  · rw [hg.sbrkStart]
    split_ifs
    · exact le_rfl
    · exact hi.start_le.trans hep
  · rw [hg.sbrkStart]
    split_ifs with h0
    · rw [hi.none h0] at hc
      cases hc
    · exact (hi.inside c hc).lo
  · rw [hg.sbrkEnd]
    have := (hi.inside c hc).hi
    omega

/-- The tiling with a granted region: it goes on where the chunks end. -/
theorem Inv.tiled_granted {h₁ : Heap ε} {chunks : List Span} (hi : Inv T S h free live)
    (hg : Granted T S n h p h₁) (hnd : T.mallocAlign ∣ n) (hx : Exclusive T S)
    (hcov : ∀ a, Covered (free ++ live) a ∨ (p ≤ a ∧ a < p + n) → Covered chunks a) :
    Tiled T S h₁ chunks := by
  obtain ⟨hbrk, hnext⟩ := hg.exclusive hx
  refine ⟨hg.sbrkEnd ▸ Nat.dvd_add hg.align hnd, hbrk.trans hg.sbrkEnd.symm, fun a h1 h2 => ?_⟩
  rw [hg.sbrkEnd] at h2
  by_cases hap : p ≤ a
  · exact hcov a (Or.inr ⟨hap, h2⟩)
  rw [hg.sbrkStart] at h1
  by_cases hs0 : h.sbrkStart = 0
  · rw [if_pos hs0] at h1
    omega
  · rw [if_neg hs0] at h1
    have ht := hi.tiled hx hs0
    have hp := hnext (ht.brk ▸ ht.align)
    exact hcov a (Or.inl (ht.fill a h1 (by have := ht.brk; omega)))

/-- **A granted region joins the heap**: it is the end of the allocated chunk `c`, which takes the
place of the chunks `old`. -/
theorem Inv.extend {h₁ : Heap ε} (old : List Span) (hi : Inv T S h free (old ++ rest))
    (hg : Granted T S n h p h₁) (hn : 0 < n) (hnd : T.mallocAlign ∣ n)
    (hfr : Frame (old ++ [⟨p, n⟩]) h₁ h') (hh : h'.head = h₁.head)
    (hc : h'.size T c.start = c.size) (hs : Sized T c)
    (hcov : ∀ a, (c.start ≤ a ∧ a < c.stop) ↔ Covered (old ++ [⟨p, n⟩]) a) :
    Inv T S h' free (c :: rest) := by
  have hep : h.sbrkEnd ≤ p := hi.end_le.trans hg.brk_le
  have hbelow : ∀ x ∈ free ++ (old ++ rest), x.stop ≤ p := fun x hx => (hi.inside x hx).hi.trans hep
  have hfree : ∀ x ∈ free, x ∈ free ++ (old ++ rest) := fun x hx => by simp [hx]
  have hrest : ∀ x ∈ rest, x ∈ free ++ (old ++ rest) := fun x hx => by simp [hx]
  -- a chunk disjoint from `old` is disjoint from what is rebuilt
  have hdisj : ∀ x ∈ free ++ (old ++ rest), (∀ y ∈ old, y.Disj x) →
      ∀ y ∈ old ++ [⟨p, n⟩], y.Disj x := by
    intro x hx hxo y hy
    rcases List.mem_append.mp hy with hy | hy
    · exact hxo y hy
    · rw [List.mem_singleton.mp hy]
      exact Or.inr (hbelow x hx)
  have hfree' : ∀ x ∈ free, ∀ y ∈ old ++ [⟨p, n⟩], y.Disj x := fun x hx =>
    hdisj x (hfree x hx) fun y hy => (hi.free_live x hx y (by simp [hy])).symm
  have hrest' : ∀ x ∈ rest, ∀ y ∈ old ++ [⟨p, n⟩], y.Disj x := fun x hx =>
    hdisj x (hrest x hx) fun y hy => (List.pairwise_append.mp hi.live_disj).2.2 y hy x hx
  have hcx : ∀ x ∈ free ++ (old ++ rest), (∀ y ∈ old ++ [⟨p, n⟩], y.Disj x) → c.Disj x :=
    fun x hx hy =>
      disj_of_covered hs.pos (hi.sized x hx).pos (fun a h1 h2 => (hcov a).mp ⟨h1, h2⟩) hy
  -- the bytes of the other chunks
  have hbytes : ∀ x : Span, (∀ y ∈ old ++ [⟨p, n⟩], y.Disj x) → ∀ a, x.start ≤ a → a < x.stop →
      h'.mem a = h.mem a := fun x hy a h1 h2 => by
    rw [hfr.bytes hy h1 h2, hg.mem]
  have hin : ∀ x ∈ ⟨p, n⟩ :: (free ++ (old ++ rest)), Inside h' x := fun x hx => by
    have hx' := hi.inside_granted hg x hx
    exact ⟨hfr.sbrkStart.trans_le hx'.lo, hx'.hi.trans hfr.sbrkEnd.ge⟩
  have hinc : Inside h' c := by
    refine Inside.of_covered hs.pos (fun x hx => hin x ?_) fun a h1 h2 => (hcov a).mp ⟨h1, h2⟩
    rcases List.mem_append.mp hx with hx | hx
    · simp [hx]
    · simp [List.mem_singleton.mp hx]
  have hmem : ∀ x ∈ free ++ c :: rest, x = c ∨ x ∈ free ++ (old ++ rest) := fun x hx => by
    simp only [List.mem_append, List.mem_cons] at hx ⊢
    tauto
  constructor
  · refine hi.list.congr (hh.trans hg.head) fun x hx a h1 h2 => hbytes x (hfree' x hx) a h1 ?_
    have := (hi.sized x (hfree x hx)).min
    unfold mallocMinSize at this
    unfold stop; omega
  · exact hi.separated
  · refine List.forall_mem_cons.mpr ⟨hc, fun x hx => ?_⟩
    rw [← hi.header x (by simp [hx])]
    refine Target.load_congr fun a h1 h2 => hbytes x (hrest' x hx) a h1 ?_
    have := (hi.sized x (hrest x hx)).min
    unfold mallocMinSize at this
    unfold stop; omega
  · intro x hx
    rcases hmem x hx with rfl | hx
    · exact hs
    · exact hi.sized x hx
  · intro x hx
    rcases hmem x hx with rfl | hx
    · exact hinc
    · exact hin x (List.mem_cons_of_mem _ hx)
  · refine List.pairwise_cons.mpr ⟨fun x hx => hcx x (hrest x hx) (hrest' x hx), ?_⟩
    exact (List.pairwise_append.mp hi.live_disj).2.1
  · intro x hx y hy
    rcases List.mem_cons.mp hy with rfl | hy
    · exact (hcx x (hfree x hx) (hfree' x hx)).symm
    · exact hi.free_live x hx y (by simp [hy])
  · intro h0
    rw [hfr.sbrkStart, hg.sbrkStart] at h0
    have := hg.pos
    split_ifs at h0 <;> omega
  · have hlo := (hin ⟨p, n⟩ (by simp)).lo
    have hhi := (hin ⟨p, n⟩ (by simp)).hi
    unfold stop at hhi
    simp only at hlo hhi
    omega
  · rw [hfr.sbrkStart, hg.sbrkStart]
    split_ifs
    · exact hg.align
    · exact hi.start_align
  · rw [hfr.sbrkEnd, hfr.env]; exact hg.end_le
  · intro hx h0
    refine (hi.tiled_granted hg hnd hx fun a ha => ?_).frame hfr fun a ha => ha
    exact (covered_replace (hcov a)).mpr ha

/-- A granted region with its size in front is an allocated chunk. -/
theorem Inv.granted {h₁ : Heap ε} (hi : Inv T S h free live) (hg : Granted T S n h p h₁)
    (hs : Sized T ⟨p, n⟩) (hn : n < T.space) :
    Inv T S (h₁.setSize T p n) free (⟨p, n⟩ :: live) ∧
      Kept (free ++ live) h (h₁.setSize T p n) := by
  have hmin := hs.min
  have hpos := hs.pos
  unfold mallocMinSize at hmin
  simp only at hmin hpos
  have hfr : Frame [⟨p, n⟩] h₁ (h₁.setSize T p n) :=
    Frame.setSize (T := T) (c := ⟨p, n⟩) (by simp only; omega)
  refine ⟨hi.extend [] hg hpos hs.size hfr rfl (Target.load_store hn) hs fun a => ?_,
    fun d hd a h1 h2 => ?_⟩
  · rw [List.nil_append, covered_cons]; simp
  · have hin := (hi.inside d hd).hi.trans (hi.end_le.trans hg.brk_le)
    rw [← hg.mem]
    exact setSize_mem_of_notMem (by omega)

/-- An allocated chunk with the granted region right behind it grows. -/
theorem Inv.grown {h₁ : Heap ε} (hi : Inv T S h free (c :: rest)) (hg : Granted T S n h p h₁)
    (hp : c.stop = p) (hn : 0 < n) (hnd : T.mallocAlign ∣ n) (hlt : c.size + n < T.space) :
    Inv T S (h₁.setSize T c.start (c.size + n)) free (⟨c.start, c.size + n⟩ :: rest) ∧
      ∀ a, (a < c.start ∨ c.start + T.ptrBytes ≤ a) →
        (h₁.setSize T c.start (c.size + n)).mem a = h.mem a := by
  have hs := hi.sized c (by simp)
  have hmin := hs.min
  unfold mallocMinSize at hmin
  have hfr : Frame [c] h₁ (h₁.setSize T c.start (c.size + n)) := Frame.setSize (by omega)
  refine ⟨hi.extend (n := n) [c] hg hn hnd (hfr.mono fun a ha => ?_) rfl
    (Target.load_store hlt) ?_ fun a => ?_, fun a ha => ?_⟩
  · rw [covered_append]; exact Or.inl ha
  · exact ⟨hs.start, Nat.dvd_add hs.size hnd, by unfold mallocMinSize; simp only; omega⟩
  · have := covered_join (c := c) (d := ⟨p, n⟩) hp (a := a)
    rw [covered_append, covered_cons, covered_cons]
    simp only [not_covered_nil, or_false]
    exact this
  · rw [← hg.mem]
    exact setSize_mem_of_notMem ha

section Contract
variable (hS : Contract T S)
include hS

theorem chunkToData_eq (hi : Inv T S h free live) (hc : c ∈ free ++ live) :
    chunkToData T c.start = c.start + T.ptrBytes := (hi.fit hS hc).next

/-- **`insert_free_chunk`** frees the chunk it writes the header of. -/
theorem insertFreeChunk_eq (hi : Inv T S (h.setSize T c.start c.size) free (c :: rest)) :
    ∃ h', insertFreeChunk T c.start c.size h = some h' ∧ Inv T S h' (insertJoin c free) rest ∧
      Frame (c :: free) (h.setSize T c.start c.size) h' := by
  rw [insertFreeChunk, chunkToData_eq hS hi (by simp)]
  exact hi.release hS

/-- **`chunk_grow`** on an allocated chunk: it has grown to the new size or more; or it is as
before, and the free list has at most gained a chunk that does not touch it. -/
theorem chunkGrow_cases (hi : Inv T S h free (c :: rest)) (hn : c.size < n)
    (hnd : T.mallocAlign ∣ n) (hlt : n < T.space) :
    (∃ h' m, chunkGrow T S c.start n h = some (true, h') ∧ n ≤ m ∧
      Inv T S h' free (⟨c.start, m⟩ :: rest) ∧
      ∀ a, a < c.start ∨ c.start + T.ptrBytes ≤ a → h'.mem a = h.mem a) ∨
    ∃ h' free', chunkGrow T S c.start n h = some (false, h') ∧ Inv T S h' free' (c :: rest) ∧
      Kept (c :: rest) h h' ∧ (∀ a, Covered free a → Covered free' a) ∧
      ∀ d : Span, d.stop = c.start → (d ∈ free' ↔ d ∈ free) := by
  have hw := T.ptrBytes_bounds
  have hc : c ∈ free ++ c :: rest := by simp
  have hfit := hi.fit hS hc
  have hpos := hfit.pos
  have hend := hi.end_lt hS
  have hcs := hi.header c (by simp)
  have hcend := (hi.inside c hc).hi
  have hsz := hi.sized c hc
  rw [chunkGrow, if_neg (by omega), chunkEnd_eq hfit hcs]
  dsimp only
  by_cases htop : c.stop = h.sbrkEnd
  swap
  · rw [if_pos htop]
    exact Or.inr ⟨h, free, rfl, hi, fun _ _ _ _ _ => rfl, fun _ h => h, fun _ _ => Iff.rfl⟩
  rw [if_neg (not_not.mpr htop), hcs, Target.sub_of_le hn.le hlt]
  -- what is asked for: the missing bytes, and enough for a free chunk
  obtain ⟨add, hadd, haddn, haddmin, haddd⟩ : ∃ add, add =
      (if n - c.size < mallocMinSize T then mallocMinSize T else n - c.size) ∧ n - c.size ≤ add ∧
      mallocMinSize T ≤ add ∧ T.mallocAlign ∣ add := by
    refine ⟨_, rfl, ?_, ?_, ?_⟩ <;> split_ifs with hmin
    · omega
    · exact le_rfl
    · exact le_rfl
    · omega
    · exact Dvd.dvd.mul_left T.align_dvd 2
    · exact Nat.dvd_sub hnd hsz.size
  rw [← hadd]
  have hcases := alignedSbrk_cases hS hi.end_le add
  generalize alignedSbrk T S add h = r at hcases ⊢
  obtain ⟨p, h1⟩ := r
  dsimp only at hcases ⊢
  unfold mallocMinSize at haddmin
  rcases hcases with ⟨hp, hr⟩ | ⟨hp, hg⟩
  · rw [if_neg (by omega), if_neg (not_not.mpr hp)]
    refine Or.inr ⟨h1, free, rfl, hi.refused hr, fun d _ a _ _ => by rw [hr.mem], fun _ h => h,
      fun _ _ => Iff.rfl⟩
  have hp1 : p + add < T.space := by
    have h1 := hS.brk_lt h1.env
    have h2 := hg.end_le
    have h3 := hg.sbrkEnd
    unfold Target.sbrkFailure at h1; omega
  by_cases hpc : p = c.stop
  · have hsum : c.size + add < T.space := by
      unfold stop at hpc; omega
    have hhead : h1.size T c.start = c.size := by
      rw [← hcs]
      unfold Heap.size
      rw [hg.mem]
    rw [if_pos hpc, hhead, Target.add_of_lt hsum]
    obtain ⟨h2, h3⟩ := hi.grown hg hpc.symm (by omega) haddd hsum
    exact Or.inl ⟨_, c.size + add, rfl, by omega, h2, h3⟩
  · rw [if_neg hpc, if_pos hp]
    have hsp : Sized T ⟨p, add⟩ := ⟨hg.align, haddd, haddmin⟩
    obtain ⟨h2, h3⟩ := hi.granted hg hsp (by omega)
    obtain ⟨h4, h5, h6, h7⟩ := insertFreeChunk_eq (c := ⟨p, add⟩) hS h2
    rw [h5]
    refine Or.inr ⟨h4, _, rfl, h6, fun d hd a ha hb => ?_, fun a ha => ?_, fun d hd => ?_⟩
    · rw [← h3 d (List.mem_append_right _ hd) a ha hb]
      exact h2.kept_rest h7 d hd a ha hb
    · rw [covered_insertJoin]; exact Or.inr ha
    · refine mem_insertJoin ?_
      have := hi.end_le.trans hg.brk_le
      have := hfit.size_pos
      unfold stop at *
      simp only; omega

end Contract

end Noc.Malloc
