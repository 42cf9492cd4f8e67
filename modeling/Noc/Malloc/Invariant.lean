import Noc.Malloc.FreeList

/-! # The heap invariant

`Inv T S h free live`: the list in memory is `free`, separated; the headers of the allocated chunks
`live` are in memory; all chunks are aligned, big enough for a `struct free_chunk`, inside
`[sbrk_start, sbrk_end]` and disjoint; and when nobody else calls `sbrk`, the chunks fill that
range.

An operation that stays inside some chunks needs to be looked at on these chunks only: `Inv.change`
keeps everything about the other ones. -/

namespace Noc.Malloc

open Noc.Lib.Bytes Noc.Lib.Spans Noc.Lib.Spans.Span Noc.Targets Noc.Unistd

variable {ε : Type} {T : Target} {S : Sbrk ε} {h h' : Heap ε} {free live : List Span}

/-- Aligned, with room for a `struct free_chunk`. -/
structure Sized (T : Target) (c : Span) : Prop where
  start : T.mallocAlign ∣ c.start
  size : T.mallocAlign ∣ c.size
  min : mallocMinSize T ≤ c.size

/-- The chunk lies inside `[sbrk_start, sbrk_end]`. -/
structure Inside (h : Heap ε) (c : Span) : Prop where
  lo : h.sbrkStart ≤ c.start
  hi : c.stop ≤ h.sbrkEnd

/-- The chunks fill `[sbrk_start, sbrk_end)`, and the next `sbrk` continues it. -/
structure Tiled (T : Target) (S : Sbrk ε) (h : Heap ε) (chunks : List Span) : Prop where
  align : T.mallocAlign ∣ h.sbrkEnd
  brk : S.brk h.env = h.sbrkEnd
  fill : ∀ a, h.sbrkStart ≤ a → a < h.sbrkEnd → Covered chunks a

/-- A chunk that is covered by chunks inside the range is inside. -/
theorem Inside.of_covered {chunks : List Span} {c : Span} (hpos : 0 < c.size)
    (hin : ∀ x ∈ chunks, Inside h x)
    (hcov : ∀ a, c.start ≤ a → a < c.stop → Covered chunks a) : Inside h c := by
  obtain ⟨x, hx, hx1, -⟩ := hcov c.start le_rfl (by unfold stop; omega)
  obtain ⟨y, hy, -, hy2⟩ := hcov (c.stop - 1) (by unfold stop; omega) (by unfold stop; omega)
  exact ⟨(hin x hx).lo.trans hx1, by have := (hin y hy).hi; omega⟩

/-- The tiling with chunks that cover as much, after a step that stays inside some chunks. -/
theorem Tiled.frame {old chunks chunks' : List Span} (ht : Tiled T S h chunks)
    (hfr : Frame old h h') (hcov : ∀ a, Covered chunks a → Covered chunks' a) :
    Tiled T S h' chunks' where
  align := by rw [hfr.sbrkEnd]; exact ht.align
  brk := by rw [hfr.env, hfr.sbrkEnd]; exact ht.brk
  fill a h1 h2 := by
    rw [hfr.sbrkStart] at h1
    rw [hfr.sbrkEnd] at h2
    exact hcov a (ht.fill a h1 h2)

/-- **The heap invariant.** -/
structure Inv (T : Target) (S : Sbrk ε) (h : Heap ε) (free live : List Span) : Prop where
  list : HeadList T h 0 free
  separated : Separated free
  header : ∀ c ∈ live, h.size T c.start = c.size
  sized : ∀ c ∈ free ++ live, Sized T c
  inside : ∀ c ∈ free ++ live, Inside h c
  live_disj : live.Pairwise Disj
  free_live : ∀ c ∈ free, ∀ d ∈ live, c.Disj d
  none : h.sbrkStart = 0 → free ++ live = []
  start_lt : h.sbrkStart ≠ 0 → h.sbrkStart < h.sbrkEnd
  start_align : T.mallocAlign ∣ h.sbrkStart
  end_le : h.sbrkEnd ≤ S.brk h.env
  tiled : Exclusive T S → h.sbrkStart ≠ 0 → Tiled T S h (free ++ live)

theorem Sized.pos {c : Span} (hc : Sized T c) : 0 < c.size := by
  have h1 := hc.min
  have h2 := T.ptrBytes_bounds
  unfold mallocMinSize at h1; omega

theorem Sized.join {c d : Span} (hc : Sized T c) (hd : Sized T d) : Sized T (c.join d) :=
  ⟨hc.start, Nat.dvd_add hc.size hd.size, hc.min.trans (Nat.le_add_right _ _)⟩

/-- The zero-initialised state: no chunks. -/
theorem Inv.init (mem : Mem) (errno : ℕ) (env : ε) : Inv T S ⟨mem, 0, 0, 0, errno, env⟩ [] [] where
  list := ⟨rfl, trivial⟩
  separated := List.Pairwise.nil
  header := by simp
  sized := by simp
  inside := by simp
  live_disj := List.Pairwise.nil
  free_live := by simp
  none _ := rfl
  start_lt h := absurd rfl h
  start_align := Nat.dvd_zero _
  end_le := Nat.zero_le _
  tiled _ h := absurd rfl h

namespace Inv

theorem start_le (hi : Inv T S h free live) : h.sbrkStart ≤ h.sbrkEnd := by
  by_cases h0 : h.sbrkStart = 0
  · omega
  · exact (hi.start_lt h0).le

theorem perm {live' : List Span} (hi : Inv T S h free live) (hp : live.Perm live') :
    Inv T S h free live' :=
  have hpa : (free ++ live).Perm (free ++ live') := List.Perm.append_left free hp
  { hi with
    header := fun c hc => hi.header c (hp.mem_iff.mpr hc)
    sized := fun c hc => hi.sized c (hpa.mem_iff.mpr hc)
    inside := fun c hc => hi.inside c (hpa.mem_iff.mpr hc)
    live_disj := (hp.pairwise_iff fun hab => Disj.symm hab).mp hi.live_disj
    free_live := fun c hc d hd => hi.free_live c hc d (hp.mem_iff.mpr hd)
    none := fun h0 => List.length_eq_zero_iff.mp (by rw [← hpa.length_eq, hi.none h0]; rfl)
    tiled := fun hx h0 =>
      have ht := hi.tiled hx h0
      { ht with fill := fun a h1 h2 => (covered_perm hpa).mp (ht.fill a h1 h2) } }

section Contract
variable (hS : Contract T S)
include hS

theorem end_lt (hi : Inv T S h free live) : h.sbrkEnd < T.sbrkFailure :=
  hi.end_le.trans_lt (hS.brk_lt h.env)

theorem fit (hi : Inv T S h free live) {c : Span} (hc : c ∈ free ++ live) : Fit T c := by
  have h1 := hi.inside c hc
  have h2 := hi.end_lt hS
  refine ⟨?_, (hi.sized c hc).min, by have := h1.hi; unfold Target.sbrkFailure at h2; omega⟩
  by_contra h0
  have hs : h.sbrkStart = 0 := by have := h1.lo; omega
  rw [hi.none hs] at hc
  cases hc

theorem fit_free (hi : Inv T S h free live) : ∀ c ∈ free, Fit T c :=
  fun _ hc => hi.fit hS (List.mem_append_left _ hc)

theorem fit_live (hi : Inv T S h free live) : ∀ c ∈ live, Fit T c :=
  fun _ hc => hi.fit hS (List.mem_append_right _ hc)

theorem length_free (hi : Inv T S h free live) : free.length < T.space :=
  length_lt_space hi.separated (hi.fit_free hS)

/-- The list of the invariant is the one a walk finds. -/
theorem freeChunks_eq (hi : Inv T S h free live) : freeChunks T h = some free :=
  hi.list.freeChunks_eq (hi.fit_free hS) (hi.length_free hS)

end Contract

theorem pairwise_disj (hi : Inv T S h free live) : (free ++ live).Pairwise Disj :=
  List.pairwise_append.mpr ⟨hi.separated.disj, hi.live_disj, hi.free_live⟩

/-- **The chunks `old` and the free list are rebuilt** into `new` and `free'`, which cover the same
addresses; the other chunks are not touched. -/
theorem change {rest free' : List Span} (old new : List Span) (hi : Inv T S h free (old ++ rest))
    (hfr : Frame (free ++ old) h h')
    (hcov : ∀ a, Covered (free' ++ new) a ↔ Covered (free ++ old) a)
    (hlist : HeadList T h' 0 free') (hsep : Separated free')
    (hhead : ∀ c ∈ new, h'.size T c.start = c.size) (hsized : ∀ c ∈ free' ++ new, Sized T c)
    (hnew : new.Pairwise Disj) (hdis : ∀ c ∈ free', ∀ d ∈ new, c.Disj d) :
    Inv T S h' free' (new ++ rest) := by
  have hsub : ∀ d ∈ rest, d ∈ free ++ (old ++ rest) := fun d hd => by simp [hd]
  have hold : ∀ c ∈ free ++ old, c ∈ free ++ (old ++ rest) := fun c hc => by
    rcases List.mem_append.mp hc with hc | hc <;> simp [hc]
  -- a chunk of `rest` is disjoint from the old chunks, so it shares no address with the new ones
  have hrest : ∀ c ∈ free ++ old, ∀ d ∈ rest, c.Disj d := by
    intro c hc d hd
    rcases List.mem_append.mp hc with hc | hc
    · exact hi.free_live c hc d (by simp [hd])
    · exact (List.pairwise_append.mp hi.live_disj).2.2 c hc d hd
  have hrest' : ∀ c ∈ free' ++ new, ∀ d ∈ rest, c.Disj d := by
    intro c hc d hd
    exact disj_of_covered (hsized c hc).pos (hi.sized d (hsub d hd)).pos
      (fun a h1 h2 => (hcov a).mp ⟨c, hc, h1, h2⟩) fun x hx => hrest x hx d hd
  have hin : ∀ c ∈ free' ++ new, Inside h c := fun c hc =>
    Inside.of_covered (hsized c hc).pos (fun x hx => hi.inside x (hold x hx))
      fun a h1 h2 => (hcov a).mp ⟨c, hc, h1, h2⟩
  have hmem : ∀ c ∈ free' ++ (new ++ rest), c ∈ free' ++ new ∨ c ∈ rest := fun c hc => by
    rwa [← List.append_assoc, List.mem_append] at hc
  have hcov' : ∀ a, Covered (free' ++ (new ++ rest)) a ↔ Covered (free ++ (old ++ rest)) a := by
    intro a
    rw [← List.append_assoc, covered_append, hcov a, ← covered_append, List.append_assoc]
  refine ⟨hlist, hsep, fun c hc => ?_, fun c hc => ?_, fun c hc => ?_, ?_, fun c hc d hd => ?_, ?_,
    ?_, ?_, ?_, fun hx h0 => ?_⟩
  · rcases List.mem_append.mp hc with hc | hc
    · exact hhead c hc
    · rw [← hi.header c (by simp [hc])]
      have hmin := (hi.sized c (hsub c hc)).min
      unfold mallocMinSize at hmin
      exact hfr.size_eq (fun x hx => hrest x hx c hc) (by omega)
  · rcases hmem c hc with hc | hc
    · exact hsized c hc
    · exact hi.sized c (hsub c hc)
  · have : Inside h c := by
      rcases hmem c hc with hc | hc
      · exact hin c hc
      · exact hi.inside c (hsub c hc)
    exact ⟨by rw [hfr.sbrkStart]; exact this.lo, by rw [hfr.sbrkEnd]; exact this.hi⟩
  · refine List.pairwise_append.mpr ⟨hnew, (List.pairwise_append.mp hi.live_disj).2.1, ?_⟩
    exact fun c hc d hd => hrest' c (by simp [hc]) d hd
  · rcases List.mem_append.mp hd with hd | hd
    · exact hdis c hc d hd
    · exact hrest' c (by simp [hc]) d hd
  · intro h0
    rw [hfr.sbrkStart] at h0
    refine List.eq_nil_iff_forall_not_mem.mpr fun c hc => ?_
    have hpos : 0 < c.size := by
      rcases hmem c hc with hc | hc
      · exact (hsized c hc).pos
      · exact (hi.sized c (hsub c hc)).pos
    have hcv := (hcov' c.start).mp ⟨c, hc, le_rfl, by unfold stop; omega⟩
    rw [hi.none h0] at hcv
    exact not_covered_nil hcv
  · rw [hfr.sbrkStart, hfr.sbrkEnd]; exact hi.start_lt
  · rw [hfr.sbrkStart]; exact hi.start_align
  · rw [hfr.sbrkEnd, hfr.env]; exact hi.end_le
  · rw [hfr.sbrkStart] at h0
    exact (hi.tiled hx h0).frame hfr fun a => (hcov' a).mpr

end Inv

end Noc.Malloc
