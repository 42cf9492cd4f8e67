import Noc.Malloc.Run

/-! # Freeing a chunk twice

The test of `noc_free` for a double free stands behind the test `prev < chunk` of the loop, so it
never succeeds; and the link of the chunk has been overwritten before the loop starts. A chunk that
is freed while it is in the free list becomes its own successor (`nocFree_listed`), and no walk over
the list ends any more (`chunksFrom_self`). -/

namespace Noc.Malloc

open Noc.Lib.Bytes Noc.Lib.Spans Noc.Lib.Spans.Span Noc.Targets Noc.Unistd

variable {ε : Type} {T : Target} {S : Sbrk ε} {w : World ε} {h : Heap ε}
variable {free live pre post : List Span} {c : Span}

/-- `free(ptr)` returns, and the free list and the bounds of the heap are the same. -/
def FreeHarmless (T : Target) (h : Heap ε) (ptr : ℕ) : Prop :=
  ∃ h', nocFree T ptr h = some h' ∧ freeChunks T h' = freeChunks T h ∧
    h'.sbrkStart = h.sbrkStart ∧ h'.sbrkEnd = h.sbrkEnd

/-! ### Lists that do not end -/

/-- A chunk that is its own successor keeps a walk forever. -/
theorem chunksFrom_self {chunk : ℕ} (hself : h.link T (.next chunk) = chunk) (h0 : chunk ≠ 0) :
    ∀ fuel, chunksFrom T h fuel (.next chunk) = none
  | 0 => rfl
  | fuel + 1 => by
    rw [chunksFrom, hself, if_neg h0, chunksFrom_self hself h0 fuel]
    rfl

/-- A walk that does not end from a later link does not end from an earlier one. -/
theorem chunksFrom_none {v : ℕ} : ∀ (pre post : List Span), HeadList T h v (pre ++ post) →
    (∀ d ∈ pre ++ post, Fit T d) →
    (∀ fuel, chunksFrom T h fuel (linkAfter (pre ++ post)) = none) →
      ∀ fuel, chunksFrom T h fuel (linkAfter pre) = none
  | pre, [], _, _, hend, fuel => by simpa using hend fuel
  | pre, d :: post, hl, hf, hend, fuel => by
    cases fuel with
    | zero => rfl
    | succ fuel =>
      have hpos := (hf d (by simp)).pos
      have hpre := (headList_append.mp hl).1
      have ih := chunksFrom_none (pre ++ [d]) post (by simpa using hl)
        (by simpa using hf) (by simpa using hend) fuel
      rw [linkAfter_concat] at ih
      rw [chunksFrom, hpre.link_after fun x hx => hf x (by simp [hx]), headOr_cons,
        if_neg (by omega), ih]
      rfl

/-- A list whose last node leads back to itself has no end. -/
theorem HeadList.freeChunks_none (hl : HeadList T h c.start (pre ++ [c]))
    (hf : ∀ d ∈ pre ++ [c], Fit T d) : freeChunks T h = none := by
  have hc := hf c (by simp)
  have hpos := hc.pos
  have hself : h.link T (.next c.start) = c.start := by
    have hafter := hl.link_after hf
    rwa [linkAfter_concat] at hafter
  refine chunksFrom_none [] (pre ++ [c]) hl hf ?_ _
  rw [List.nil_append, linkAfter_concat]
  exact chunksFrom_self hself (by omega)

/-! ### The walk to a chunk in the list -/

/-- The loop of `noc_free` on a chunk of the list stops at the link that leads to it, and takes this
for the place to insert it. -/
theorem freeLoop_listed {v : ℕ} : ∀ (fuel : ℕ) (pre mid : List Span),
    HeadList T h v (pre ++ mid ++ [c]) → (∀ d ∈ pre ++ mid ++ [c], Fit T d) →
    (∀ d ∈ mid, d.stop < c.start) → mid.length < fuel →
      freeLoop T h c.start fuel (linkAfter pre) = some (.insert (linkAfter (pre ++ mid)) c.start)
  | fuel + 1, pre, [], hl, hf, _, _ => by
    rw [List.append_nil] at hl hf ⊢
    have hpre := (headList_append.mp hl).1
    rw [freeLoop, hpre.link_after fun x hx => hf x (by simp [hx]), headOr_cons, if_neg (by omega)]
  | fuel + 1, pre, d :: mid, hl, hf, hlt, hlen => by
    have hd := hf d (by simp)
    have hpos := hd.pos
    have hdc := hlt d (by simp)
    have hdc' : d.start < c.start := by unfold stop at hdc; omega
    have hl' : HeadList T h v (pre ++ d :: (mid ++ [c])) := by simpa using hl
    have hpre := (headList_append.mp hl').1
    have hsize : h.size T d.start = d.size := (headList_append.mp hl').2.1
    have ih := freeLoop_listed fuel (pre ++ [d]) mid (by simpa using hl)
      (by simpa using hf) (fun x hx => hlt x (by simp [hx])) (by simpa using hlen)
    rw [linkAfter_concat, List.append_assoc, List.singleton_append] at ih
    rw [freeLoop, hpre.link_after fun x hx => hf x (by simp [hx]), headOr_cons,
      chunkEnd_eq hd hsize, if_pos ⟨by omega, hdc'⟩, if_neg (by omega), if_neg (by omega), ih]

/-- **A chunk of the list that is freed becomes its own successor**, and the last of the list. -/
theorem nocFree_listed (hS : Contract T S) (hi : Inv T S h (pre ++ c :: post) live) :
    ∃ h', nocFree T (dataOf T c) h = some h' ∧ HeadList T h' c.start (pre ++ [c]) := by
  have hfit := hi.fit_free hS
  have hc := hfit c (by simp)
  have hmin := hc.min
  have hlt := hc.lt
  have hw := T.ptrBytes_bounds
  have hspace := T.space_bounds
  have hin := hi.inside c (by simp)
  have hlo := hin.lo
  have hhi := hin.hi
  have hsub : (pre ++ [c]).Sublist (pre ++ c :: post) :=
    List.Sublist.append_left (List.Sublist.cons_cons c (List.nil_sublist post)) pre
  have hfit' : ∀ d ∈ pre ++ [c], Fit T d := fun d hd => hfit d (hsub.subset hd)
  have hdisj := hi.separated.disj.sublist hsub
  have hbefore : ∀ d ∈ pre, d.stop < c.start := fun d hd =>
    (List.pairwise_append.mp hi.separated).2.2 d hd c (by simp)
  have hlen : pre.length < T.space := by
    have := hi.length_free hS
    rw [List.length_append] at this
    omega
  -- `NULL` is written to the link of the chunk: what follows it is cut off
  have hl : HeadList T h (headOr 0 post) (pre ++ [c]) := by
    have hlist := hi.list
    rw [List.append_cons] at hlist
    exact (headList_append.mp hlist).1
  have hl1 := hl.setLink hfit' hdisj (v := 0) (by omega)
  have hloop := freeLoop_listed T.space [] pre hl1 hfit' hbefore hlen
  -- then its own address
  have hl2 := hl1.setLink hfit' hdisj (v := c.start) (by unfold stop at hlt; omega)
  obtain ⟨hl3, hl4⟩ := headList_append.mp hl2
  have hl5 := hl3.splice (v := c.start) hl4 hfit' hdisj (by unfold stop at hlt; omega)
  rw [linkAfter_concat] at hl1 hl2 hl5 hloop
  have hsize : ∀ {g : Heap ε}, HeadList T g c.start (pre ++ [c]) → g.size T c.start = c.size :=
    fun hg => (headList_append.mp hg).2.1
  refine ⟨_, ?_, hl5⟩
  unfold stop at hlt hhi
  rw [nocFree, chunkFromData_dataOf hc, if_neg (by unfold dataOf; omega)]
  dsimp only
  rw [chunkEnd_eq hc (hl.2.at pre).1, if_neg (by unfold stop; omega)]
  rw [linkAfter_nil, List.nil_append] at hloop
  rw [hloop]
  dsimp only
  rw [headOr_cons] at hl5 ⊢
  rw [mergeRight, chunkEnd_eq hc (hsize hl5), if_neg (by unfold stop; omega)]

/-- **A double free is never harmless**: it returns, and the list has no end. -/
theorem double_free_harmful (hS : Contract T S) (hw : Reachable T S w)
    (hf : freeChunks T w.heap = some free) (hc : c ∈ free) :
    (∃ h', nocFree T (dataOf T c) w.heap = some h' ∧ freeChunks T h' = none) ∧
      ¬ FreeHarmless T w.heap (dataOf T c) := by
  obtain ⟨free', chunks, hi, -⟩ := hw.ok hS
  rw [hi.freeChunks_eq hS] at hf
  obtain rfl := Option.some.inj hf
  obtain ⟨pre, post, rfl⟩ := List.append_of_mem hc
  obtain ⟨h', h1, h2⟩ := nocFree_listed hS hi
  have hfit := hi.fit_free hS
  have hnone := h2.freeChunks_none fun d hd => hfit d (by
    simp only [List.mem_append, List.mem_cons] at hd ⊢
    tauto)
  refine ⟨⟨h', h1, hnone⟩, ?_⟩
  rintro ⟨h'', h3, h4, -⟩
  rw [h1] at h3
  obtain rfl := Option.some.inj h3
  rw [hnone, hi.freeChunks_eq hS] at h4
  cases h4

/-- The world after `free(malloc(24))`. -/
def releasedWorld : World (Break .x8664) := mallocWorld.next .x8664 (arena .x8664 8192) (.free 4104)

theorem releasedWorld_reachable : Reachable .x8664 (arena .x8664 8192) releasedWorld :=
  mallocWorld_reachable.next_free (arena_contract _ _) (by decide +kernel)

theorem double_free_harmful_released :
    (∃ h', nocFree .x8664 4104 releasedWorld.heap = some h' ∧ freeChunks .x8664 h' = none) ∧
      ¬ FreeHarmless .x8664 releasedWorld.heap 4104 :=
  double_free_harmful (c := ⟨4096, 32⟩) (arena_contract _ _) releasedWorld_reachable
    (show freeChunks .x8664 releasedWorld.heap = some [⟨4096, 32⟩] by decide +kernel) (by decide)

/-- `free(p); free(p);` for a block of 24 bytes. -/
theorem double_free : Reachable .x8664 (arena .x8664 8192) releasedWorld ∧
    freeChunks .x8664 releasedWorld.heap = some [⟨4096, 32⟩] ∧
      ¬ FreeHarmless .x8664 releasedWorld.heap 4104 := by
  refine ⟨releasedWorld_reachable, by decide +kernel, ?_⟩
  rintro ⟨h', h1, h2, -⟩
  have h3 : (nocFree .x8664 4104 releasedWorld.heap).map
    (fun h => (h.head, h.link .x8664 (.next 4096))) = some (4096, 4096) := by decide +kernel
  rw [h1, Option.map_some] at h3
  obtain ⟨hhead, hself⟩ := Prod.mk.inj (Option.some.inj h3)
  have hlist : freeChunks .x8664 releasedWorld.heap = some [⟨4096, 32⟩] := by decide +kernel
  obtain ⟨fuel, hfuel⟩ : ∃ fuel, Target.space .x8664 = fuel + 1 := ⟨Target.space .x8664 - 1, rfl⟩
  have hlink : h'.link .x8664 .head = 4096 := hhead
  rw [hlist, freeChunks, hfuel, chunksFrom, hlink, if_neg (by decide),
    chunksFrom_self hself (by decide)] at h2
  cases h2

end Noc.Malloc
