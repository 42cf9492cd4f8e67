import Noc.Malloc.Run

/-! # Best fit

`min_extra` is a `size_t` that starts as `-1U`, the largest `unsigned int`. Where a `size_t` has
more bits than that, the search passes over a chunk that exceeds the request by as much or more,
even if it is the only one. `best_fit_iff`: a request is served from the best fit (`ServesBestFit`)
exactly if some free chunk that is large enough exceeds it by less. -/

namespace Noc.Malloc

open Noc.Lib.Bytes Noc.Lib.Spans Noc.Lib.Spans.Span Noc.Targets Noc.Unistd

variable {ε : Type} {T : Target} {S : Sbrk ε} {w : World ε} {h h' : Heap ε}
variable {free live pre post : List Span} {c : Span} {n size : ℕ}

/-- The chunk `c` of the free list `pre ++ c :: post` has been allocated for `size` bytes: its rest
takes its place, or is part of the block when it is too small for a chunk. -/
structure Carved (T : Target) (size : ℕ) (h : Heap ε) (pre : List Span) (c : Span)
    (post : List Span) (h' : Heap ε) : Prop where
  whole : c.size - size < mallocMinSize T →
    freeChunks T h' = some (pre ++ post) ∧ chunkOf T h' (dataOf T c) = c
  front : mallocMinSize T ≤ c.size - size →
    freeChunks T h' = some (pre ++ ⟨c.start + size, c.size - size⟩ :: post) ∧
      chunkOf T h' (dataOf T c) = ⟨c.start, size⟩
  frame : Frame (pre ++ c :: post) h h'

/-- `malloc(n)` returns the start of the best fit, whatever `sbrk` would do. -/
def ServesBestFit (T : Target) (h : Heap ε) (n : ℕ) : Prop :=
  ∃ pre c post h', freeChunks T h = some (pre ++ c :: post) ∧
    BestFit (roundedSize T n) pre c post ∧ Carved T (roundedSize T n) h pre c post h' ∧
    ∀ S : Sbrk ε, nocMalloc T S n h = some (dataOf T c, h')

/-- An environment without memory. -/
def noSbrk (T : Target) : Sbrk ε := ⟨fun e _ => (T.sbrkFailure, e), fun _ => 0⟩

theorem roundedSize_gt (hn : n ≠ 0) : T.ptrBytes < roundedSize T n := by
  obtain ⟨r, h1, h2, -, -⟩ := roundedSize_eq T n
  omega

theorem alignedSbrk_noSbrk : (alignedSbrk T (noSbrk T) n h).1 = T.sbrkFailure := by
  by_cases hmax : T.intptrMax < n
  · rw [alignedSbrk, if_pos hmax]
  · have hcall : (noSbrk T).call h.env n = (T.sbrkFailure, h.env) := rfl
    rw [alignedSbrk_fail (by omega) hcall]

theorem carved_allocate (hl : HeadList T h 0 (pre ++ c :: post))
    (hf : ∀ d ∈ pre ++ c :: post, Fit T d) (hd : (pre ++ c :: post).Pairwise Disj)
    (hlen : (pre ++ c :: post).length < T.space) (hfits : size ≤ c.size)
    (hsize : T.ptrBytes ≤ size) :
    Carved T size h pre c post (allocate T size h pre c post) := by
  have hw := T.ptrBytes_bounds
  have hc := hf c (by simp)
  have hlt := hc.lt
  unfold stop at hlt
  have hchunk : ∀ h' : Heap ε, chunkOf T h' (dataOf T c) = ⟨c.start, h'.size T c.start⟩ :=
    fun h' => by rw [chunkOf, chunkFromData_dataOf hc]
  have hhead : (allocate T size h pre c post).size T c.start =
      if c.size - size < mallocMinSize T then c.size else size := allocate_size (by omega) hfits
  have hsub := sublist_middle pre post c
  by_cases hrest : c.size - size < mallocMinSize T
  · rw [if_pos hrest] at hhead
    have hheap := hl.take hf hd c.size
    have hall : allocate T size h pre c post =
        (h.setLink T (linkAfter pre) (headOr 0 post)).setSize T c.start c.size := if_pos hrest
    rw [← hall] at hheap
    refine ⟨fun _ => ⟨hheap.1.freeChunks_eq (fun d hd => hf d (hsub.subset hd))
      (hsub.length_le.trans_lt hlen), ?_⟩, fun h0 => absurd hrest (by omega), hheap.2⟩
    rw [hchunk, hhead]
  · rw [if_neg hrest] at hhead
    have hextra : 2 * T.ptrBytes ≤ c.size - size := by unfold mallocMinSize at hrest; omega
    have hheap := hl.takeFront hf hd (o := c.start + size) rfl (by omega) hsize hextra
    have hall : allocate T size h pre c post = _ := if_neg hrest
    rw [← hall] at hheap
    have hpos := hc.pos
    have hfit : ∀ d ∈ pre ++ ⟨c.start + size, c.size - size⟩ :: post, Fit T d :=
      forall_mem_insert ⟨by simp only; omega, hextra, by simp only [stop_mk]; omega⟩
        fun d hd => hf d (hsub.subset hd)
    refine ⟨fun h0 => absurd h0 hrest, fun _ => ⟨hheap.1.freeChunks_eq hfit ?_, ?_⟩, hheap.2⟩
    · simpa using hlen
    · rw [hchunk, hhead]

/-- **When the best fit is served.** On a target whose `size_t` has 32 bits, it always is. -/
theorem best_fit_iff (hS : Contract T S) (hw : Reachable T S w) (hn : n ≠ 0)
    (hr : roundedSize T n < T.space) (hf : freeChunks T w.heap = some free)
    (hfits : ∃ d ∈ free, roundedSize T n ≤ d.size) :
    (ServesBestFit T w.heap n ↔
      ∃ d ∈ free, roundedSize T n ≤ d.size ∧ d.size < roundedSize T n + (2 ^ 32 - 1)) ∧
    (T.ptrBytes = 4 → ServesBestFit T w.heap n) := by
  obtain ⟨free', chunks, hi, -⟩ := hw.ok hS
  rw [hi.freeChunks_eq hS] at hf
  obtain rfl := Option.some.inj hf
  have hgt := roundedSize_gt (T := T) hn
  have hsize : chunkSizeForData T n = roundedSize T n := by
    rw [chunkSizeForData_mod, Nat.mod_eq_of_lt hr]
  have hiff : ServesBestFit T w.heap n ↔
      ∃ d ∈ free', roundedSize T n ≤ d.size ∧ d.size < roundedSize T n + (2 ^ 32 - 1) := by
    rcases hi.nocMalloc_eq hS hn with ⟨h2, h1⟩ | ⟨pre, c, post, rfl, h2, h3, h4⟩
    · -- every chunk that is large enough is passed over, and `sbrk` decides
      rw [hsize] at h2
      refine iff_of_false ?_ ?_
      · rintro ⟨pre, c, post, h', hl, -, -, hall⟩
        rw [hi.freeChunks_eq hS] at hl
        have hpos := (hi.fit_free hS c (by simp [Option.some.inj hl])).pos
        have hrun := hall (noSbrk T)
        rw [h1 (noSbrk T), fromSbrk, alignedSbrk_noSbrk, if_pos rfl] at hrun
        have := (Prod.mk.inj (Option.some.inj hrun)).1
        unfold dataOf at this; omega
      · rintro ⟨d, hd, h5, h6⟩
        have := h2 d hd h5
        omega
    · have hfit := h2.fits
      refine iff_of_true ?_ ⟨c, by simp, hsize ▸ hfit, by omega⟩
      refine ⟨pre, c, post, allocate T (roundedSize T n) w.heap pre c post, hi.freeChunks_eq hS,
        hsize ▸ h2, ?_, fun S' => ?_⟩
      · exact carved_allocate hi.list (hi.fit_free hS) hi.separated.disj (hi.length_free hS)
          (hsize ▸ hfit) (by omega)
      · rw [h4 S', hsize]
        rfl
  refine ⟨hiff, fun h4 => hiff.mpr ?_⟩
  obtain ⟨d, hd, hle⟩ := hfits
  have hlt := (hi.fit_free hS d hd).lt
  have hspace : T.space = 2 ^ 32 := by unfold Target.space; rw [h4]; rfl
  unfold stop at hlt
  exact ⟨d, hd, hle, by omega⟩

/-- An arena with room for a little more than 4 GiB. -/
def wideArena : Sbrk (Break .x8664) := arena .x8664 (4096 + 2 ^ 32 + 40)

/-- The world after `free(malloc(4294967328))`, which uses up the arena. -/
def wideWorld : World (Break .x8664) :=
  (arenaWorld.next .x8664 wideArena (.malloc (2 ^ 32 + 32))).next .x8664 wideArena (.free 4104)

theorem wideWorld_reachable : Reachable .x8664 wideArena wideWorld := by
  have hS : Contract .x8664 wideArena := arena_contract .x8664 _
  refine Reachable.next_free hS (Reachable.next_malloc hS (Reachable.init _ _ _) ?_)
    (by decide +kernel)
  exact ⟨by decide, by decide⟩

theorem best_fit_iff_wide :
    (ServesBestFit .x8664 wideWorld.heap (2 ^ 32) ↔
      ∃ d ∈ [(⟨4096, 2 ^ 32 + 40⟩ : Span)], roundedSize .x8664 (2 ^ 32) ≤ d.size ∧
        d.size < roundedSize .x8664 (2 ^ 32) + (2 ^ 32 - 1)) ∧
    (Target.ptrBytes .x8664 = 4 → ServesBestFit .x8664 wideWorld.heap (2 ^ 32)) :=
  best_fit_iff (arena_contract _ _) wideWorld_reachable (by decide) (by decide)
    (by decide +kernel) (by decide)

/-- A `malloc(24)` fails with more than 4 GiB free. -/
theorem best_fit_missed : Reachable .x8664 wideArena wideWorld ∧
    freeChunks .x8664 wideWorld.heap = some [⟨4096, 2 ^ 32 + 40⟩] ∧
    ¬ ServesBestFit .x8664 wideWorld.heap 24 := by
  refine ⟨wideWorld_reachable, by decide +kernel, ?_⟩
  rintro ⟨pre, c, post, h', -, -, -, hall⟩
  have hnull : (nocMalloc .x8664 wideArena 24 wideWorld.heap).map Prod.fst = some 0 := by
    decide +kernel
  rw [hall, Option.map_some] at hnull
  exact absurd (Option.some.inj hnull) (Nat.succ_ne_zero _)

end Noc.Malloc
