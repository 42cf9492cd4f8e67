import Noc.Malloc.Run

/-! # The chunk at the end of the heap

When no free chunk is large enough, `noc_malloc` means to extend the last one, if it ends at
`sbrk_end`, by the bytes it lacks (`Extends`). But the search loop runs until `*parent` is `NULL`,
so `chunk_grow` is only ever called with `NULL`, and the whole size is asked of `sbrk`. What was
meant happens for no request that leads to a call of `sbrk` (`extends_iff`).

What a call asks for is seen with an `sbrk` that keeps a record (`traced`). -/

namespace Noc.Malloc

open Noc.Lib.Bytes Noc.Lib.Spans Noc.Lib.Spans.Span Noc.Targets Noc.Unistd

variable {ε : Type} {T : Target} {S : Sbrk ε} {w : World ε} {h : Heap ε}
variable {free live pre : List Span} {c : Span} {n size : ℕ}

/-- `sbrk` with a record of the increments it has been asked for. -/
def traced (S : Sbrk ε) : Sbrk (ε × List ℤ) where
  call e incr := ((S.call e.1 incr).1, (S.call e.1 incr).2, e.2 ++ [incr])
  brk e := S.brk e.1

/-- The heap with an empty record. -/
def Heap.traced (h : Heap ε) : Heap (ε × List ℤ) :=
  ⟨h.mem, h.sbrkStart, h.sbrkEnd, h.head, h.errno, h.env, []⟩

/-- What the last chunk `c` lacks for a request of `n` bytes, and at least a chunk. -/
def shortfall (T : Target) (c : Span) (n : ℕ) : ℕ :=
  max (mallocMinSize T) (roundedSize T n - c.size)

/-- `sbrk` continues the heap by the shortfall. -/
def Supplied (T : Target) (S : Sbrk ε) (h : Heap ε) (c : Span) (n : ℕ) : Prop :=
  shortfall T c n ≤ T.intptrMax ∧ (S.call h.env (shortfall T c n)).1 = h.sbrkEnd

/-- `malloc(n)` with the free list `pre ++ [c]` asks for the shortfall only; if it gets that, the
block starts at `c`, which leaves the list; and else only, it returns `NULL`. -/
def Extends (T : Target) (S : Sbrk ε) (h : Heap ε) (pre : List Span) (c : Span) (n : ℕ) : Prop :=
  ∃ ptr h', nocMalloc T (traced S) n h.traced = some (ptr, h') ∧
    (∀ incr ∈ h'.env.2, incr = shortfall T c n) ∧
    (Supplied T S h c n → ptr = dataOf T c ∧ freeChunks T h' = some pre ∧
      roundedSize T n ≤ (chunkOf T h' ptr).size ∧ ∀ d ∈ pre, d.Disj (chunkOf T h' ptr)) ∧
    (ptr = 0 → ¬ Supplied T S h c n)

/-- A size up to `INTPTR_MAX` is asked for. -/
theorem mem_asked {h : Heap (ε × List ℤ)} (hn : size ≤ T.intptrMax) :
    (size : ℤ) ∈ (alignedSbrk T (traced S) size h).2.env.2 := by
  rw [alignedSbrk, if_neg (by omega)]
  unfold traced
  dsimp only
  split_ifs <;> simp

theorem roundedSize_le (hn : n < T.space) : roundedSize T n ≤ T.space + T.ptrBytes := by
  obtain ⟨r, h1, -, h2, h3⟩ := roundedSize_eq T n
  have := Nat.le_of_lt_add_of_dvd (show r < T.space + T.mallocAlign by omega) h3 T.align_dvd_space
  omega

/-- A call that asks for another size than the shortfall. -/
theorem not_extends (hmax : chunkSizeForData T n ≤ T.intptrMax)
    (hne : chunkSizeForData T n ≠ shortfall T c n)
    (hrun : nocMalloc T (traced S) n h.traced =
      some (fromSbrk T (traced S) (chunkSizeForData T n) h.traced)) : ¬ Extends T S h pre c n := by
  rintro ⟨ptr, h', h1, h2, -⟩
  rw [hrun] at h1
  have hmem := mem_asked (S := S) (h := h.traced) hmax
  have henv := fromSbrk_env T (traced S) (chunkSizeForData T n) h.traced
  rw [Option.some.inj h1] at henv
  rw [← henv] at hmem
  exact hne (by exact_mod_cast h2 _ hmem)

section Contract
variable (hS : Contract T S) (hi : Inv T S h (pre ++ [c]) live)
include hS hi

/-- A shortfall that the end of the address space has no room for is not supplied. -/
theorem not_supplied (hend : c.stop = h.sbrkEnd) (hr : T.space ≤ roundedSize T n) :
    ¬ Supplied T S h c n := by
  rintro ⟨hmax, hp⟩
  have hcall := hS.call_cases h.env _ hmax
  have hlt := hS.brk_lt (S.call h.env (shortfall T c n)).2
  have hlt' := hi.end_lt hS
  have hshort := le_max_right (mallocMinSize T) (roundedSize T n - c.size)
  unfold stop at hend
  unfold shortfall at *
  unfold Target.sbrkFailure at *
  omega

/-- The call with the recording `sbrk`. -/
theorem nocMalloc_traced (hn0 : n ≠ 0) :
    ((∀ d ∈ pre ++ [c], chunkSizeForData T n ≤ d.size →
        chunkSizeForData T n + (2 ^ 32 - 1) ≤ d.size) ∧
      nocMalloc T (traced S) n h.traced =
        some (fromSbrk T (traced S) (chunkSizeForData T n) h.traced)) ∨
    ∃ l d l', pre ++ [c] = l ++ d :: l' ∧ BestFit (chunkSizeForData T n) l d l' ∧
      d.size - chunkSizeForData T n < 2 ^ 32 - 1 ∧
      nocMalloc T (traced S) n h.traced =
        some (d.start + T.ptrBytes, allocate T (chunkSizeForData T n) h.traced l d l') := by
  have hlist : HeadList T h.traced 0 (pre ++ [c]) := hi.list
  rcases nocMalloc_eq hlist (hi.fit_free hS) (hi.length_free hS)
    (fun d hd => (hi.sized d (List.mem_append_left live hd)).size) hn0 with
    ⟨h1, h2⟩ | ⟨l, d, l', h1, h2, hextra, h3⟩
  · exact Or.inl ⟨h1, h2 (traced S)⟩
  · exact Or.inr ⟨l, d, l', h1, h2, hextra, h3 (traced S)⟩

/-- A size that does not wrap is asked for in full, unless it is beyond `INTPTR_MAX`. -/
theorem extends_iff_of_lt (hn0 : n ≠ 0) (hr : roundedSize T n < T.space)
    (hfull : ∀ d ∈ pre ++ [c], d.size < roundedSize T n) :
    Extends T S h pre c n ↔ T.intptrMax < roundedSize T n ∧ ¬ Supplied T S h c n := by
  have hwb := T.ptrBytes_bounds
  have hcmin := (hi.fit_free hS c (by simp)).min
  have hc := hfull c (by simp)
  have hmod : chunkSizeForData T n = roundedSize T n := by
    rw [chunkSizeForData_mod, Nat.mod_eq_of_lt hr]
  rcases nocMalloc_traced hS hi hn0 with ⟨-, hrun⟩ | ⟨l, d, l', hl, hb, -⟩
  swap
  · have h1 := hb.fits
    have h2 := hfull d (by simp [hl])
    omega
  by_cases hmax : T.intptrMax < roundedSize T n
  · rw [hmod, fromSbrk, alignedSbrk, if_pos hmax, if_pos rfl] at hrun
    rw [and_iff_right hmax]
    refine ⟨?_, fun hsup => ⟨0, h.traced, hrun, fun incr hin => ?_, fun h1 => absurd h1 hsup,
      fun _ => hsup⟩⟩
    · rintro ⟨ptr, h', h1, -, -, h2⟩
      rw [hrun] at h1
      exact h2 (Prod.mk.inj (Option.some.inj h1)).1.symm
    · cases hin
  · refine iff_of_false (not_extends (by omega) ?_ hrun) fun hx => hmax hx.1
    unfold shortfall mallocMinSize
    omega

/-- A size that wraps is that of no chunk, and every chunk is large enough for it. -/
theorem extends_iff_of_le (hn0 : n ≠ 0) (hn : n < T.space) (hr : T.space ≤ roundedSize T n)
    (hend : c.stop = h.sbrkEnd) :
    Extends T S h pre c n ↔
      ∃ d ∈ pre ++ [c], d.size + T.space < roundedSize T n + (2 ^ 32 - 1) := by
  have hwb := T.ptrBytes_bounds
  have hspace := T.space_bounds
  have hle := roundedSize_le hn
  have hmin : ∀ d ∈ pre ++ [c], 2 * T.ptrBytes ≤ d.size := fun d hd => (hi.fit_free hS d hd).min
  have hmod : chunkSizeForData T n = roundedSize T n - T.space := by
    rw [chunkSizeForData_mod, Nat.mod_eq_sub_mod hr, Nat.mod_eq_of_lt (by omega)]
  have hsup := not_supplied hS hi hend hr
  rcases nocMalloc_traced hS hi hn0 with ⟨hnofit, hrun⟩ | ⟨l, d, l', hl, hb, hextra, hrun⟩
  · refine iff_of_false (not_extends (by omega) ?_ hrun) ?_
    · unfold shortfall mallocMinSize
      omega
    · rintro ⟨d, hd, hlt⟩
      have h1 := hmin d hd
      have h2 := hnofit d hd (by omega)
      omega
  · have hd := hmin d (by simp [hl])
    have hpos := (hi.fit_free hS d (by simp [hl])).pos
    refine iff_of_true ⟨_, _, hrun, fun incr hin => ?_, fun h0 => absurd h0 hsup, fun _ => hsup⟩
      ⟨d, by simp [hl], by omega⟩
    unfold allocate at hin
    split_ifs at hin
    · simp [Heap.traced] at hin
    · simp [Heap.traced] at hin

end Contract

/-- **When the last chunk is extended as it is meant to be**: when `sbrk` is not called. The request
is beyond `INTPTR_MAX`, and `sbrk` does not have the shortfall either; or its size has wrapped, and
some chunk is free for what is left of it. -/
theorem extends_iff (hS : Contract T S) (hw : Reachable T S w) (hn : n < T.space)
    (hf : freeChunks T w.heap = some (pre ++ [c])) (hend : c.stop = w.heap.sbrkEnd)
    (hfull : ∀ d ∈ pre ++ [c], d.size < roundedSize T n) :
    Extends T S w.heap pre c n ↔
      (roundedSize T n < T.space → T.intptrMax < roundedSize T n ∧ ¬ Supplied T S w.heap c n) ∧
      (T.space ≤ roundedSize T n →
        ∃ d ∈ pre ++ [c], d.size + T.space < roundedSize T n + (2 ^ 32 - 1)) := by
  obtain ⟨free, chunks, hi, -⟩ := hw.ok hS
  rw [hi.freeChunks_eq hS] at hf
  obtain rfl := Option.some.inj hf
  have hn0 : n ≠ 0 := by
    rintro rfl
    obtain ⟨r, h1, -, h2, h3⟩ := roundedSize_eq T 0
    have h4 := Nat.eq_zero_of_dvd_of_lt h3 (by omega)
    have h5 := (hi.fit_free hS c (by simp)).min
    have h6 := hfull c (by simp)
    have h7 := T.ptrBytes_bounds
    omega
  rcases Nat.lt_or_ge (roundedSize T n) T.space with hr | hr
  · rw [extends_iff_of_lt hS hi hn0 hr hfull]
    exact ⟨fun hx => ⟨fun _ => hx, fun h0 => absurd hr (by omega)⟩, fun hx => hx.1 hr⟩
  · rw [extends_iff_of_le hS hi hn0 hn hr hend]
    exact ⟨fun hx => ⟨fun h0 => absurd hr (by omega), fun _ => hx⟩, fun hx => hx.2 hr⟩

/-- An arena with room for 160 bytes. -/
def narrowArena : Sbrk (Break .x8664) := arena .x8664 4256

/-- The world after `malloc(24)` and `free(malloc(88))`, with 32 bytes left in the arena. -/
def trailingWorld : World (Break .x8664) :=
  ((arenaWorld.next .x8664 narrowArena (.malloc 24)).next .x8664 narrowArena
    (.malloc 88)).next .x8664 narrowArena (.free 4136)

theorem trailingWorld_reachable : Reachable .x8664 narrowArena trailingWorld := by
  have hS : Contract .x8664 narrowArena := arena_contract .x8664 _
  refine Reachable.next_free hS (Reachable.next_malloc hS (Reachable.next_malloc hS ?_ ?_) ?_)
    (by decide +kernel)
  · exact Reachable.init _ _ _
  all_goals exact ⟨by decide, by decide⟩

theorem extends_iff_trailing :
    Extends .x8664 narrowArena trailingWorld.heap [] ⟨4128, 96⟩ 120 ↔
      (roundedSize .x8664 120 < Target.space .x8664 →
        Target.intptrMax .x8664 < roundedSize .x8664 120 ∧
          ¬ Supplied .x8664 narrowArena trailingWorld.heap ⟨4128, 96⟩ 120) ∧
      (Target.space .x8664 ≤ roundedSize .x8664 120 → ∃ d ∈ [] ++ [(⟨4128, 96⟩ : Span)],
        d.size + Target.space .x8664 < roundedSize .x8664 120 + (2 ^ 32 - 1)) :=
  extends_iff (arena_contract _ _) trailingWorld_reachable (by decide) (by decide +kernel)
    (by decide +kernel) (by decide)

/-- A `malloc(120)` fails though the last chunk lacks only the 32 bytes that `sbrk` has. -/
theorem last_chunk_not_extended : Reachable .x8664 narrowArena trailingWorld ∧
    freeChunks .x8664 trailingWorld.heap = some [⟨4128, 96⟩] ∧
    trailingWorld.heap.sbrkEnd = 4128 + 96 ∧ 96 < roundedSize .x8664 120 ∧
    shortfall .x8664 ⟨4128, 96⟩ 120 = 32 ∧
    ¬ Extends .x8664 narrowArena trailingWorld.heap [] ⟨4128, 96⟩ 120 := by
  refine ⟨trailingWorld_reachable, by decide +kernel, by decide +kernel, by decide, by decide, ?_⟩
  rintro ⟨ptr, h', h1, -, -, h2⟩
  have hnull : (nocMalloc .x8664 (traced narrowArena) 120 trailingWorld.heap.traced).map Prod.fst =
      some 0 := by decide +kernel
  rw [h1, Option.map_some] at hnull
  exact h2 (Option.some.inj hnull) ⟨by decide, by decide +kernel⟩

end Noc.Malloc
