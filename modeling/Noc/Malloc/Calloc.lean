import Noc.Malloc.Limits

/-! # `calloc`

`noc_calloc` checks that the product of its arguments does not overflow, clears as many bytes as the
product says, and allocates a block for `size` bytes only. `calloc_sound_iff` says when the block is
big enough all the same (`CallocSound`): when the product does not need more than the chunk for
`size` bytes has (`RoomFor`), or when there is no block.

`malloc_null_iff`: `malloc` returns `NULL` exactly if there is neither a free chunk (`NoneFree`) nor
memory from `sbrk` (`NoMemory`). -/

namespace Noc.Malloc

open Noc.Lib.Bytes Noc.Lib.Spans Noc.Lib.Spans.Span Noc.Targets Noc.Unistd Noc.Memcpy

variable {ε : Type} {T : Target} {S : Sbrk ε} {w : World ε} {h h' : Heap ε}
variable {free chunks rest : List Span} {c : Span} {ptr n size nmemb : ℕ}

/-! ### When `malloc` returns `NULL` -/

/-- The environment has no memory for a chunk of `size` bytes: the size is beyond `INTPTR_MAX`, or
`sbrk` fails, or it fails to pad a misaligned break, or the data would be at `NULL`. -/
def NoMemory (T : Target) (S : Sbrk ε) (h : Heap ε) (size : ℕ) : Prop :=
  T.intptrMax < size ∨ (S.call h.env size).1 = T.sbrkFailure ∨
  if T.mallocAlign ∣ (S.call h.env size).1 then (S.call h.env size).1 + T.ptrBytes = T.space
  else
    (S.call (S.call h.env size).2 (padding T (S.call h.env size).1)).1 ≠
        (S.call h.env size).1 + size ∨
      (S.call h.env size).1 + (padding T (S.call h.env size).1).toNat + T.ptrBytes = T.space

section Contract
variable (hS : Contract T S)
include hS

theorem noMemory_iff :
    ((alignedSbrk T S size h).1 = T.sbrkFailure ∨ chunkToData T (alignedSbrk T S size h).1 = 0) ↔
      NoMemory T S h size := by
  unfold NoMemory
  cases alignedSbrk_calls hS size h with
  | tooLarge hmax hr =>
    rw [hr]
    exact ⟨fun _ => Or.inl hmax, fun _ => Or.inl rfl⟩
  | failed hn hcall _ hr =>
    rw [hr, hcall]
    exact ⟨fun _ => Or.inr (Or.inl rfl), fun _ => Or.inl rfl⟩
  | aligned hn h1 hd hr =>
    rw [hr, h1.call, or_iff_right hn.not_gt, or_iff_right h1.ne, or_iff_right h1.ne, if_pos hd,
      chunkToData_eq_zero_iff h1.lt]
  | @padded p pad _ _ hn h1 hnd hpad _ h2 _ hr =>
    have hlt : p + pad < T.sbrkFailure := by
      have := h2.stop_lt
      omega
    rw [hr, h1.call, or_iff_right hn.not_gt, or_iff_right h1.ne, or_iff_right hlt.ne, if_neg hnd,
      hpad, h2.call, or_iff_right (not_not.mpr rfl), Int.toNat_natCast,
      chunkToData_eq_zero_iff (hlt.trans_le (Nat.sub_le _ _))]
  | elsewhere hn h1 hnd hpad hcall hne _ hr =>
    rw [hr, h1.call, if_neg hnd, hpad, hcall]
    exact ⟨fun _ => Or.inr (Or.inr (Or.inl hne)), fun _ => Or.inl rfl⟩

/-- **`malloc` returns**, and `NULL` exactly if there is neither a free chunk nor memory for one. A
wrapped request gets a chunk that is smaller than three words. -/
theorem malloc_null_iff (hT : T.DefaultAlign) (hi : Inv T S h free chunks) (hn : n < T.space)
    (hn0 : n ≠ 0) : ∃ ptr h', nocMalloc T S n h = some (ptr, h') ∧
      (ptr = 0 ↔ NoneFree T h (chunkSizeForData T n) ∧ NoMemory T S h (chunkSizeForData T n)) ∧
      (ptr ≠ 0 → T.ptrBytes ≤ ptr ∧ ptr < T.space ∧
        (¬ Representable T n → h'.size T (chunkFromData T ptr) < 3 * T.ptrBytes)) := by
  have hw := T.ptrBytes_bounds
  have hspace := T.space_bounds
  have hwraps : ¬ Representable T n → chunkSizeForData T n ≤ T.ptrBytes := fun hr => by
    rcases chunkSizeForData_wraps hT hn hr with h | h <;> omega
  rw [noneFree_iff h (hi.freeChunks_eq hS)]
  rcases hi.nocMalloc_eq hS hn0 with ⟨h1, h2⟩ | ⟨pre, c, post, rfl, h2, h3, h4⟩
  · rw [h2 S, fromSbrk, and_iff_right h1, ← noMemory_iff hS]
    have hcases := alignedSbrk_cases hS hi.end_le (chunkSizeForData T n)
    split_ifs with hfail
    · exact ⟨0, _, rfl, ⟨fun _ => Or.inl hfail, fun _ => rfl⟩, fun h => absurd rfl h⟩
    · refine ⟨_, _, rfl, (or_iff_right hfail).symm, fun hne => ?_⟩
      have hg := (hcases.resolve_left fun hc => hfail hc.1).2
      have hlt : (alignedSbrk T S (chunkSizeForData T n) h).1 < T.space := by
        have h5 := hS.brk_lt (alignedSbrk T S (chunkSizeForData T n) h).2.env
        have h6 := hg.end_le
        have h7 := hg.sbrkEnd
        unfold Target.sbrkFailure at h5; omega
      -- an aligned chunk whose data is not at `NULL` has its header below the end of memory
      have hfits : (alignedSbrk T S (chunkSizeForData T n) h).1 + T.ptrBytes < T.space := by
        have hne' := mt (chunkToData_eq_zero_iff hlt).mpr hne
        have hle := Nat.le_of_lt_add_of_dvd (show (alignedSbrk T S (chunkSizeForData T n) h).1 <
          T.space - T.ptrBytes + T.ptrBytes by omega) (hT ▸ hg.align)
          (Nat.dvd_sub Target.ptrBytes_dvd_space (dvd_refl _))
        omega
      have hdata : chunkToData T (alignedSbrk T S (chunkSizeForData T n) h).1 =
        (alignedSbrk T S (chunkSizeForData T n) h).1 + T.ptrBytes := Target.add_of_lt hfits
      refine ⟨by omega, by omega, fun hr => ?_⟩
      have hsize := hwraps hr
      rw [chunkFromData_chunkToData hlt]
      refine lt_of_eq_of_lt (Target.load_store (by omega)) ?_
      omega
  · have hfit := hi.fit_free hS c (by simp)
    have hpos := hfit.pos
    have hlt := hfit.lt
    have hmin := hfit.min
    unfold stop at hlt
    refine ⟨c.start + T.ptrBytes, _, h4 S, ⟨fun h0 => by omega, ?_⟩,
      fun _ => ⟨by omega, by omega, fun hr => ?_⟩⟩
    · rintro ⟨hnone, -⟩
      have h5 := hnone c (by simp) h2.fits
      omega
    · have := hwraps hr
      have hdata := chunkFromData_dataOf hfit
      unfold dataOf at hdata
      rw [hdata, allocate_size (by omega) h2.fits]
      unfold mallocMinSize
      split_ifs <;> omega

end Contract

/-! ### `calloc` -/

/-- The block at `ptr` in `h₁` has room for `n` bytes, and `h'` differs from `h₁` by clearing
them. -/
structure Cleared (T : Target) (h₁ : Heap ε) (ptr n : ℕ) (h' : Heap ε) : Prop where
  room : ∀ i < n, ptr + i < (chunkOf T h₁ ptr).stop
  zero : ∀ i < n, h'.mem (ptr + i) = 0
  other : ∀ a, ¬ (ptr ≤ a ∧ a < (chunkOf T h₁ ptr).stop) → h'.mem a = h₁.mem a
  rest : h' = { h₁ with mem := h'.mem }

/-- What a caller expects of `calloc(nmemb, size)`: the block of `malloc(size)` with that many bytes
cleared, or `NULL`; and if the product does not fit into a `size_t`, `NULL` and nothing else. -/
def CallocSound (T : Target) (S : Sbrk ε) (h : Heap ε) (nmemb size : ℕ) : Prop :=
  ∃ ptr h', nocCalloc T S nmemb size h = some (ptr, h') ∧
    (ptr ≠ 0 → ∃ h₁, nocMalloc T S size h = some (ptr, h₁) ∧ Cleared T h₁ ptr (nmemb * size) h') ∧
    (T.space ≤ nmemb * size → ptr = 0 ∧ h' = h)

/-- The chunk for `size` bytes has room for `n`: by itself, or because the best fit is a little
larger. -/
def RoomFor (T : Target) (h : Heap ε) (size n : ℕ) : Prop :=
  n + T.ptrBytes ≤ chunkSizeForData T size ∨
  ∃ free, freeChunks T h = some free ∧ ∃ c ∈ free, chunkSizeForData T size ≤ c.size ∧
    c.size < chunkSizeForData T size + mallocMinSize T ∧ n + T.ptrBytes ≤ c.size ∧
    ∀ d ∈ free, chunkSizeForData T size ≤ d.size → c.size ≤ d.size

/-- `memset` of the whole product is in the block, if the block has room for it. -/
theorem cleared_memset {h₁ : Heap ε} (hptr : ptr < T.space)
    (hroom : n = 0 ∨ ptr + n ≤ (chunkOf T h₁ ptr).stop ∧ ptr + n < T.space) :
    Cleared T h₁ ptr n { h₁ with mem := memset T h₁.mem ptr 0 n } := by
  have hfill : memset T h₁.mem ptr 0 n = h₁.mem.fill ptr n 0 := memset_eq_fill (by omega)
  rw [hfill]
  refine ⟨fun i hi => by omega, fun i hi => Mem.fill_of_mem (by omega) (by omega), fun a ha => ?_,
    rfl⟩
  by_cases h0 : n = 0
  · exact Mem.fill_of_notMem (by omega)
  · exact Mem.fill_of_notMem (by omega)

/-- `calloc` with a block from `malloc` is sound if clearing the product stays in the block. -/
theorem callocSound_iff_cleared {h₁ : Heap ε} (hover : ¬ T.space ≤ nmemb * size)
    (h1 : nocMalloc T S size h = some (ptr, h₁)) (hptr : ptr ≠ 0) :
    CallocSound T S h nmemb size ↔
      Cleared T h₁ ptr (nmemb * size)
        { h₁ with mem := memset T h₁.mem ptr 0 (nmemb * size) } := by
  have hcalloc : nocCalloc T S nmemb size h =
      some (ptr, { h₁ with mem := memset T h₁.mem ptr 0 (nmemb * size) }) := by
    rw [nocCalloc, if_neg hover, h1]
    dsimp only
    rw [if_pos hptr]
  unfold CallocSound
  rw [hcalloc]
  constructor
  · rintro ⟨q, h', h4, h5, -⟩
    obtain ⟨rfl, rfl⟩ := Prod.mk.inj (Option.some.inj h4)
    obtain ⟨h₂, h6, h7⟩ := h5 hptr
    rw [h1] at h6
    obtain ⟨-, rfl⟩ := Prod.mk.inj (Option.some.inj h6)
    exact h7
  · exact fun h4 => ⟨ptr, _, rfl, fun _ => ⟨h₁, h1, h4⟩, fun h => absurd h hover⟩

section Contract
variable (hS : Contract T S)
include hS

/-- The chunk of a representable request has room for `n` bytes exactly if the state before says
so. -/
theorem roomFor_iff (hi : Inv T S h free chunks) {m : ℕ}
    (hm : ChunkSize T (chunkSizeForData T size) free m) :
    n + T.ptrBytes ≤ m ↔ RoomFor T h size n := by
  unfold RoomFor
  rw [hi.freeChunks_eq hS]
  constructor
  · intro hn
    rcases hm with ⟨rfl, -⟩ | ⟨h1, h2, ⟨c, hc, rfl⟩, h4⟩
    · exact Or.inl hn
    · exact Or.inr ⟨free, rfl, c, hc, h1, h2, hn, h4⟩
  · rintro (hn | ⟨l, hl, c, hc, h1, h2, hn, h4⟩)
    · exact hn.trans hm.le
    · obtain rfl := Option.some.inj hl
      rcases hm with ⟨rfl, h5⟩ | ⟨h5, h6, ⟨d, hd, rfl⟩, -⟩
      · have := h5 c hc h1
        omega
      · exact hn.trans (h4 d hd h5)

/-- The block of a representable request has room for what is cleared if its chunk has. -/
theorem cleared_iff_roomFor {h₁ : Heap ε} (hT : T.DefaultAlign) (hi : Inv T S h free chunks)
    (hr : Representable T size) (hn0 : size ≠ 0) (h1 : nocMalloc T S size h = some (ptr, h₁))
    (hptr : ptr ≠ 0) (hlt : ptr < T.space) (hn : n ≠ 0) :
    Cleared T h₁ ptr n { h₁ with mem := memset T h₁.mem ptr 0 n } ↔ RoomFor T h size n := by
  rcases nocMalloc_cases hS hi (Request.of_default hT hr hn0) with
    ⟨h₂, h2, -⟩ | ⟨h₂, free', c, h2, h3⟩
  · rw [h1] at h2
    exact absurd (Prod.mk.inj (Option.some.inj h2)).1 hptr
  have h2 : nocMalloc T S size h = some (dataOf T c, h₂) := h2
  rw [h1] at h2
  obtain ⟨rfl, rfl⟩ := Prod.mk.inj (Option.some.inj h2)
  have hc := h3.inv.chunkOf_dataOf hS (c := c) (by simp)
  have hfit := (h3.inv.fit_live hS c (by simp)).lt
  rw [← roomFor_iff hS hi h3.size]
  unfold stop at hfit
  constructor
  · intro hcl
    have := hcl.room (n - 1) (by omega)
    rw [hc] at this
    unfold dataOf stop at this
    omega
  · refine fun hle => cleared_memset hlt (Or.inr ?_)
    rw [hc]
    unfold dataOf stop
    omega

/-- **When `calloc` is sound.** -/
theorem calloc_sound_iff (hT : T.DefaultAlign) (hw : Reachable T S w) (hn : size < T.space) :
    CallocSound T S w.heap nmemb size ↔ nmemb * size = 0 ∨ T.space ≤ nmemb * size ∨
      (Representable T size ∧ RoomFor T w.heap size (nmemb * size)) ∨
      (NoneFree T w.heap (chunkSizeForData T size) ∧
        NoMemory T S w.heap (chunkSizeForData T size)) := by
  have hwb := T.ptrBytes_bounds
  have hspace := T.space_bounds
  obtain ⟨free, chunks, hi, -⟩ := hw.ok hS
  by_cases hover : T.space ≤ nmemb * size
  · refine ⟨fun _ => Or.inr (Or.inl hover), fun _ => ?_⟩
    refine ⟨0, w.heap, ?_, fun h => absurd rfl h, fun _ => ⟨rfl, rfl⟩⟩
    rw [nocCalloc, if_pos hover]
  by_cases hn0 : size = 0
  · subst hn0
    refine ⟨fun _ => Or.inl rfl, fun _ => ⟨0, w.heap, ?_, fun h => absurd rfl h, fun h => ?_⟩⟩
    · rw [nocCalloc, if_neg hover, nocMalloc, if_pos rfl]
      rfl
    · exact absurd h hover
  obtain ⟨ptr, h₁, h1, h2, h3⟩ := malloc_null_iff hS hT hi hn hn0
  rw [← h2, or_iff_right (b := _ ∨ _) (a := T.space ≤ nmemb * size) hover]
  by_cases hptr : ptr = 0
  · subst hptr
    refine ⟨fun _ => Or.inr (Or.inr rfl), fun _ => ⟨0, h₁, ?_, fun h => absurd rfl h, fun h => ?_⟩⟩
    · rw [nocCalloc, if_neg hover, h1]
      rfl
    · exact absurd h hover
  rw [or_iff_left (b := ptr = 0) hptr]
  obtain ⟨hlow, hptrlt, hsmall⟩ := h3 hptr
  have hprod : size ≤ nmemb * size ∨ nmemb * size = 0 := by
    rcases Nat.eq_zero_or_pos nmemb with h0 | h0
    · right; rw [h0, Nat.zero_mul]
    · left; exact Nat.le_mul_of_pos_left size h0
  rw [callocSound_iff_cleared hover h1 hptr]
  by_cases hp0 : nmemb * size = 0
  · exact ⟨fun _ => Or.inl hp0, fun _ => cleared_memset hptrlt (Or.inl hp0)⟩
  rw [or_iff_right hp0]
  by_cases hr : Representable T size
  · rw [and_iff_right hr]
    exact cleared_iff_roomFor hS hT hi hr hn0 h1 hptr hptrlt hp0
  · -- a wrapped request: the product is larger than the chunk it gets
    refine ⟨fun hcl => ?_, fun h => absurd h.1 hr⟩
    have hroom := hcl.room (nmemb * size - 1) (by omega)
    have hheader := hsmall hr
    unfold Representable at hr
    unfold chunkOf stop chunkFromData at hroom
    unfold chunkFromData at hheader
    simp only at hroom
    rw [Target.sub_of_le hlow hptrlt] at hroom hheader
    omega

end Contract

theorem calloc_sound_iff_malloc :
    CallocSound .x8664 (arena .x8664 8192) mallocWorld.heap 3 40 ↔ 3 * 40 = 0 ∨
      Target.space .x8664 ≤ 3 * 40 ∨
      (Representable .x8664 40 ∧ RoomFor .x8664 mallocWorld.heap 40 (3 * 40)) ∨
      (NoneFree .x8664 mallocWorld.heap (chunkSizeForData .x8664 40) ∧
        NoMemory .x8664 (arena .x8664 8192) mallocWorld.heap (chunkSizeForData .x8664 40)) :=
  calloc_sound_iff (arena_contract _ _) (by decide) mallocWorld_reachable (by decide)

/-- `calloc(10, 8)` returns a block of 8 bytes. -/
theorem calloc_small : Reachable .x8664 (arena .x8664 8192) mallocWorld ∧
    ¬ CallocSound .x8664 (arena .x8664 8192) mallocWorld.heap 10 8 := by
  refine ⟨mallocWorld_reachable, ?_⟩
  rintro ⟨ptr, h', h1, h2, -⟩
  have h3 : (nocCalloc .x8664 (arena .x8664 8192) 10 8 mallocWorld.heap).map Prod.fst =
    some 4136 := by decide +kernel
  rw [h1, Option.map_some] at h3
  obtain rfl : ptr = 4136 := Option.some.inj h3
  obtain ⟨h₁, h4, h5⟩ := h2 (by decide)
  have h6 : (nocMalloc .x8664 (arena .x8664 8192) 8 mallocWorld.heap).map
    (fun r => (chunkOf .x8664 r.2 4136).stop) = some 4144 := by decide +kernel
  rw [h4, Option.map_some] at h6
  have h7 := h5.room 79 (by decide)
  rw [Option.some.inj h6] at h7
  omega

end Noc.Malloc
