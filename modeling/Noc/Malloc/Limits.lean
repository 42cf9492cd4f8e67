import Noc.Malloc.Blocks

/-! # Requests at the end of `size_t`

`chunk_size_for_data` adds the padding and the header without a check, so the last requests below
`SIZE_MAX` wrap to a chunk size of 0 or of one word (`chunkSizeForData_wraps`), with the default
alignment. `malloc_sound_iff` and `realloc_sound_iff` say for which requests the two calls do what
a caller expects (`MallocSound`, `ReallocSound`): `realloc` for those that can be represented, and
`malloc` also when there happens to be neither a free chunk for the wrapped size nor memory from
`sbrk` (`Declines`). -/

namespace Noc.Malloc

open Noc.Lib.Bytes Noc.Lib.Spans Noc.Lib.Spans.Span Noc.Targets Noc.Unistd

variable {ε : Type} {T : Target} {S : Sbrk ε} {w : World ε} {h h' : Heap ε}
variable {free chunks rest : List Span} {c : Span} {ptr n size : ℕ}

/-- The chunk behind `ptr` has room for `n` bytes, is big enough for a `struct free_chunk`, and does
not overlap a free chunk. -/
structure Serves (T : Target) (h : Heap ε) (ptr n : ℕ) : Prop where
  room : n ≤ chunkDataSize T h (chunkFromData T ptr)
  min : mallocMinSize T ≤ h.size T (chunkFromData T ptr)
  free : ∃ free, freeChunks T h = some free ∧ ∀ d ∈ free, d.Disj (chunkOf T h ptr)

/-- The memory and the bounds and the list of the heap are the same. -/
structure SameHeap (h h' : Heap ε) : Prop where
  mem : h'.mem = h.mem
  sbrkStart : h'.sbrkStart = h.sbrkStart
  sbrkEnd : h'.sbrkEnd = h.sbrkEnd
  head : h'.head = h.head

/-- What a caller expects of a call for `n` bytes: a block for them or `NULL`; and if the chunk size
cannot be represented, `NULL` and nothing else. -/
def Sound (T : Target) (n : ℕ) (h : Heap ε) (result : Option (ℕ × Heap ε)) : Prop :=
  ∃ ptr h', result = some (ptr, h') ∧ (ptr ≠ 0 → Serves T h' ptr n) ∧
    (¬ Representable T n → ptr = 0 ∧ SameHeap h h')

def MallocSound (T : Target) (S : Sbrk ε) (h : Heap ε) (n : ℕ) : Prop :=
  Sound T n h (nocMalloc T S n h)

def ReallocSound (T : Target) (S : Sbrk ε) (h : Heap ε) (ptr n : ℕ) : Prop :=
  Sound T n h (nocRealloc T S ptr n h)

theorem Inv.serves (hS : Contract T S) (hi : Inv T S h free (c :: rest))
    (hn : n + T.ptrBytes ≤ c.size) : Serves T h (dataOf T c) n := by
  have hfit := hi.fit_live hS c (by simp)
  refine ⟨?_, ?_, free, hi.freeChunks_eq hS, ?_⟩
  · rw [hi.chunkDataSize_eq hS (by simp)]; omega
  · rw [chunkFromData_dataOf hfit, hi.header c (by simp)]
    exact (hi.sized c (by simp)).min
  · rw [hi.chunkOf_dataOf hS (by simp)]
    exact hi.free_disj

/-! ### Wrapped requests -/

/-- **A request that cannot be represented wraps** to a chunk of 0 bytes or one word. -/
theorem chunkSizeForData_wraps (hT : T.DefaultAlign) (hn : n < T.space) (hr : ¬ Representable T n) :
    chunkSizeForData T n = 0 ∨ chunkSizeForData T n = T.ptrBytes := by
  obtain ⟨r, h1, h2, h3, h4⟩ := roundedSize_eq T n
  have hw := T.ptrBytes_bounds
  have hspace := T.space_bounds
  unfold Target.DefaultAlign at hT
  unfold Representable at hr
  rw [hT] at h3 h4
  -- `r` is one word below the end of `size_t`, or at it
  have hlow : T.space < r + 2 * T.ptrBytes := by omega
  have hle : T.space ≤ r + T.ptrBytes := by
    have hdvd : T.ptrBytes ∣ r + 2 * T.ptrBytes - T.space :=
      Nat.dvd_sub (Nat.dvd_add h4 (Nat.dvd_mul_left _ _)) T.ptrBytes_dvd_space
    have := Nat.le_of_dvd (by omega) hdvd
    omega
  have hge : r ≤ T.space := Nat.le_of_lt_add_of_dvd (by omega) h4 T.ptrBytes_dvd_space
  have hcase : r + T.ptrBytes = T.space ∨ r = T.space := by
    have hdvd : T.ptrBytes ∣ T.space - r := Nat.dvd_sub T.ptrBytes_dvd_space h4
    rcases Nat.eq_zero_or_pos (T.space - r) with h0 | h0
    · omega
    · have := Nat.le_of_dvd h0 hdvd
      omega
  rw [chunkSizeForData_mod, h1]
  rcases hcase with h5 | h5
  · left
    rw [h5, Nat.mod_self]
  · right
    rw [h5, Nat.add_mod_left, Nat.mod_eq_of_lt (by omega)]

/-- The environment gives nothing for `size` bytes, and the heap does not change over it: `sbrk`
fails; or no bytes were asked for and the break is where the heap ends, and then `sbrk` fails to pad
it, or the block would be at `NULL`. -/
def Declines (T : Target) (S : Sbrk ε) (h : Heap ε) (size : ℕ) : Prop :=
  (S.call h.env size).1 = T.sbrkFailure ∨
  (S.call h.env size).1 + size = h.sbrkEnd ∧
    ((¬ T.mallocAlign ∣ (S.call h.env size).1 ∧
        (S.call (S.call h.env size).2 (padding T (S.call h.env size).1)).1 ≠ h.sbrkEnd) ∨
      (T.mallocAlign ∣ (S.call h.env size).1 ∧ (S.call h.env size).1 + T.ptrBytes = T.space ∧
        h.sbrkStart ≠ 0 ∧ h.size T (S.call h.env size).1 = size))

/-- No free chunk can be used for `size` bytes. -/
def NoneFree (T : Target) (h : Heap ε) (size : ℕ) : Prop :=
  ∃ free, freeChunks T h = some free ∧ ∀ d ∈ free, size ≤ d.size → size + (2 ^ 32 - 1) ≤ d.size

theorem noneFree_iff {l : List Span} (h : Heap ε) {size : ℕ} (hl : freeChunks T h = some l) :
    NoneFree T h size ↔ ∀ d ∈ l, size ≤ d.size → size + (2 ^ 32 - 1) ≤ d.size := by
  unfold NoneFree
  simp only [hl, Option.some.injEq, exists_eq_left']

theorem chunkToData_eq_zero_iff {p : ℕ} (hp : p < T.space) :
    chunkToData T p = 0 ↔ p + T.ptrBytes = T.space := by
  have hw := T.ptrBytes_bounds
  have hspace := T.space_bounds
  unfold chunkToData Target.add
  by_cases hlt : p + T.ptrBytes < T.space
  · rw [Nat.mod_eq_of_lt hlt]; omega
  · rw [Nat.mod_eq_sub_mod (by omega), Nat.mod_eq_of_lt (by omega)]; omega

theorem chunkFromData_chunkToData {p : ℕ} (hp : p < T.space) :
    chunkFromData T (chunkToData T p) = p := by
  have hw := T.ptrBytes_bounds
  have hspace := T.space_bounds
  unfold chunkFromData chunkToData Target.add Target.sub
  rw [Nat.mod_add_mod, show p + T.ptrBytes + (T.space - T.ptrBytes) = p + T.space by omega,
    Nat.add_mod_right, Nat.mod_eq_of_lt hp]

theorem store_eq_self_iff {m : Mem} {a v : ℕ} (hv : v < T.space) :
    T.store m a v = m ↔ T.load m a = v := by
  constructor
  · intro h
    rw [← h, Target.load_store hv]
  · rintro rfl
    exact Mem.store_load.trans Mem.copy_self

section Contract
variable (hS : Contract T S)
include hS

/-- A call of `noc_malloc` that finds no free chunk and leaves the heap as it is. -/
theorem declines_iff (hi : Inv T S h free chunks) (hsize : size ≤ T.ptrBytes) :
    (((alignedSbrk T S size h).1 = T.sbrkFailure ∧ SameHeap h (alignedSbrk T S size h).2) ∨
      ((alignedSbrk T S size h).1 ≠ T.sbrkFailure ∧
        chunkToData T (alignedSbrk T S size h).1 = 0 ∧
        SameHeap h ((alignedSbrk T S size h).2.setSize T (alignedSbrk T S size h).1 size))) ↔
      Declines T S h size := by
  have hw := T.ptrBytes_bounds
  have hspace := T.space_bounds
  have hend := hi.end_le
  unfold Declines
  cases alignedSbrk_calls hS size h with
  | tooLarge hmax hr => omega
  | failed _ hcall _ hr =>
    rw [hr, hcall]
    exact ⟨fun _ => Or.inl rfl, fun _ => Or.inl ⟨rfl, rfl, rfl, rfl, rfl⟩⟩
  | aligned _ h1 hd hr =>
    -- an aligned break: only the pointer to the data can be `NULL`
    have hpos := h1.pos
    have hdata := chunkToData_eq_zero_iff h1.lt
    rw [hr, h1.call]
    constructor
    · rintro (⟨h0, -⟩ | ⟨-, h0, hsame⟩)
      · exact absurd h0 h1.ne
      · refine Or.inr ⟨hsame.sbrkEnd, Or.inr ⟨hd, hdata.mp h0, fun hs => ?_, ?_⟩⟩
        · have := hsame.sbrkStart
          simp only [setSize_sbrkStart, hs, if_true] at this
          omega
        · exact (store_eq_self_iff (by omega)).mp hsame.mem
    · rintro (h0 | ⟨h0, ⟨hnd, -⟩ | ⟨-, h2, h3, h4⟩⟩)
      · exact absurd h0 h1.ne
      · exact absurd hd hnd
      · refine Or.inr ⟨h1.ne, hdata.mpr h2, (store_eq_self_iff (by omega)).mpr h4, ?_, h0, rfl⟩
        simp only [setSize_sbrkStart, h3, if_false]
  | padded _ h1 hnd hpad hpos h2 _ hr =>
    -- the heap has grown by the padding
    have hle := h1.brk_le
    rw [hr, h1.call, hpad, h2.call]
    constructor
    · rintro (⟨-, hsame⟩ | ⟨-, -, hsame⟩)
      all_goals
        have := hsame.sbrkEnd
        simp only [setSize_sbrkEnd] at this
        omega
    · rintro (h0 | ⟨h0, ⟨-, h3⟩ | ⟨h3, -⟩⟩)
      · exact absurd h0 h1.ne
      · exact absurd h0 h3
      · exact absurd h3 hnd
  | elsewhere _ h1 hnd hpad hcall hne _ hr =>
    rw [hr, h1.call, hpad, hcall]
    constructor
    · rintro (⟨-, hsame⟩ | ⟨h0, -⟩)
      · have hsame := hsame.sbrkEnd
        dsimp only at hsame
        exact Or.inr ⟨hsame, Or.inl ⟨hnd, hsame ▸ hne⟩⟩
      · exact absurd rfl h0
    · rintro (h0 | ⟨h0, -⟩)
      · exact absurd h0 h1.ne
      · exact Or.inl ⟨rfl, rfl, rfl, h0, rfl⟩

/-- **When `malloc` is sound.** -/
theorem malloc_sound_iff (hT : T.DefaultAlign) (hw : Reachable T S w) (hn : n < T.space) :
    MallocSound T S w.heap n ↔ Representable T n ∨
      (NoneFree T w.heap (chunkSizeForData T n) ∧
        Declines T S w.heap (chunkSizeForData T n)) := by
  obtain ⟨free, chunks, hi, -⟩ := hw.ok hS
  by_cases hr : Representable T n
  · refine ⟨fun _ => Or.inl hr, fun _ => ?_⟩
    by_cases hn0 : n = 0
    · refine ⟨0, w.heap, ?_, fun h => absurd rfl h, fun h => absurd hr h⟩
      rw [nocMalloc, if_pos hn0]
    have hreq := Request.of_default hT hr hn0
    rcases nocMalloc_cases hS hi hreq with ⟨h', h1, -⟩ | ⟨h', free', c, h1, h2⟩
    · exact ⟨0, h', h1, fun h => absurd rfl h, fun h => absurd hr h⟩
    · have h3 := h2.size.le
      have h4 := hreq.le_size
      exact ⟨dataOf T c, h', h1, fun _ => h2.inv.serves hS (by omega), fun h => absurd hr h⟩
  have hwraps := chunkSizeForData_wraps hT hn hr
  have hsize : chunkSizeForData T n ≤ T.ptrBytes := by omega
  have hn0 : n ≠ 0 := by
    rintro rfl
    have h1 := T.ptrBytes_bounds
    have h2 := T.space_bounds
    unfold Representable at hr; omega
  rw [or_iff_right hr, noneFree_iff w.heap (hi.freeChunks_eq hS)]
  rcases hi.nocMalloc_eq hS hn0 with ⟨h1, h2⟩ | ⟨pre, c, post, rfl, h2, h3, h4⟩
  · rw [and_iff_right h1, ← declines_iff hS hi hsize]
    unfold MallocSound Sound
    rw [h2 S, fromSbrk]
    constructor
    · rintro ⟨ptr, h', h3, -, h4⟩
      obtain ⟨rfl, hsame⟩ := h4 hr
      split_ifs at h3 with hfail
      · obtain ⟨-, rfl⟩ := Prod.mk.inj (Option.some.inj h3)
        exact Or.inl ⟨hfail, hsame⟩
      · obtain ⟨h5, rfl⟩ := Prod.mk.inj (Option.some.inj h3)
        exact Or.inr ⟨hfail, h5, hsame⟩
    · rintro (⟨h3, h4⟩ | ⟨h3, h4, h5⟩)
      · exact ⟨0, _, by rw [if_pos h3], fun h => absurd rfl h, fun _ => ⟨rfl, h4⟩⟩
      · exact ⟨0, _, by rw [if_neg h3, h4], fun h => absurd rfl h, fun _ => ⟨rfl, h5⟩⟩
  · -- a free chunk is found, and the call returns a block in it
    have hpos := (hi.fit_free hS c (by simp)).pos
    constructor
    · rintro ⟨ptr, h'', h6, -, h7⟩
      rw [h4 S] at h6
      have h8 := (Prod.mk.inj (Option.some.inj h6)).1
      have h9 := (h7 hr).1
      omega
    · rintro ⟨hnone, -⟩
      have h8 := hnone c (by simp) h2.fits
      omega

/-- **When `realloc` is sound**: a wrapped size is smaller than any chunk, so the block is cut down
instead of refused. -/
theorem realloc_sound_iff (hT : T.DefaultAlign) (hw : Reachable T S w) (hp : ptr ∈ w.live)
    (hn : n < T.space) (hn0 : n ≠ 0) : ReallocSound T S w.heap ptr n ↔ Representable T n := by
  obtain ⟨free, chunks, ho⟩ := hw.ok hS
  obtain ⟨c, rest, rfl, -, hi, -⟩ := ho.split hS hp
  constructor
  · rintro ⟨new, h', h1, -, h2⟩
    by_contra hr
    have hsize := chunkSizeForData_wraps hT hn hr
    have hc := hi.fit_live hS c (by simp)
    have hpos := hc.pos
    have hmin := hc.min
    have hlt := hc.lt
    have hin := hi.inside c (by simp)
    have hlo := hin.lo
    have hhi := hin.hi
    have hhead := hi.header c (by simp)
    have hw := T.ptrBytes_bounds
    unfold stop at hhi hlt
    obtain rfl := (h2 hr).1
    -- the chunk is not too small, and its pointer is returned
    rw [nocRealloc, chunkFromData_dataOf hc] at h1
    unfold dataOf at h1
    rw [if_neg (by omega), if_neg hn0, if_neg (by omega)] at h1
    dsimp only at h1
    rw [chunkEnd_eq hc hhead, hhead, if_neg (by unfold stop; omega), if_neg (by omega),
      reallocFinish]
      at h1
    dsimp only at h1
    rw [if_pos (by omega)] at h1
    split_ifs at h1
    · obtain ⟨h3, -, h4⟩ := Option.map_eq_some_iff.mp h1
      have := (Prod.mk.inj h4).1
      omega
    · have := (Prod.mk.inj (Option.some.inj h1)).1
      omega
  · intro hr
    have hreq := Request.of_default hT hr hn0
    have hsize := hreq.le_size
    rcases nocRealloc_cases hS hi hreq with ⟨h', free', c', h1, -⟩ | ⟨h', free', c', h1, h2⟩
    · exact ⟨0, h', h1, fun h => absurd rfl h, fun h => absurd hr h⟩
    · have h3 := h2.size
      exact ⟨dataOf T c', h', h1, fun _ => h2.inv.serves hS (by omega), fun h => absurd hr h⟩

/-- **Which requests are served soundly**, in every reachable world. -/
theorem requests_sound_iff (hT : T.DefaultAlign) (hw : Reachable T S w) (hn : n < T.space) :
    (MallocSound T S w.heap n ↔ Representable T n ∨
      (NoneFree T w.heap (chunkSizeForData T n) ∧
        Declines T S w.heap (chunkSizeForData T n))) ∧
    ∀ ptr ∈ w.live, n ≠ 0 → (ReallocSound T S w.heap ptr n ↔ Representable T n) :=
  ⟨malloc_sound_iff hS hT hw hn, fun _ hp hn0 => realloc_sound_iff hS hT hw hp hn hn0⟩

end Contract

theorem requests_sound_iff_malloc :
    (MallocSound .x8664 (arena .x8664 8192) mallocWorld.heap 100 ↔ Representable .x8664 100 ∨
      (NoneFree .x8664 mallocWorld.heap (chunkSizeForData .x8664 100) ∧
        Declines .x8664 (arena .x8664 8192) mallocWorld.heap (chunkSizeForData .x8664 100))) ∧
    ∀ ptr ∈ mallocWorld.live, 100 ≠ 0 →
      (ReallocSound .x8664 (arena .x8664 8192) mallocWorld.heap ptr 100 ↔
        Representable .x8664 100) :=
  requests_sound_iff (arena_contract _ _) (by decide) mallocWorld_reachable (by decide)

/-- `malloc(SIZE_MAX)` returns a block, in a chunk of 8 bytes. -/
theorem malloc_sizeMax : Reachable .x8664 (arena .x8664 8192) mallocWorld ∧
    ¬ MallocSound .x8664 (arena .x8664 8192) mallocWorld.heap (Target.sizeMax .x8664) := by
  refine ⟨mallocWorld_reachable, ?_⟩
  rintro ⟨ptr, h', h1, -, h2⟩
  have h3 : (nocMalloc .x8664 (arena .x8664 8192) (Target.sizeMax .x8664) mallocWorld.heap).map
    Prod.fst = some 4136 := by decide +kernel
  rw [h1, (h2 (by decide)).1, Option.map_some] at h3
  exact absurd (Option.some.inj h3) (show (0 : ℕ) ≠ 4136 by decide)

end Noc.Malloc
