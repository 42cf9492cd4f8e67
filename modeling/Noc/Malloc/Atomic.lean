import Noc.Malloc.Calloc

/-! # Failed requests

`aligned_sbrk` moves `sbrk_end` between its two calls of `sbrk`, and does not move it back. A call
of `malloc` that returns `NULL` leaves the bounds and the free list as they were (`MallocAtomic`)
except when `sbrk` has given memory at a misaligned address and then fails to pad it, or gives
memory in the last word of the address space (`Spoiled`).

When that happens to the first request of a run, `sbrk_end` is set and `sbrk_start` is not, and the
test of `noc_free` lets `NULL` pass. `freeNull_iff` says when it does, and `RunBy.freeNull` that it
does in no run without such a request. -/

namespace Noc.Malloc

open Noc.Lib.Bytes Noc.Lib.Spans Noc.Lib.Spans.Span Noc.Targets Noc.Unistd

variable {ε : Type} {T : Target} {S : Sbrk ε} {w w' : World ε} {h h' : Heap ε}
variable {free chunks : List Span} {c : Span} {n size : ℕ}

/-- The bounds of the heap are the same. -/
structure SameBounds (h h' : Heap ε) : Prop where
  sbrkStart : h'.sbrkStart = h.sbrkStart
  sbrkEnd : h'.sbrkEnd = h.sbrkEnd

/-- If `malloc(n)` returns `NULL`, the bounds and the free list are what they were. -/
def MallocAtomic (T : Target) (S : Sbrk ε) (h : Heap ε) (n : ℕ) : Prop :=
  ∀ h', nocMalloc T S n h = some (0, h') → SameBounds h h' ∧ freeChunks T h' = freeChunks T h

/-- `free(NULL)` returns with the heap as it was, whatever is in memory. -/
def FreeNullHarmless (T : Target) (h : Heap ε) : Prop :=
  ∀ mem, nocFree T 0 { h with mem := mem } = some { h with mem := mem }

/-- `sbrk` gives memory for `size` bytes that leads to no block, and the bounds change: it is
misaligned, and the padding fails or leads to the last word of the address space; or it is aligned
and in the last word. -/
def Spoils (T : Target) (S : Sbrk ε) (h : Heap ε) (size : ℕ) : Prop :=
  size ≤ T.intptrMax ∧ (S.call h.env size).1 ≠ T.sbrkFailure ∧
  if T.mallocAlign ∣ (S.call h.env size).1 then
    (S.call h.env size).1 + T.ptrBytes = T.space ∧
      (h.sbrkStart = 0 ∨ (S.call h.env size).1 + size ≠ h.sbrkEnd)
  else if (S.call (S.call h.env size).2 (padding T (S.call h.env size).1)).1 =
      (S.call h.env size).1 + size then
    (S.call h.env size).1 + (padding T (S.call h.env size).1).toNat + T.ptrBytes = T.space
  else (S.call h.env size).1 + size ≠ h.sbrkEnd

/-- No free chunk is for a request of `n` bytes, and `sbrk` spoils it. -/
def Spoiled (T : Target) (S : Sbrk ε) (h : Heap ε) (n : ℕ) : Prop :=
  n ≠ 0 ∧ NoneFree T h (chunkSizeForData T n) ∧ Spoils T S h (chunkSizeForData T n)

theorem Inv.start_ne_zero (hi : Inv T S h free chunks) (hc : c ∈ free ++ chunks) :
    h.sbrkStart ≠ 0 := fun h0 => by
  rw [hi.none h0] at hc
  cases hc

section Contract
variable (hS : Contract T S)
include hS

/-! ### The bounds -/

theorem not_spoils_iff (hend : h.sbrkEnd ≤ S.brk h.env) : ¬ Spoils T S h size ↔
    ((alignedSbrk T S size h).1 = T.sbrkFailure ∨ chunkToData T (alignedSbrk T S size h).1 = 0 →
      SameBounds h (alignedSbrk T S size h).2) := by
  unfold Spoils
  cases alignedSbrk_calls hS size h with
  | tooLarge hmax hr =>
    rw [hr]
    exact ⟨fun _ _ => ⟨rfl, rfl⟩, fun _ hs => hmax.not_ge hs.1⟩
  | failed _ hcall _ hr =>
    rw [hr, hcall]
    exact ⟨fun _ _ => ⟨rfl, rfl⟩, fun _ hs => hs.2.1 rfl⟩
  | aligned hn h1 hd hr =>
    have hpos := h1.pos
    rw [hr, h1.call, and_iff_right hn, and_iff_right h1.ne, if_pos hd, or_iff_right h1.ne,
      chunkToData_eq_zero_iff h1.lt, not_and_or, ← imp_iff_not_or]
    refine imp_congr_right fun _ => ?_
    constructor
    · intro hne
      obtain ⟨h0, hsame⟩ := not_or.mp hne
      exact ⟨if_neg h0, not_not.mp hsame⟩
    · rintro ⟨hstart, hsame⟩ (h0 | hne)
      · dsimp only at hstart
        rw [if_pos h0, h0] at hstart
        omega
      · exact hne hsame
  | @padded p pad _ _ hn h1 hnd hpad hpos h2 _ hr =>
    have hle := h1.brk_le
    have hlt : p + pad < T.sbrkFailure := by
      have := h2.stop_lt
      omega
    rw [hr, h1.call, and_iff_right hn, and_iff_right h1.ne, if_neg hnd, hpad, h2.call, if_pos rfl,
      Int.toNat_natCast, or_iff_right hlt.ne,
      chunkToData_eq_zero_iff (hlt.trans_le (Nat.sub_le _ _))]
    refine imp_congr_right fun _ => iff_of_false id fun hsame => ?_
    -- the end of the heap is past the padding now
    have hnew := hsame.sbrkEnd
    dsimp only at hnew
    omega
  | elsewhere hn h1 hnd hpad hcall hne _ hr =>
    rw [hr, h1.call, and_iff_right hn, and_iff_right h1.ne, if_neg hnd, hpad, hcall, if_neg hne,
      ne_eq, not_not]
    exact ⟨fun hsame _ => ⟨rfl, hsame⟩, fun hsame => (hsame (Or.inl rfl)).sbrkEnd⟩

/-- A header written to a granted region is not in the free list. -/
theorem Inv.granted_freeChunks {p v : ℕ} (hi : Inv T S h free chunks)
    (hg : Granted T S n h p h') : freeChunks T (h'.setSize T p v) = some free := by
  have hlist : HeadList T (h'.setSize T p v) 0 free := hi.list.congr hg.head fun d hd a h1 h2 => by
    have hin := (hi.inside d (by simp [hd])).hi.trans (hi.end_le.trans hg.brk_le)
    have hmin := (hi.fit_free hS d hd).min
    rw [← hg.mem]
    exact setSize_mem_of_notMem (by unfold stop at hin; omega)
  exact hlist.freeChunks_eq (hi.fit_free hS) (hi.length_free hS)

/-! ### Failed requests -/

/-- **When a failed request changes nothing.** -/
theorem Inv.mallocAtomic_iff (hi : Inv T S h free chunks) :
    MallocAtomic T S h n ↔ ¬ Spoiled T S h n := by
  unfold Spoiled
  by_cases hn0 : n = 0
  · refine iff_of_true (fun h' heq => ?_) fun hs => hs.1 hn0
    rw [nocMalloc, if_pos hn0] at heq
    obtain ⟨-, rfl⟩ := Prod.mk.inj (Option.some.inj heq)
    exact ⟨⟨rfl, rfl⟩, rfl⟩
  rw [noneFree_iff h (hi.freeChunks_eq hS)]
  rcases hi.nocMalloc_eq hS hn0 with ⟨h1, h2⟩ | ⟨pre, c, post, rfl, h2, h3, h4⟩
  · have hcases := alignedSbrk_cases hS hi.end_le (chunkSizeForData T n)
    rw [ne_eq, and_iff_right hn0, and_iff_right h1, not_spoils_iff hS hi.end_le]
    unfold MallocAtomic
    rw [h2 S, fromSbrk, hi.freeChunks_eq hS]
    generalize alignedSbrk T S (chunkSizeForData T n) h = r at hcases ⊢
    obtain ⟨p, h1⟩ := r
    dsimp only at hcases ⊢
    rcases hcases with ⟨hp, hr⟩ | ⟨hp, hg⟩
    · rw [if_pos hp]
      refine ⟨fun hat _ => (hat h1 rfl).1, fun hsame h' heq => ?_⟩
      obtain ⟨-, rfl⟩ := Prod.mk.inj (Option.some.inj heq)
      exact ⟨hsame (Or.inl hp), (hi.refused hr).freeChunks_eq hS⟩
    · rw [if_neg hp, or_iff_right hp]
      constructor
      · intro hat h0
        obtain ⟨hstart, hend⟩ := (hat (h1.setSize T p (chunkSizeForData T n)) (by rw [h0])).1
        exact ⟨hstart, hend⟩
      · intro hsame h' heq
        obtain ⟨h0, rfl⟩ := Prod.mk.inj (Option.some.inj heq)
        obtain ⟨hstart, hend⟩ := hsame h0
        exact ⟨⟨hstart, hend⟩, hi.granted_freeChunks hS hg⟩
  · have hpos := (hi.fit_free hS c (by simp)).pos
    refine iff_of_true (fun h'' heq => ?_) ?_
    · rw [h4 S] at heq
      have := (Prod.mk.inj (Option.some.inj heq)).1
      omega
    · rintro ⟨-, hnone, -⟩
      have h5 := hnone c (by simp) h2.fits
      omega

end Contract

/-! ### `free(NULL)` -/

theorem mergeRight_head (h : Heap ε) (chunk prev : ℕ) :
    (mergeRight T h chunk prev).head = h.head := by
  unfold mergeRight
  split_ifs <;> rfl

/-- Without a start of the heap, `NULL` counts as a pointer into it, and a chunk that ends there
gets into the list. -/
theorem nocFree_null (h0 : h.sbrkStart = 0) (hend : h.sbrkEnd ≠ 0) (hhead : h.head = 0)
    (hsize : h.size T (T.space - T.ptrBytes) = T.ptrBytes) :
    ∃ h', nocFree T 0 h = some h' ∧ h'.head = T.space - T.ptrBytes := by
  have hw := T.ptrBytes_bounds
  have hspace := T.space_bounds
  have hchunk : chunkFromData T 0 = T.space - T.ptrBytes := by
    unfold chunkFromData Target.sub
    rw [Nat.zero_add, Nat.mod_eq_of_lt (by omega)]
  have hcend : chunkEnd T h (T.space - T.ptrBytes) = 0 := by
    unfold chunkEnd Target.add
    rw [hsize, Nat.sub_add_cancel (by omega), Nat.mod_self]
  have hloop : freeLoop T (h.setLink T (.next (T.space - T.ptrBytes)) 0) (T.space - T.ptrBytes)
      T.space .head = some (.insert .head 0) := by
    obtain ⟨fuel, hfuel⟩ : ∃ fuel, T.space = fuel + 1 := ⟨T.space - 1, by omega⟩
    have hlink : (h.setLink T (.next (T.space - T.ptrBytes)) 0).link T .head = 0 := hhead
    generalize T.space - T.ptrBytes = chunk at hlink ⊢
    rw [hfuel, freeLoop, hlink, if_neg (by omega)]
  rw [nocFree, hchunk, if_neg (by omega)]
  dsimp only
  rw [hcend, if_neg (by omega), hloop]
  exact ⟨_, rfl, mergeRight_head _ _ _⟩

/-- **When `free(NULL)` is harmless**: the bounds are set together. -/
theorem freeNull_iff (hi : Inv T S h free chunks) :
    FreeNullHarmless T h ↔ (h.sbrkStart = 0 → h.sbrkEnd = 0) := by
  have hw := T.ptrBytes_bounds
  have hspace := T.space_bounds
  constructor
  · intro hharm h0
    by_contra hend
    have hempty : free = [] := (List.append_eq_nil_iff.mp (hi.none h0)).1
    have hhead : h.head = 0 := by
      have hlist := hi.list.1
      rw [hempty] at hlist
      exact hlist
    -- a header below `NULL` that says that the chunk ends at `NULL`
    obtain ⟨mem, hmem⟩ : ∃ mem : Mem, T.load mem (T.space - T.ptrBytes) = T.ptrBytes :=
      ⟨T.store h.mem (T.space - T.ptrBytes) T.ptrBytes, Target.load_store (by omega)⟩
    obtain ⟨h', h1, h2⟩ := nocFree_null (h := { h with mem := mem }) h0 hend hhead hmem
    rw [hharm mem] at h1
    rw [← Option.some.inj h1] at h2
    have hne : h.head = T.space - T.ptrBytes := h2
    omega
  · intro hb mem
    have : 0 < h.sbrkStart ∨ h.sbrkEnd ≤ 0 := by omega
    rw [nocFree, if_pos this]

/-! ### Runs -/

/-- A client calls as it may, and no request is spoiled. -/
def Unspoiled (T : Target) (S : Sbrk ε) (w : World ε) (op : Op) : Prop :=
  w.Allowed T op ∧ ∀ n, op = .malloc n → ¬ Spoiled T S w.heap n

section Contract
variable (hS : Contract T S)
include hS

/-- A step that spoils no request sets the bounds together. -/
theorem World.Ok.bounds {op : Op} (ho : w.Ok T S free chunks) (hu : Unspoiled T S w op)
    (hb : w.heap.sbrkStart = 0 → w.heap.sbrkEnd = 0) (hs : w.step T S op = some w') :
    w'.heap.sbrkStart = 0 → w'.heap.sbrkEnd = 0 := by
  obtain ⟨ha, hp⟩ := hu
  have hsame : ∀ {h' : Heap ε}, SameBounds w.heap h' → h'.sbrkStart = 0 → h'.sbrkEnd = 0 :=
    fun hsame h0 => hsame.sbrkEnd.trans (hb (hsame.sbrkStart.symm.trans h0))
  cases op with
  | malloc n =>
    obtain ⟨⟨ptr, h'⟩, h1, rfl⟩ := Option.map_eq_some_iff.mp hs
    by_cases hptr : ptr = 0
    · rw [hptr] at h1
      exact hsame ((ho.inv.mallocAtomic_iff hS).mpr (hp n rfl) h' h1).1
    · have hn0 : n ≠ 0 := by
        rintro rfl
        rw [nocMalloc, if_pos rfl] at h1
        exact hptr (Prod.mk.inj (Option.some.inj h1)).1.symm
      rcases nocMalloc_cases hS ho.inv (ha.resolve_left hn0) with
        ⟨h₂, h2, -⟩ | ⟨h₂, free', c, h2, h3⟩
      · rw [h1] at h2
        exact absurd (Prod.mk.inj (Option.some.inj h2)).1 hptr
      · rw [h1] at h2
        obtain ⟨-, rfl⟩ := Prod.mk.inj (Option.some.inj h2)
        exact fun h0 => absurd h0 (h3.inv.start_ne_zero (c := c) (by simp))
  | free ptr =>
    obtain ⟨h', h1, rfl⟩ := Option.map_eq_some_iff.mp hs
    obtain ⟨c, rest, rfl, -, hi, -⟩ := ho.split hS ha
    obtain ⟨h₂, h2, -, hfr⟩ := hi.release hS
    have h2 : nocFree T (dataOf T c) w.heap = some h₂ := h2
    rw [h1] at h2
    obtain rfl := Option.some.inj h2
    exact hsame ⟨hfr.sbrkStart, hfr.sbrkEnd⟩
  | realloc ptr n =>
    obtain ⟨c, rest, rfl, -, hi, -⟩ := ho.split hS ha.1
    obtain ⟨new, h1⟩ := World.step_realloc hs
    have hne : dataOf T c ≠ 0 := by
      have := (hi.fit_live hS c (by simp)).pos
      unfold dataOf; omega
    by_cases hn0 : n = 0
    · obtain ⟨h₂, h2, -, hfr⟩ := hi.release hS
      have h2 : nocFree T (dataOf T c) w.heap = some h₂ := h2
      rw [nocRealloc, if_neg hne, if_pos hn0, h2] at h1
      have heq : h₂ = w'.heap := (Prod.mk.inj (Option.some.inj h1)).2
      exact hsame (heq ▸ ⟨hfr.sbrkStart, hfr.sbrkEnd⟩)
    -- the block is still a chunk of the heap
    · have hstart : w'.heap.sbrkStart ≠ 0 := by
        rcases nocRealloc_cases hS hi (ha.2.resolve_left hn0) with
          ⟨h₂, free', c', h2, h3⟩ | ⟨h₂, free', c', h2, h3⟩
        all_goals
          have h2 : nocRealloc T S (dataOf T c) n w.heap = _ := h2
          rw [h1] at h2
          rw [(Prod.mk.inj (Option.some.inj h2)).2]
          exact h3.inv.start_ne_zero (c := c') (by simp)
      exact fun h0 => absurd h0 hstart
  | write mem =>
    obtain rfl := Option.some.inj hs
    exact hb

/-- **In a run without a spoiled request, `free(NULL)` is harmless.** -/
theorem RunBy.freeNull (hw : RunBy T S (Unspoiled T S) w) : FreeNullHarmless T w.heap := by
  have hall : (∃ free chunks, w.Ok T S free chunks) ∧
      (w.heap.sbrkStart = 0 → w.heap.sbrkEnd = 0) := by
    induction hw with
    | init mem errno env => exact ⟨(Reachable.init mem errno env).ok hS, fun h0 => h0⟩
    | step op _ hu hs ih =>
      obtain ⟨⟨free, chunks, ho⟩, hb⟩ := ih
      obtain ⟨w', free', chunks', h1, h2⟩ := ho.step hS hu.1
      rw [hs] at h1
      obtain rfl := Option.some.inj h1
      exact ⟨⟨free', chunks', h2⟩, ho.bounds hS hu hb hs⟩
  obtain ⟨⟨free, chunks, ho⟩, hb⟩ := hall
  exact (freeNull_iff ho.inv).mpr hb

/-- **When failed requests change nothing**: in every reachable world a request that is not spoiled;
and `free(NULL)` is harmless in every run without a spoiled request. -/
theorem failed_requests_iff :
    (∀ w, Reachable T S w → ∀ n, MallocAtomic T S w.heap n ↔ ¬ Spoiled T S w.heap n) ∧
    (∀ w, Reachable T S w →
      (FreeNullHarmless T w.heap ↔ (w.heap.sbrkStart = 0 → w.heap.sbrkEnd = 0))) ∧
    ∀ w, RunBy T S (Unspoiled T S) w → FreeNullHarmless T w.heap := by
  refine ⟨fun w hw n => ?_, fun w hw => ?_, fun w hw => hw.freeNull hS⟩
  · obtain ⟨free, chunks, ho⟩ := hw.ok hS
    exact ho.inv.mallocAtomic_iff hS
  · obtain ⟨free, chunks, ho⟩ := hw.ok hS
    exact freeNull_iff ho.inv

end Contract

theorem failed_requests_iff_malloc :
    (MallocAtomic .x8664 (arena .x8664 8192) mallocWorld.heap 5000 ↔
      ¬ Spoiled .x8664 (arena .x8664 8192) mallocWorld.heap 5000) ∧
    (FreeNullHarmless .x8664 mallocWorld.heap ↔
      (mallocWorld.heap.sbrkStart = 0 → mallocWorld.heap.sbrkEnd = 0)) ∧
    FreeNullHarmless .x8664 mallocWorld.heap := by
  have hS := arena_contract .x8664 8192
  obtain ⟨h1, h2, h3⟩ := failed_requests_iff hS
  refine ⟨h1 _ mallocWorld_reachable 5000, h2 _ mallocWorld_reachable, h3 _ ?_⟩
  refine RunBy.next hS (fun _ _ hu => hu.1) (RunBy.init _ _ _) (.malloc 24)
    ⟨Or.inr ⟨by decide, by decide⟩, ?_⟩
  rintro n hn ⟨-, -, -, -, hsp⟩
  obtain rfl := Op.malloc.inj hn
  rw [if_pos (by decide)] at hsp
  exact absurd hsp.1 (by decide)

/-- The zero-initialised state with the break at an odd address. -/
def oddWorld : World (Break .x8664) := .init (fun a => UInt8.ofNat a) 0 ⟨4097, by decide⟩

/-- The world after a `malloc(24)` for which `sbrk` has 32 bytes, but no padding. -/
def spoiledWorld : World (Break .x8664) := oddWorld.next .x8664 (arena .x8664 4130) (.malloc 24)

/-- The first request fails in its padding: the end of the heap has moved, and `free(NULL)` is not
harmless any more. -/
theorem failed_request_moves_end : Reachable .x8664 (arena .x8664 4130) oddWorld ∧
    ¬ MallocAtomic .x8664 (arena .x8664 4130) oddWorld.heap 24 ∧
    Reachable .x8664 (arena .x8664 4130) spoiledWorld ∧
    ¬ FreeNullHarmless .x8664 spoiledWorld.heap := by
  have hS := arena_contract .x8664 4130
  have hodd : Reachable .x8664 (arena .x8664 4130) oddWorld := Reachable.init _ _ _
  have hspoiled := hodd.next_malloc hS (n := 24) ⟨by decide, by decide⟩
  refine ⟨hodd, fun hat => ?_, hspoiled, fun hharm => ?_⟩
  · obtain ⟨⟨_, h'⟩, h1, h2⟩ := Option.map_eq_some_iff.mp (show (nocMalloc .x8664
      (arena .x8664 4130) 24 oddWorld.heap).map (fun r => (r.1, r.2.sbrkEnd)) = some (0, 4129) by
        decide +kernel)
    obtain ⟨rfl, hend⟩ := Prod.mk.inj h2
    have hsame := (hat h' h1).1.sbrkEnd
    rw [hend] at hsame
    exact absurd hsame (by decide)
  · obtain ⟨free, chunks, ho⟩ := hspoiled.ok hS
    have hend := (freeNull_iff ho.inv).mp hharm (by decide +kernel)
    exact absurd hend (by decide +kernel)

end Noc.Malloc
