import Noc.Malloc.Owned

/-! # What the allocator costs

* `free_list_short`: when nobody else calls `sbrk`, the free list has at most one chunk more than
  are allocated, and so every walk over it is that short.
* `memory_bounded`: a run takes no more from the environment than its calls ask for. A `realloc` may
  take its chunk size twice: what `chunk_grow` gets elsewhere goes to the free list, and
  `noc_malloc` asks again. -/

namespace Noc.Malloc

open Noc.Lib.Bytes Noc.Lib.Spans Noc.Lib.Spans.Span Noc.Targets Noc.Unistd

variable {ε : Type} {T : Target} {S : Sbrk ε} {w w' : World ε} {m : Ledger ε} {ops : List Op}
variable {p : Pool ε} {c : Span} {n size fuel : ℕ} {h : Heap ε} {free : List Span}

/-! ### Walks -/

/-- The search of `noc_malloc` ends with the list. -/
theorem searchLoop_ends : ∀ {fuel : ℕ} (pre post : List Span), HeadList T h 0 (pre ++ post) →
    (∀ d ∈ pre ++ post, Fit T d) → post.length < fuel → ∀ (e : ℕ) (q : Option Link),
      (searchLoop T h size fuel ⟨linkAfter pre, e, q⟩).isSome
  | fuel + 1, pre, [], hl, hf, _, e, q => by
    rw [searchLoop]
    dsimp only
    rw [hl.link_eq hf, headOr_nil, if_pos rfl]
    rfl
  | fuel + 1, pre, c :: post, hl, hf, hlen, e, q => by
    have hpos := (hf c (by simp)).pos
    have ih : ∀ e q, (searchLoop T h size fuel ⟨.next c.start, e, q⟩).isSome := by
      rw [← linkAfter_concat pre c]
      exact searchLoop_ends (pre ++ [c]) post (by simpa using hl) (by simpa using hf)
        (by simpa using hlen)
    rw [searchLoop]
    dsimp only
    rw [hl.link_eq hf, headOr_cons, if_neg (by omega)]
    split_ifs
    · rfl
    · exact ih _ _
    · exact ih _ _

/-- So does the walk of `noc_free`. -/
theorem freeLoop_ends (hl : HeadList T h 0 free) (hf : ∀ d ∈ free, Fit T d)
    (hlen : free.length < fuel) (chunk : ℕ) : (freeLoop T h chunk fuel .head).isSome := by
  rcases freeLoop_cases (c := ⟨chunk, 0⟩) [] free hl hf hlen with
    ⟨lo, q, hi, -, -, hloop, -⟩ | ⟨lo, hi, -, hloop, -⟩
  · exact Option.isSome_of_eq_some hloop
  · exact Option.isSome_of_eq_some hloop

/-- And that of `mem_free`. -/
theorem memFreeLoop_fuel : ∀ {fuel fuel' : ℕ} (pre post : List Span), HeadList T h 0 (pre ++ post) →
    (∀ d ∈ pre ++ post, Fit T d) → post.length < fuel → post.length < fuel' → ∀ count,
      memFreeLoop T h fuel (headOr 0 post) count = memFreeLoop T h fuel' (headOr 0 post) count
  | _ + 1, _ + 1, _, [], _, _, _, _, _ => rfl
  | fuel + 1, fuel' + 1, pre, c :: post, hl, hf, hlen, hlen', count => by
    have hpos := (hf c (by simp)).pos
    rw [memFreeLoop, memFreeLoop, headOr_cons, if_neg (by omega), if_neg (by omega),
      hl.next_eq (hf c (by simp))]
    exact memFreeLoop_fuel (pre ++ [c]) post (by simpa using hl) (by simpa using hf)
      (by simpa using hlen) (by simpa using hlen') _

/-- **The free list is short**: when nobody else calls `sbrk`, there is at most one free chunk more
than there are allocated ones, since one of these fills each gap. As many steps and one for the end
are enough for the search of `noc_malloc`, for the walk of `noc_free` with any allocated pointer,
and for that of `mem_free`. -/
theorem free_list_short (hS : Contract T S) (hx : Exclusive T S) (hw : Reachable T S w) :
    ∃ free, freeChunks T w.heap = some free ∧
      free.length ≤ w.live.length + w.lost.length + 1 ∧
      ∀ fuel, w.live.length + w.lost.length + 1 < fuel →
        (∀ size e, (searchLoop T w.heap size fuel ⟨.head, e, none⟩).isSome) ∧
        (∀ ptr ∈ w.live, (freeLoop T (w.heap.setLink T (.next (chunkFromData T ptr)) 0)
          (chunkFromData T ptr) fuel .head).isSome) ∧
        memFreeLoop T w.heap fuel w.heap.head 0 = memFree T w.heap := by
  obtain ⟨free, chunks, ho⟩ := hw.ok hS
  have hi := ho.inv
  have hf := hi.fit_free hS
  have hchunks : chunks.length = w.live.length + w.lost.length := by
    have hlen := ho.ptrs.length_eq
    rw [List.length_append, List.length_map] at hlen
    exact hlen.symm
  have hshort : free.length ≤ chunks.length + 1 := by
    by_cases h0 : w.heap.sbrkStart = 0
    · rw [(List.append_eq_nil_iff.mp (hi.none h0)).1]
      exact Nat.zero_le _
    · exact hi.separated.length_le_of_fill (fun c hc => (hf c hc).size_pos)
        (fun c hc => (hi.inside c (by simp [hc])).hi) (fun c hc => (hi.inside c (by simp [hc])).lo)
        (hi.tiled hx h0).fill hi.free_live
  refine ⟨free, hi.freeChunks_eq hS, by omega, fun fuel hfuel => ⟨fun size e => ?_, ?_, ?_⟩⟩
  · exact searchLoop_ends [] free hi.list hf (by omega) e none
  · intro ptr hp
    obtain ⟨c, rest, rfl, -, hic, -⟩ := ho.split hS hp
    have hc := hic.fit_live hS c (by simp)
    rw [chunkFromData_dataOf hc]
    refine freeLoop_ends ?_ hf (by omega) c.start
    exact (Frame.setLink_next hc).headList hi.list rfl hf fun d hd =>
      List.forall_mem_singleton.mpr (hic.free_live d hd c (by simp)).symm
  · rw [memFree, hi.list.1]
    exact memFreeLoop_fuel [] free hi.list hf (by omega) (hi.length_free hS) 0

/-! ### Sizes -/

theorem total_cons (c : Span) (l : List Span) : total (c :: l) = c.size + total l := rfl

theorem total_perm {l l' : List Span} (h : l.Perm l') : total l = total l' :=
  (h.map Span.size).sum_eq

theorem total_consJoin (c : Span) : ∀ l : List Span, total (consJoin c l) = c.size + total l
  | [] => rfl
  | n :: l => by
    rw [consJoin]
    split_ifs
    · rw [total_cons, total_cons, join_size, Nat.add_assoc]
    · rfl

/-- Joining keeps the sizes. -/
theorem total_insertJoin (c : Span) : ∀ l : List Span, total (insertJoin c l) = c.size + total l
  | [] => rfl
  | x :: l => by
    rw [insertJoin]
    split_ifs
    · rw [total_consJoin, total_cons, join_size]
      omega
    · rw [total_cons, total_insertJoin c l, total_cons]
      omega
    · exact total_consJoin c (x :: l)

theorem total_absorb : ∀ (l : List Span) (c : Span),
    (absorb c l).1.size + total (absorb c l).2 = c.size + total l
  | [], _ => rfl
  | d :: l, c => by
    rw [absorb]
    split_ifs
    · rw [total_absorb l, total_cons, join_size]
      omega
    · show c.size + d.size + total l = c.size + total (d :: l)
      rw [total_cons, Nat.add_assoc]
    · have ih := total_absorb l c
      show (absorb c l).1.size + total (d :: (absorb c l).2) = c.size + total (d :: l)
      rw [total_cons, total_cons]
      omega
    · rfl

namespace Pool

theorem shrink_total (p : Pool ε) (c : Span) (size : ℕ) :
    (p.shrink T c size).1.size + total (p.shrink T c size).2.free = c.size + total p.free := by
  have hw := T.ptrBytes_bounds
  unfold shrink
  split_ifs with h
  · show size + total (insertJoin _ p.free) = _
    unfold mallocMinSize at h
    rw [total_insertJoin]
    dsimp only
    omega
  · rfl

/-- **`malloc`** asks for its chunk at most. -/
theorem malloc_total (n : ℕ) (p : Pool ε) :
    total (p.malloc T S n).1.toList + total (p.malloc T S n).2.free ≤
      total p.free + if n = 0 then 0 else chunkSizeForData T n := by
  unfold malloc
  by_cases hn : n = 0
  · rw [if_pos hn, if_pos hn]
    exact (Nat.zero_add _).le
  rw [if_neg hn, if_neg hn]
  dsimp only
  rcases hbest : bestFit (chunkSizeForData T n) p.free with _ | ⟨pre, c, post⟩
  · dsimp only
    split_ifs
    · show 0 + total p.free ≤ _
      omega
    · show chunkSizeForData T n + 0 + total p.free ≤ _
      omega
  · obtain ⟨hfree, hfits⟩ := bestFit_spec hbest
    dsimp only
    rw [hfree, total_append, total_cons]
    split_ifs
    · show c.size + 0 + total (pre ++ post) ≤ _
      rw [total_append]
      omega
    · show chunkSizeForData T n + 0 + total (pre ++ _ :: post) ≤ _
      rw [total_append, total_cons]
      dsimp only
      omega

/-- **`chunk_grow`** asks for less than the chunk is to have. -/
theorem grow_total (p : Pool ε) (c : Span) (hmin : mallocMinSize T ≤ size) :
    ((p.grow T S c size).1.getD c).size + total (p.grow T S c size).2.free ≤
      c.size + total p.free + size := by
  unfold grow
  by_cases hend : c.stop ≠ p.bounds.sbrkEnd
  · rw [if_pos hend]
    exact Nat.le_add_right _ _
  rw [if_neg hend]
  dsimp only
  have hadd : (if size - c.size < mallocMinSize T then mallocMinSize T else size - c.size) ≤
      size := by split_ifs <;> omega
  generalize (if size - c.size < mallocMinSize T then mallocMinSize T else size - c.size) = add
    at hadd
  split_ifs
  · show c.size + add + total p.free ≤ _
    omega
  · show c.size + total (insertJoin _ p.free) ≤ _
    rw [total_insertJoin]
    dsimp only
    omega
  · exact Nat.le_add_right _ _

theorem finish_total (n : ℕ) (c : Span) (p : Pool ε) :
    (p.finish T S c n).2.1.size + total (p.finish T S c n).2.2.free ≤
      c.size + total p.free + chunkSizeForData T n := by
  unfold finish
  split_ifs
  · exact (shrink_total p c _).le.trans (Nat.le_add_right _ _)
  · have h := malloc_total (T := T) (S := S) n p
    have hle : (if n = 0 then 0 else chunkSizeForData T n) ≤ chunkSizeForData T n := by
      split_ifs <;> omega
    rcases hm : p.malloc T S n with ⟨_ | d, q⟩
    · rw [hm] at h
      have h : 0 + total q.free ≤ _ := h
      show c.size + total q.free ≤ _
      omega
    · rw [hm] at h
      have h : d.size + 0 + total q.free ≤ _ := h
      show d.size + total (insertJoin c q.free) ≤ _
      rw [total_insertJoin]
      omega

/-- **`realloc`** asks for less than its chunk in `chunk_grow`, and for its chunk then. -/
theorem realloc_total (p : Pool ε) (c : Span) (hr : Request T n) :
    (p.realloc T S c n).2.1.size + total (p.realloc T S c n).2.2.free ≤
      c.size + total p.free + 2 * chunkSizeForData T n := by
  unfold realloc
  split_ifs with hsmall
  · have h := grow_total (S := S) p c hr.min_size
    rcases hg : p.grow T S c (chunkSizeForData T n) with ⟨_ | d, q⟩
    · rw [hg] at h
      have h : c.size + total q.free ≤ _ := h
      have h1 := finish_total (T := T) (S := S) n (absorb c q.free).1
        ⟨q.bounds, (absorb c q.free).2⟩
      have h2 := total_absorb q.free c
      dsimp only at h1 ⊢
      omega
    · rw [hg] at h
      have h : d.size + total q.free ≤ _ := h
      dsimp only
      omega
  · have h := finish_total (T := T) (S := S) n c p
    omega

end Pool

/-! ### Runs -/

/-- What a call may take from the environment. -/
def Op.cost (T : Target) : Op → ℕ
  | .malloc n => if n = 0 then 0 else chunkSizeForData T n
  | .free _ => 0
  | .realloc _ n => if n = 0 then 0 else 2 * chunkSizeForData T n
  | .write _ => 0

/-- **One step** of the ledger. -/
theorem step_total {op : Op} (ha : w.Allowed T op) :
    total (m.step T S op).owned ≤ total m.owned + op.cost T := by
  have hmoves := m.step_moves (T := T) (S := S) op
  generalize m.step T S op = m' at hmoves ⊢
  cases hmoves with
  | none => exact Nat.le_add_right _ _
  | @malloc n _ hp h =>
    have hcost := Pool.malloc_total (T := T) (S := S) n m.pool
    rw [total_perm h, hp, total_append, total_append, Ledger.owned, total_append m.pool.free,
      Op.cost]
    omega
  | @release _ _ c _ h hp h' =>
    have hpool : m'.pool.free = insertJoin c m.pool.free := congrArg Pool.free hp
    rw [total_perm h, total_perm h', hpool, total_append, total_append, total_insertJoin,
      total_cons]
    exact Nat.le_add_right _ _
  | @realloc _ n _ _ _ _ c hn hh h hp h' =>
    have hcost := Pool.realloc_total (S := S) m.pool c (ha.2.resolve_left hn)
    rw [total_perm h, total_perm h', hp, total_append, total_append, total_cons, total_cons,
      Op.cost, if_neg hn]
    omega

section Contract
variable (hS : Contract T S)
include hS

/-- The steps of a run. -/
theorem Run.total_le (hr : Run T S w ops w') (hs : w.Shows T S m) :
    total (m.run T S ops).owned ≤ total m.owned + (ops.map (Op.cost T)).sum := by
  induction hr generalizing m with
  | nil w => exact le_rfl
  | @cons _ _ _ op ops ha hstep _ ih =>
    obtain ⟨w₁, h1, h2⟩ := hs.step hS ha
    rw [hstep] at h1
    obtain rfl := Option.some.inj h1
    have h3 := step_total (S := S) (m := m) ha
    have h4 := ih h2
    rw [List.map_cons, List.sum_cons]
    show total ((m.step T S op).run T S ops).owned ≤ _
    omega

/-- **A run takes no more than its calls ask for**: `mem_free` and the sizes of the allocated chunks
add up to no more than the costs of the calls, and when nobody else calls `sbrk`, the heap is no
longer than that. -/
theorem memory_bounded {mem : Mem} {errno : ℕ} {env : ε}
    (hr : Run T S (World.init mem errno env) ops w) :
    ∃ k, memFree T w.heap = some k ∧ k + total (w.chunks T) ≤ (ops.map (Op.cost T)).sum ∧
      (Exclusive T S → w.heap.sbrkStart ≠ 0 →
        w.heap.sbrkEnd - w.heap.sbrkStart ≤ (ops.map (Op.cost T)).sum) := by
  have hs := hr.shows hS (Ledger.init_shows mem errno env)
  have htotal := hr.total_le hS (Ledger.init_shows mem errno env)
  have hi := hs.heap.inv
  generalize (Ledger.init errno env).run T S ops = m at hs htotal hi
  have hinit : total (Ledger.init errno env : Ledger ε).owned = 0 := rfl
  rw [hinit, Nat.zero_add] at htotal
  have hle : total m.pool.free + total (m.live ++ m.lost) ≤ (ops.map (Op.cost T)).sum := by
    rwa [← total_append]
  refine ⟨_, hi.memFree_eq hS, by rwa [hs.chunks hS], fun hx h0 => ?_⟩
  refine le_trans (le_of_eq ?_) htotal
  exact (total_eq_of_tiles hi.pairwise_disj (fun c hc => (hi.sized c hc).pos)
    (fun c hc => ⟨(hi.inside c hc).lo, (hi.inside c hc).hi⟩) (hi.tiled hx h0).fill).symm

end Contract

theorem free_list_short_released : ∃ free, freeChunks .x8664 releasedWorld.heap = some free ∧
    free.length ≤ releasedWorld.live.length + releasedWorld.lost.length + 1 := by
  obtain ⟨free, h1, h2, -⟩ := free_list_short (arena_contract .x8664 8192) (arena_exclusive _ _)
    releasedWorld_reachable
  exact ⟨free, h1, h2⟩

theorem memory_bounded_moved : ∃ k, memFree .x8664 movedWorld.heap = some k ∧
    k + total (movedWorld.chunks .x8664) ≤ 200 ∧
    movedWorld.heap.sbrkEnd - movedWorld.heap.sbrkStart ≤ 200 := by
  have hcost : (movedOps.map (Op.cost .x8664)).sum = 200 := by decide +kernel
  obtain ⟨k, h1, h2, h3⟩ := memory_bounded (arena_contract .x8664 8192) movedWorld_run
  rw [hcost] at h2 h3
  exact ⟨k, h1, h2, h3 (arena_exclusive _ _) (by decide +kernel)⟩

end Noc.Malloc
