import Noc.Malloc.Run

/-! # `realloc` and the clients' data

* `realloc_data`: the block that `realloc` returns has room for the new size and starts with the old
  data; the other blocks are untouched.
* `realloc_keeps_iff`: when it returns `NULL`, the old block is still there (`KeepsBlock`) exactly
  if no free chunk ends where it starts. Else the loop has joined the two and moved the data down
  before the allocation failed, and the pointer of the client leads into the middle of a block. -/

namespace Noc.Malloc

open Noc.Lib.Bytes Noc.Lib.Spans Noc.Lib.Spans.Span Noc.Targets Noc.Unistd

variable {ε : Type} {T : Target} {S : Sbrk ε} {w : World ε} {h h' : Heap ε}
variable {free chunks rest : List Span} {c : Span} {ptr n new : ℕ}

/-- The other pointers are those of the other chunks. -/
theorem mem_rest {p : ℕ} (hp : (w.live.erase ptr ++ w.lost).Perm (rest.map (dataOf T)))
    (hmem : p ∈ w.live) (hne : p ≠ ptr) : ∃ d ∈ rest, dataOf T d = p := by
  have h1 : p ∈ w.live.erase ptr ++ w.lost :=
    List.mem_append_left _ ((List.mem_erase_of_ne hne).mpr hmem)
  exact List.mem_map.mp (hp.subset h1)

section Contract
variable (hS : Contract T S)
include hS

theorem Inv.chunkDataSize_eq (hi : Inv T S h free chunks) (hc : c ∈ chunks) :
    chunkDataSize T h (chunkFromData T (dataOf T c)) = c.size - T.ptrBytes := by
  have hfit := hi.fit_live hS c hc
  have h1 := hfit.min
  have h2 := hfit.lt
  have h3 := hfit.pos
  unfold stop at h2
  rw [chunkFromData_dataOf hfit, chunkDataSize, hi.header c hc,
    Target.sub_of_le (by omega) (by omega)]

/-- **A block that `realloc` returns** has room for `n` bytes and starts with the data of the old
one; every other block is as before. -/
theorem realloc_data (hw : Reachable T S w) (hp : ptr ∈ w.live) (hr : Request T n)
    (hq : nocRealloc T S ptr n w.heap = some (new, h')) (hne : new ≠ 0) :
    n ≤ chunkDataSize T h' (chunkFromData T new) ∧
    (∀ i < min (chunkDataSize T w.heap (chunkFromData T ptr)) n,
      h'.mem (new + i) = w.heap.mem (ptr + i)) ∧
    ∀ p ∈ w.live, p ≠ ptr → chunkOf T h' p = chunkOf T w.heap p ∧
      ∀ i < chunkDataSize T w.heap (chunkFromData T p), h'.mem (p + i) = w.heap.mem (p + i) := by
  obtain ⟨free, chunks, ho⟩ := hw.ok hS
  obtain ⟨c, rest, rfl, -, hi, hperm⟩ := ho.split hS hp
  rcases nocRealloc_cases hS hi hr with ⟨h1, -, -, h2, -⟩ | ⟨h1, free', c', h2, hm⟩
  · have h2 : nocRealloc T S (dataOf T c) n w.heap = some (0, h1) := h2
    rw [h2] at hq
    exact absurd (Prod.mk.inj (Option.some.inj hq)).1.symm hne
  have h2 : nocRealloc T S (dataOf T c) n w.heap = some (dataOf T c', h1) := h2
  rw [h2] at hq
  obtain ⟨rfl, rfl⟩ := Prod.mk.inj (Option.some.inj hq)
  have hsize := hr.le_size
  have hroom := hm.size
  refine ⟨?_, fun i hilt => ?_, fun p hp hpne => ?_⟩
  · rw [hm.inv.chunkDataSize_eq hS (by simp)]
    omega
  · rw [hi.chunkDataSize_eq hS (by simp), lt_min_iff] at hilt
    exact hm.data i hilt.1 hilt.2
  · obtain ⟨d, hd, rfl⟩ := mem_rest hperm hp hpne
    have hdmin := (hi.fit_live hS d (by simp [hd])).min
    refine ⟨?_, fun i hilt => ?_⟩
    · rw [hm.inv.chunkOf_dataOf hS (by simp [hd]), hi.chunkOf_dataOf hS (by simp [hd])]
    · rw [hi.chunkDataSize_eq hS (by simp [hd])] at hilt
      unfold dataOf
      exact hm.kept d hd _ (by omega) (by unfold stop; omega)

end Contract

theorem realloc_data_grow : ∃ h',
    nocRealloc .x8664 (arena .x8664 8192) 4104 100 mallocWorld.heap = some (4104, h') ∧
    100 ≤ chunkDataSize .x8664 h' (chunkFromData .x8664 4104) := by
  obtain ⟨⟨_, h'⟩, hq, rfl⟩ := Option.map_eq_some_iff.mp (show (nocRealloc .x8664
    (arena .x8664 8192) 4104 100 mallocWorld.heap).map Prod.fst = some 4104 by decide +kernel)
  exact ⟨h', hq, (realloc_data (arena_contract _ _) mallocWorld_reachable (by decide +kernel)
    ⟨by decide, by decide⟩ hq (by decide)).1⟩

/-! ### A failed `realloc` -/

/-- After a failed `realloc` the block at `ptr` is still the client's: its data is the same; its
header is that of a chunk as big as before, apart from all others; and `free(ptr)` gives all of it
to the free list, so that every byte of the heap is in a chunk. -/
structure KeepsBlock (T : Target) (w : World ε) (ptr : ℕ) (h' : Heap ε) : Prop where
  data : ∀ i < chunkDataSize T w.heap (chunkFromData T ptr), h'.mem (ptr + i) = w.heap.mem (ptr + i)
  size : (chunkOf T w.heap ptr).size ≤ (chunkOf T h' ptr).size
  inside : Inside h' (chunkOf T h' ptr)
  free : ∃ free, freeChunks T h' = some free ∧ ∀ d ∈ free, d.Disj (chunkOf T h' ptr)
  others : ∀ p ∈ w.live.erase ptr ++ w.lost, (chunkOf T h' p).Disj (chunkOf T h' ptr)
  release : ∃ h'' free free', nocFree T ptr h' = some h'' ∧ freeChunks T w.heap = some free ∧
    freeChunks T h'' = some free' ∧
    (∀ a, (chunkOf T h' ptr).start ≤ a → a < (chunkOf T h' ptr).stop → Covered free' a) ∧
    ∀ a, Covered (free ++ w.chunks T) a →
      Covered (free' ++ (w.live.erase ptr ++ w.lost).map (chunkOf T h'')) a

section Contract
variable (hS : Contract T S)
include hS

/-- The chunks of pointers, by headers that the invariant describes. -/
theorem Inv.map_chunkOf (hi : Inv T S h free chunks) {l : List Span} (hl : ∀ c ∈ l, c ∈ chunks) :
    (l.map (dataOf T)).map (chunkOf T h) = l := by
  rw [List.map_map]
  exact (List.map_congr_left fun c hc => hi.chunkOf_dataOf hS (hl c hc)).trans (List.map_id l)

/-- Nothing moved: the block is the client's. -/
theorem Merged.keepsBlock {free' : List Span} {c' : Span}
    (hi : Inv T S w.heap free (c :: rest))
    (hperm : (w.live.erase (dataOf T c) ++ w.lost).Perm (rest.map (dataOf T)))
    (hlive : dataOf T c ∈ w.live) (hm : Merged T S w.heap free rest c h' free' c')
    (hstart : c'.start = c.start) : KeepsBlock T w (dataOf T c) h' := by
  have hptr : dataOf T c = dataOf T c' := by unfold dataOf; rw [hstart]
  have hold := hi.chunkOf_dataOf hS (c := c) (by simp)
  have hnew : chunkOf T h' (dataOf T c) = c' := by
    rw [hptr]; exact hm.inv.chunkOf_dataOf hS (by simp)
  obtain ⟨h'', h1, h2, -⟩ := hm.inv.release hS
  have hfree : nocFree T (dataOf T c) h' = some h'' := by rw [hptr]; exact h1
  have hchunks : (w.chunks T).Perm (c :: rest) := by
    have hp := ((List.perm_cons_erase hlive).append_right w.lost).trans (hperm.cons _)
    have hp := hp.map (chunkOf T w.heap)
    rw [List.map_cons, hold, hi.map_chunkOf hS (by simp +contextual)] at hp
    exact hp
  constructor
  · intro i hilt
    rw [hi.chunkDataSize_eq hS (by simp)] at hilt
    have := hm.data i hilt
    rw [hstart] at this
    exact this
  · rw [hold, hnew]; exact hm.le
  · rw [hnew]; exact hm.inv.inside c' (by simp)
  · rw [hnew]
    exact ⟨free', hm.inv.freeChunks_eq hS, hm.inv.free_disj⟩
  · intro p hp
    obtain ⟨d, hd, rfl⟩ := List.mem_map.mp (hperm.subset hp)
    rw [hnew, hm.inv.chunkOf_dataOf hS (by simp [hd])]
    exact (hm.inv.disj_rest d hd).symm
  · refine ⟨h'', free, insertJoin c' free', hfree, hi.freeChunks_eq hS, h2.freeChunks_eq hS,
      fun a ha hb => ?_, fun a ha => ?_⟩
    · rw [hnew] at ha hb
      exact (covered_insertJoin _).mpr (Or.inl ⟨ha, hb⟩)
    · have ha := hm.covered a ((covered_perm (hchunks.append_left free)).mp ha)
      have hrest := hperm.map (chunkOf T h'')
      rw [h2.map_chunkOf hS (fun _ h => h)] at hrest
      refine (covered_perm (hrest.append_left _)).mpr ?_
      simp only [covered_append, covered_cons, covered_insertJoin] at ha ⊢
      rcases ha with ha | ha | ha
      · exact Or.inl (Or.inr ha)
      · exact Or.inl (Or.inl ha)
      · exact Or.inr ha

/-- The data moved down to the chunk of `d`: a `free` of the old pointer leaves that chunk out. -/
theorem Merged.not_keepsBlock {free' : List Span} {c' d : Span}
    (hi : Inv T S w.heap free (c :: rest))
    (hperm : (w.live.erase (dataOf T c) ++ w.lost).Perm (rest.map (dataOf T)))
    (hm : Merged T S w.heap free rest c h' free' c') (hd : d ∈ free) (hdc : d.stop = c.start)
    (hstart : c'.start = d.start) : ¬ KeepsBlock T w (dataOf T c) h' := by
  intro hk
  have hc := hi.fit_live hS c (by simp)
  have hdsize := (hi.fit_free hS d hd).size_pos
  have hold := hi.chunkOf_dataOf hS (c := c) (by simp)
  obtain ⟨e, he⟩ : ∃ e, chunkOf T h' (dataOf T c) = e := ⟨_, rfl⟩
  have hestart : e.start = c.start := by
    rw [← he]; exact chunkFromData_dataOf hc
  have hehead : h'.size T e.start = e.size := by
    rw [← he]; rfl
  -- `free` puts the chunk that the header describes into the list, and no more
  obtain ⟨fl, h1, h2⟩ := hk.free
  rw [hm.inv.freeChunks_eq hS] at h1
  obtain rfl := Option.some.inj h1
  have hesize := hk.size
  have hin := hk.inside
  rw [he] at h2 hesize hin
  rw [hold] at hesize
  have hend := hm.inv.end_lt hS
  have hefit : Fit T e := by
    have h3 := hc.pos
    have h4 := hc.min
    have h5 := hin.hi
    exact ⟨by omega, by omega, by unfold Target.sbrkFailure at hend; omega⟩
  obtain ⟨h'', h3, h4, hfr⟩ := nocFree_eq hm.inv.list
    (List.forall_mem_cons.mpr ⟨hefit, hm.inv.fit_free hS⟩) hm.inv.separated h2 hehead hin.lo hin.hi
  obtain ⟨g, fr, fr', h5, h6, h7, -, h8⟩ := hk.release
  have hdata : dataOf T c = e.start + T.ptrBytes := by unfold dataOf; rw [hestart]
  rw [hdata, h3] at h5
  obtain rfl := Option.some.inj h5
  rw [hi.freeChunks_eq hS] at h6
  obtain rfl := Option.some.inj h6
  have hfit' : ∀ x ∈ insertJoin e free', Fit T x := forall_insertJoin (P := Fit T)
    (fun x y hx hy hxy => hx.join hy hxy) hefit (hm.inv.fit_free hS)
  have hsep' : Separated (insertJoin e free') :=
    separated_insertJoin hefit.size_pos hm.inv.separated
    h2 fun x hx => (hm.inv.fit_free hS x hx).size_pos
  rw [h4.freeChunks_eq hfit' (length_lt_space hsep' hfit')] at h7
  obtain rfl := Option.some.inj h7
  -- the first byte of `d` is neither there nor in another block
  have hdstart : d.start < e.start := by unfold stop at hdc; omega
  have hc' : c'.start ≤ d.start ∧ d.start < c'.stop := by
    have := (hm.inv.fit_live hS c' (by simp)).size_pos
    unfold stop; omega
  have hcov := h8 d.start (by
    rw [covered_append]
    exact Or.inl ⟨d, hd, le_rfl, by unfold stop; omega⟩)
  rw [covered_append, covered_insertJoin] at hcov
  rcases hcov with (hcov | hcov) | ⟨x, hx, hcov⟩
  · omega
  · exact not_covered_of_disj (fun x hx => hm.inv.free_live x hx c' (by simp)) hc'.1 hc'.2 hcov
  · obtain ⟨p, hp, rfl⟩ := List.mem_map.mp hx
    have hother := hk.others p hp
    obtain ⟨y, hy, rfl⟩ := List.mem_map.mp (hperm.subset hp)
    have hyfit := hm.inv.fit_live hS y (by simp [hy])
    rw [hm.inv.chunkOf_dataOf hS (by simp [hy]), he] at hother
    have hyd := hm.inv.disj_rest y hy
    have hyh : chunkOf T h'' (dataOf T y) = y := by
      have hmin := hyfit.min
      have hdis : ∀ z ∈ e :: free', z.Disj y := List.forall_mem_cons.mpr
        ⟨hother.symm, fun z hz => hm.inv.free_live z hz y (by simp [hy])⟩
      rw [chunkOf, chunkFromData_dataOf hyfit, hfr.size_eq hdis (by omega),
        hm.inv.header y (by simp [hy])]
    rw [hyh] at hcov
    unfold Disj at hyd
    omega

/-- The block is kept exactly if nothing moved. -/
theorem Merged.keepsBlock_iff {free' : List Span} {c' : Span}
    (hi : Inv T S w.heap free (c :: rest))
    (hperm : (w.live.erase (dataOf T c) ++ w.lost).Perm (rest.map (dataOf T)))
    (hlive : dataOf T c ∈ w.live) (hm : Merged T S w.heap free rest c h' free' c') :
    KeepsBlock T w (dataOf T c) h' ↔ leftNeighbour T w.heap (dataOf T c) = none := by
  rcases hm.leftNeighbour_cases hS hi with ⟨h3, h4⟩ | ⟨d, hd, h3, h4, h5⟩
  · exact ⟨fun _ => h3, fun _ => hm.keepsBlock hS hi hperm hlive h4⟩
  · refine iff_of_false (hm.not_keepsBlock hS hi hperm hd h4 h5) ?_
    rw [h3]
    exact Option.some_ne_none d

theorem World.Ok.keepsBlock_iff (ho : w.Ok T S free chunks) (hp : ptr ∈ w.live) (hr : Request T n)
    (hq : nocRealloc T S ptr n w.heap = some (0, h')) :
    KeepsBlock T w ptr h' ↔ leftNeighbour T w.heap ptr = none := by
  obtain ⟨c, rest, rfl, -, hi, hperm⟩ := ho.split hS hp
  rcases nocRealloc_cases hS hi hr with ⟨h1, free', c', h2, hm⟩ | ⟨h1, free', c', h2, hm⟩
  · have h2 : nocRealloc T S (dataOf T c) n w.heap = some (0, h1) := h2
    rw [h2] at hq
    obtain ⟨-, rfl⟩ := Prod.mk.inj (Option.some.inj hq)
    exact hm.keepsBlock_iff hS hi hperm hp
  · -- a chunk that is returned is not at 0
    have h2 : nocRealloc T S (dataOf T c) n w.heap = some (dataOf T c', h1) := h2
    rw [h2] at hq
    have hpos := (hm.inv.fit_live hS c' (by simp)).pos
    have h3 := (Prod.mk.inj (Option.some.inj hq)).1
    unfold dataOf at h3
    omega

/-- **When `realloc` returns `NULL`, the block is kept** exactly if no free chunk ends where it
starts. -/
theorem realloc_keeps_iff (hw : Reachable T S w) (hp : ptr ∈ w.live) (hr : Request T n)
    (hq : nocRealloc T S ptr n w.heap = some (0, h')) :
    KeepsBlock T w ptr h' ↔ leftNeighbour T w.heap ptr = none := by
  obtain ⟨free, chunks, ho⟩ := hw.ok hS
  exact ho.keepsBlock_iff hS hp hr hq

end Contract

/-- The world after `a = malloc(8)`, `b = malloc(24)`, `malloc(30)` and `free(a)`. -/
def freedWorld (limit : ℕ) : World (Break .x8664) :=
  (((arenaWorld.next .x8664 (arena .x8664 limit) (.malloc 8)).next .x8664 (arena .x8664 limit)
    (.malloc 24)).next .x8664 (arena .x8664 limit) (.malloc 30)).next .x8664 (arena .x8664 limit)
    (.free 4104)

theorem freedWorld_reachable : Reachable .x8664 (arena .x8664 8192) (freedWorld 8192) := by
  have hS := arena_contract .x8664 8192
  refine Reachable.next_free hS ?_ (by decide +kernel)
  refine Reachable.next_malloc hS (Reachable.next_malloc hS (Reachable.next_malloc hS ?_ ?_) ?_) ?_
  · exact Reachable.init _ _ _
  all_goals exact ⟨by decide, by decide⟩

theorem realloc_keeps_iff_freed : ∃ h',
    nocRealloc .x8664 (arena .x8664 8192) 4152 20000 (freedWorld 8192).heap = some (0, h') ∧
    (KeepsBlock .x8664 (freedWorld 8192) 4152 h' ↔
      leftNeighbour .x8664 (freedWorld 8192).heap 4152 = none) := by
  obtain ⟨⟨_, h'⟩, hq, rfl⟩ := Option.map_eq_some_iff.mp (show (nocRealloc .x8664
    (arena .x8664 8192) 4152 20000 (freedWorld 8192).heap).map Prod.fst = some 0 by decide +kernel)
  exact ⟨h', hq, realloc_keeps_iff (arena_contract _ _) freedWorld_reachable (by decide +kernel)
    ⟨by decide, by decide⟩ hq⟩

/-- The block `b` behind the freed `a`: a `realloc` that fails moves its data. -/
theorem realloc_moves : Reachable .x8664 (arena .x8664 8192) (freedWorld 8192) ∧
    4120 ∈ (freedWorld 8192).live ∧ Request .x8664 20000 ∧
    ∃ h', nocRealloc .x8664 (arena .x8664 8192) 4120 20000 (freedWorld 8192).heap = some (0, h') ∧
      ¬ KeepsBlock .x8664 (freedWorld 8192) 4120 h' := by
  refine ⟨freedWorld_reachable, by decide +kernel, ⟨by decide, by decide⟩, ?_⟩
  obtain ⟨⟨_, h'⟩, hq, hmem⟩ := Option.map_eq_some_iff.mp (show (nocRealloc .x8664
    (arena .x8664 8192) 4120 20000 (freedWorld 8192).heap).map (fun r => (r.1, r.2.mem 4120)) =
    some (0, 40) by decide +kernel)
  obtain ⟨rfl, hbyte⟩ := Prod.mk.inj hmem
  refine ⟨h', hq, fun hk => ?_⟩
  have hsame := hk.data 0 (by decide +kernel)
  have hold : (freedWorld 8192).heap.mem 4120 = 24 := by decide +kernel
  simp only at hbyte
  rw [Nat.add_zero, hbyte, hold] at hsame
  exact absurd hsame (by decide)

end Noc.Malloc
