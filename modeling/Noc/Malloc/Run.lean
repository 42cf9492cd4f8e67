import Noc.Malloc.Realloc

/-! # Runs of the allocator

A `World` is a heap with the pointers its clients hold. `World.step` is one call of a client, or one
write to memory; `Reachable` are the worlds that allowed steps reach from the zero-initialised
`malloc_state`.

A `realloc` that finds no memory after it has joined a block with the free chunk on its left has
moved the data away from the client's pointer. Such a block is out of reach for its client from then
on: its pointer is moved from `live` to `lost`.

* `Reachable.ok`: in every reachable world the heap invariant holds, of the chunks behind the
  pointers.
* `Reachable.progress`: every allowed step returns.
* `heap_wellFormed`: the two in terms of what is in memory. -/

namespace Noc.Malloc

open Noc.Lib.Bytes Noc.Lib.Spans Noc.Lib.Spans.Span Noc.Targets Noc.Unistd

variable {ε : Type}

/-- A heap and its clients. -/
structure World (ε : Type) where
  heap : Heap ε
  /-- the pointers the clients hold -/
  live : List ℕ
  /-- the pointers to blocks that a failed `realloc` moved -/
  lost : List ℕ

/-- A step of a run. -/
inductive Op where
  | malloc (n : ℕ)
  | free (ptr : ℕ)
  | realloc (ptr n : ℕ)
  | write (mem : Mem)

section Defs
variable (T : Target) (S : Sbrk ε)

/-- The chunk of a block, by its header. -/
def chunkOf (h : Heap ε) (ptr : ℕ) : Span := ⟨chunkFromData T ptr, h.size T (chunkFromData T ptr)⟩

/-- The pointer to the data of a chunk. -/
def dataOf (c : Span) : ℕ := c.start + T.ptrBytes

/-- The free chunk that ends where the chunk of `ptr` starts. -/
def leftNeighbour (h : Heap ε) (ptr : ℕ) : Option Span :=
  (freeChunks T h).bind fun free => free.find? fun d => d.stop = chunkFromData T ptr

namespace World
variable (w : World ε)

/-- The zero-initialised state. -/
def init (mem : Mem) (errno : ℕ) (env : ε) : World ε := ⟨⟨mem, 0, 0, 0, errno, env⟩, [], []⟩

/-- The chunks that are allocated. -/
def chunks : List Span := (w.live ++ w.lost).map (chunkOf T w.heap)

/-- A client calls with pointers it holds, with sizes that can be served, and writes to its blocks
and outside the heap. -/
def Allowed : Op → Prop
  | .malloc n => n = 0 ∨ Request T n
  | .free ptr => ptr ∈ w.live
  | .realloc ptr n => ptr ∈ w.live ∧ (n = 0 ∨ Request T n)
  | .write mem => ∀ a, mem a ≠ w.heap.mem a →
      (∃ c ∈ w.chunks T, c.start + T.ptrBytes ≤ a ∧ a < c.stop) ∨
      ∃ free, freeChunks T w.heap = some free ∧ ¬ Covered (free ++ w.chunks T) a

/-- One step; `none` if the call does not return. -/
def step : Op → Option (World ε)
  | .malloc n => (nocMalloc T S n w.heap).map fun (ptr, h) =>
      { w with heap := h, live := if ptr = 0 then w.live else ptr :: w.live }
  | .free ptr => (nocFree T ptr w.heap).map fun h =>
      { w with heap := h, live := w.live.erase ptr }
  | .realloc ptr n => (nocRealloc T S ptr n w.heap).map fun (new, h) =>
      if n = 0 then { w with heap := h, live := w.live.erase ptr }
      else if new ≠ 0 then { w with heap := h, live := new :: w.live.erase ptr }
      else match leftNeighbour T w.heap ptr with
        | none => { w with heap := h }
        | some d => ⟨h, w.live.erase ptr, dataOf T d :: w.lost⟩
  | .write mem => some { w with heap := { w.heap with mem := mem } }

/-- What a call returns, if it returns; 0 for a call without a result. -/
def returned : Op → Option ℕ
  | .malloc n => (nocMalloc T S n w.heap).map Prod.fst
  | .free ptr => (nocFree T ptr w.heap).map fun _ => 0
  | .realloc ptr n => (nocRealloc T S ptr n w.heap).map Prod.fst
  | .write _ => some 0

end World

/-- The worlds of all runs. -/
inductive Reachable : World ε → Prop where
  | init (mem : Mem) (errno : ℕ) (env : ε) : Reachable (World.init mem errno env)
  | step {w w' : World ε} (op : Op) (hw : Reachable w) (ha : w.Allowed T op)
      (hs : w.step T S op = some w') : Reachable w'

/-- The worlds of the runs whose steps all satisfy `P`. -/
inductive RunBy (P : World ε → Op → Prop) : World ε → Prop where
  | init (mem : Mem) (errno : ℕ) (env : ε) : RunBy P (World.init mem errno env)
  | step {w w' : World ε} (op : Op) (hw : RunBy P w) (hp : P w op)
      (hs : w.step T S op = some w') : RunBy P w'

/-- The heap invariant of a world: the pointers are those of the allocated chunks. -/
structure World.Ok (w : World ε) (free chunks : List Span) : Prop where
  inv : Inv T S w.heap free chunks
  ptrs : (w.live ++ w.lost).Perm (chunks.map (dataOf T))

end Defs

variable {T : Target} {S : Sbrk ε} {w w' : World ε} {free chunks : List Span} {ptr n : ℕ}

/-! ### Chunks and pointers -/

theorem chunkFromData_dataOf {c : Span} (hc : Fit T c) :
    chunkFromData T (dataOf T c) = c.start :=
  chunkFromData_eq hc

/-- The heap after a `realloc` is that of `noc_realloc`. -/
theorem World.step_realloc (hs : w.step T S (.realloc ptr n) = some w') :
    ∃ new, nocRealloc T S ptr n w.heap = some (new, w'.heap) := by
  obtain ⟨⟨new, h'⟩, h1, rfl⟩ := Option.map_eq_some_iff.mp hs
  refine ⟨new, h1.trans ?_⟩
  dsimp only
  split_ifs
  · rfl
  · rfl
  · split <;> rfl

section Contract
variable (hS : Contract T S)
include hS

theorem Inv.chunkOf_dataOf {h : Heap ε} (hi : Inv T S h free chunks) {c : Span} (hc : c ∈ chunks) :
    chunkOf T h (dataOf T c) = c := by
  unfold chunkOf
  rw [chunkFromData_dataOf (hi.fit_live hS c hc), hi.header c hc]

/-- No two pointers are the same. -/
theorem Inv.nodup_pointers {h : Heap ε} (hi : Inv T S h free chunks) :
    (chunks.map (dataOf T)).Nodup := by
  rw [List.Nodup, List.pairwise_map]
  refine hi.live_disj.imp_of_mem fun {c d} hc hd hcd => ?_
  have h1 := (hi.fit_live hS c hc).size_pos
  have h2 := (hi.fit_live hS d hd).size_pos
  unfold Disj stop at hcd
  unfold dataOf; omega

namespace World.Ok

theorem nodup (ho : w.Ok T S free chunks) : (w.live ++ w.lost).Nodup :=
  ho.ptrs.nodup_iff.mpr (ho.inv.nodup_pointers hS)

/-- The chunks behind the pointers are those of the invariant. -/
theorem chunks_perm (ho : w.Ok T S free chunks) : (w.chunks T).Perm chunks := by
  have hp := ho.ptrs.map (chunkOf T w.heap)
  have hid : (chunks.map (dataOf T)).map (chunkOf T w.heap) = chunks := by
    rw [List.map_map]
    refine (List.map_congr_left fun c hc => ?_).trans (List.map_id chunks)
    exact ho.inv.chunkOf_dataOf hS hc
  rw [hid] at hp
  exact hp

/-- The chunk of a pointer that a client holds, and the other chunks. -/
theorem split (ho : w.Ok T S free chunks) (hp : ptr ∈ w.live) : ∃ c rest, ptr = dataOf T c ∧
    chunkOf T w.heap ptr = c ∧ Inv T S w.heap free (c :: rest) ∧
    (w.live.erase ptr ++ w.lost).Perm (rest.map (dataOf T)) := by
  have hmem : ptr ∈ chunks.map (dataOf T) := ho.ptrs.subset (by simp [hp])
  obtain ⟨c, hc, rfl⟩ := List.mem_map.mp hmem
  obtain ⟨pre, post, rfl⟩ := List.append_of_mem hc
  have hperm : (pre ++ c :: post).Perm (c :: (pre ++ post)) := List.perm_middle
  refine ⟨c, pre ++ post, rfl, ho.inv.chunkOf_dataOf hS hc, ho.inv.perm hperm, ?_⟩
  have h1 := (List.perm_cons_erase hp).append_right w.lost
  have h2 := (h1.symm.trans ho.ptrs).trans (hperm.map (dataOf T))
  rw [List.cons_append, List.map_cons] at h2
  exact h2.cons_inv

theorem allowed_write (ho : w.Ok T S free chunks) {mem : Mem} (ha : w.Allowed T (.write mem)) :
    Inv T S { w.heap with mem := mem } free chunks := by
  have hperm := ho.chunks_perm hS
  refine ho.inv.write fun a hne => ?_
  rcases ha a hne with ⟨c, hc, h1⟩ | ⟨free', hf, h1⟩
  · exact Or.inl ⟨c, hperm.subset hc, h1⟩
  · rw [ho.inv.freeChunks_eq hS] at hf
    obtain rfl := Option.some.inj hf
    exact Or.inr fun h2 => h1 ((covered_perm (hperm.append_left _)).mpr h2)

end World.Ok

/-! ### One step -/

theorem leftNeighbour_eq {h : Heap ε} (hi : Inv T S h free chunks) {c : Span} (hc : c ∈ chunks) :
    leftNeighbour T h (dataOf T c) = free.find? fun d => d.stop = c.start := by
  unfold leftNeighbour
  rw [hi.freeChunks_eq hS, chunkFromData_dataOf (hi.fit_live hS c hc)]
  rfl

/-- The free chunk that ends where `c` starts is where `noc_realloc` leaves the data. -/
theorem Merged.leftNeighbour_cases {h h' : Heap ε} {rest free' : List Span} {c c' : Span}
    (hi : Inv T S h free (c :: rest)) (hm : Merged T S h free rest c h' free' c') :
    (leftNeighbour T h (dataOf T c) = none ∧ c'.start = c.start) ∨
      ∃ d ∈ free, leftNeighbour T h (dataOf T c) = some d ∧ d.stop = c.start ∧
        c'.start = d.start := by
  rw [leftNeighbour_eq hS hi (by simp)]
  rcases hm.start with ⟨h1, h2⟩ | ⟨d, hd, h1, h2⟩
  · exact Or.inl ⟨List.find?_eq_none.mpr fun d hd => by simpa using h2 d hd, h1⟩
  · obtain ⟨e, he⟩ : ∃ e, free.find? (fun d => d.stop = c.start) = some e :=
      Option.isSome_iff_exists.mp (List.find?_isSome.mpr ⟨d, hd, decide_eq_true h1⟩)
    have hes : e.stop = c.start := by simpa using List.find?_some he
    have hmem := List.mem_of_find?_eq_some he
    -- both end there, so they are the same
    have hed : e = d := by
      by_contra hne
      have hdis := hi.separated.disj.forall hmem hd hne
      have h3 := (hi.fit_free hS d hd).size_pos
      have h4 := (hi.fit_free hS e hmem).size_pos
      unfold Disj stop at *; omega
    exact Or.inr ⟨e, hmem, he, hes, by rw [h2, hed]⟩

/-- **An allowed step returns, and keeps the invariant.** -/
theorem World.Ok.step {op : Op} (ho : w.Ok T S free chunks) (ha : w.Allowed T op) :
    ∃ w' free' chunks', w.step T S op = some w' ∧ w'.Ok T S free' chunks' := by
  cases op with
  | malloc n =>
    simp only [World.step]
    by_cases hn : n = 0
    · rw [nocMalloc, if_pos hn]
      exact ⟨_, free, chunks, rfl, ho.inv, ho.ptrs⟩
    · have hr : Request T n := ha.resolve_left hn
      rcases nocMalloc_cases hS ho.inv hr with ⟨h', h1, h2⟩ | ⟨h', free', c, h1, h2⟩
      · rw [h1]
        exact ⟨_, free, chunks, rfl, ho.inv.refused h2, ho.ptrs⟩
      · have hpos := (h2.inv.fit_live hS c (by simp)).pos
        have hne : c.start + T.ptrBytes ≠ 0 := by omega
        rw [h1]
        refine ⟨_, free', c :: chunks, rfl, h2.inv, ?_⟩
        dsimp only
        rw [if_neg hne, List.cons_append, List.map_cons]
        exact ho.ptrs.cons _
  | free ptr =>
    obtain ⟨c, rest, rfl, -, hi, hp⟩ := ho.split hS ha
    obtain ⟨h', h1, h2, -⟩ := hi.release hS
    simp only [World.step, dataOf]
    rw [h1]
    exact ⟨_, _, rest, rfl, h2, hp⟩
  | realloc ptr n =>
    obtain ⟨hlive, hn⟩ := ha
    obtain ⟨c, rest, rfl, -, hi, hp⟩ := ho.split hS hlive
    have hc0 := (hi.fit_live hS c (by simp)).pos
    simp only [World.step]
    by_cases hn0 : n = 0
    · obtain ⟨h', h1, h2, -⟩ := hi.release hS
      have h3 : nocRealloc T S (dataOf T c) n w.heap = some (0, h') := by
        unfold dataOf
        rw [nocRealloc, if_neg (by omega), if_pos hn0, h1]
        rfl
      rw [h3]
      refine ⟨_, insertJoin c free, rest, rfl, ?_⟩
      simp only [hn0, if_true]
      exact ⟨h2, hp⟩
    have hr : Request T n := hn.resolve_left hn0
    rcases nocRealloc_cases hS hi hr with ⟨h', free', c', h1, h2⟩ | ⟨h', free', c', h1, h2⟩
    · have h1 : nocRealloc T S (dataOf T c) n w.heap = some (0, h') := h1
      rw [h1]
      simp only [hn0, if_false, ne_eq, not_true_eq_false, Option.map_some]
      rcases h2.leftNeighbour_cases hS hi with ⟨h3, h4⟩ | ⟨d, -, h3, -, h4⟩
      · rw [h3]
        refine ⟨_, free', c' :: rest, rfl, h2.inv, ?_⟩
        have h5 := (List.perm_cons_erase hlive).append_right w.lost
        have h6 : dataOf T c' = dataOf T c := by unfold dataOf; rw [h4]
        rw [List.map_cons, h6]
        exact h5.trans (hp.cons _)
      · rw [h3]
        refine ⟨_, free', c' :: rest, rfl, h2.inv, ?_⟩
        have h6 : dataOf T c' = dataOf T d := by unfold dataOf; rw [h4]
        rw [List.map_cons, h6]
        exact List.perm_middle.trans (hp.cons _)
    · have hpos := (h2.inv.fit_live hS c' (by simp)).pos
      have hne : dataOf T c' ≠ 0 := by unfold dataOf; omega
      have h1 : nocRealloc T S (dataOf T c) n w.heap = some (dataOf T c', h') := h1
      rw [h1]
      simp only [hn0, if_false, ne_eq, hne, not_false_eq_true, if_true, Option.map_some]
      refine ⟨_, free', c' :: rest, rfl, h2.inv, ?_⟩
      rw [List.cons_append, List.map_cons]
      exact hp.cons _
  | write mem =>
    exact ⟨_, free, chunks, rfl, ho.allowed_write hS ha, ho.ptrs⟩

/-! ### Runs -/

/-- **The heap invariant holds in every reachable world.** -/
theorem Reachable.ok (hw : Reachable T S w) : ∃ free chunks, w.Ok T S free chunks := by
  induction hw with
  | init mem errno env => exact ⟨[], [], Inv.init mem errno env, List.Perm.refl _⟩
  | step op _ ha hs ih =>
    obtain ⟨free, chunks, ho⟩ := ih
    obtain ⟨w', free', chunks', h1, h2⟩ := ho.step hS ha
    rw [hs] at h1
    obtain rfl := Option.some.inj h1
    exact ⟨free', chunks', h2⟩

omit hS in
/-- A run of allowed steps. -/
theorem RunBy.reachable {P : World ε → Op → Prop} (hP : ∀ w op, P w op → w.Allowed T op)
    (hw : RunBy T S P w) : Reachable T S w := by
  induction hw with
  | init mem errno env => exact Reachable.init mem errno env
  | step op _ hp hs ih => exact ih.step op (hP _ op hp) hs

/-- **Every allowed step returns.** -/
theorem Reachable.progress (hw : Reachable T S w) {op : Op} (ha : w.Allowed T op) :
    (w.step T S op).isSome := by
  obtain ⟨free, chunks, ho⟩ := hw.ok hS
  obtain ⟨w', -, -, h, -⟩ := ho.step hS ha
  rw [h]; rfl

end Contract

/-- The world after one step; the same one if the call does not return. -/
def World.next (T : Target) (S : Sbrk ε) (w : World ε) (op : Op) : World ε := (w.step T S op).getD w

theorem World.step_next {op : Op} (h : (w.step T S op).isSome) :
    w.step T S op = some (w.next T S op) := by
  obtain ⟨w', h⟩ := Option.isSome_iff_exists.mp h
  rw [World.next, h]; rfl

theorem Reachable.next (hS : Contract T S) (hw : Reachable T S w) (op : Op)
    (ha : w.Allowed T op) : Reachable T S (w.next T S op) :=
  hw.step op ha (World.step_next (hw.progress hS ha))

theorem RunBy.next {P : World ε → Op → Prop} (hS : Contract T S)
    (hP : ∀ w op, P w op → w.Allowed T op) (hw : RunBy T S P w) (op : Op) (hp : P w op) :
    RunBy T S P (w.next T S op) :=
  hw.step op hp (World.step_next ((hw.reachable hP).progress hS (hP w op hp)))

/-- Each step is allowed where the ones before it lead. -/
def World.Permits (T : Target) (S : Sbrk ε) : World ε → List Op → Prop
  | _, [] => True
  | w, op :: ops => w.Allowed T op ∧ (w.next T S op).Permits T S ops

theorem Reachable.of_permits (hS : Contract T S) : ∀ {ops : List Op} {w : World ε},
    Reachable T S w → w.Permits T S ops → Reachable T S (ops.foldl (World.next T S) w)
  | [], _, hw, _ => hw
  | op :: _, w, hw, hp =>
    Reachable.of_permits hS (w := w.next T S op) (hw.next hS op hp.1) hp.2

theorem Reachable.next_malloc (hS : Contract T S) (hw : Reachable T S w) (hr : Request T n) :
    Reachable T S (w.next T S (.malloc n)) :=
  hw.next hS (.malloc n) (Or.inr hr)

theorem Reachable.next_free (hS : Contract T S) (hw : Reachable T S w) (hp : ptr ∈ w.live) :
    Reachable T S (w.next T S (.free ptr)) :=
  hw.next hS (.free ptr) hp

/-! ### What is in memory -/

/-- The free list in memory is `free`, and it and the allocated chunks are in order. -/
structure WellFormed (T : Target) (h : Heap ε) (free live : List Span) : Prop where
  list : freeChunks T h = some free
  sorted : free.Pairwise fun c d => c.stop < d.start
  sized : ∀ c ∈ free ++ live, Sized T c
  inside : ∀ c ∈ free ++ live, Inside h c
  disjoint : (free ++ live).Pairwise Disj

theorem World.Ok.wellFormed (hS : Contract T S) (ho : w.Ok T S free chunks) :
    WellFormed T w.heap free (w.chunks T) := by
  have hp := (ho.chunks_perm hS).append_left free
  exact ⟨ho.inv.freeChunks_eq hS, ho.inv.separated,
    fun c hc => ho.inv.sized c (hp.subset hc), fun c hc => ho.inv.inside c (hp.subset hc),
    (hp.pairwise_iff fun h => Disj.symm h).mpr ho.inv.pairwise_disj⟩

/-- **Every reachable world is well formed, and every allowed step returns.** -/
theorem heap_wellFormed (hS : Contract T S) (hw : Reachable T S w) :
    (∃ free, WellFormed T w.heap free (w.chunks T)) ∧
      ∀ op, w.Allowed T op → (w.step T S op).isSome := by
  obtain ⟨free, chunks, ho⟩ := hw.ok hS
  exact ⟨⟨free, ho.wellFormed hS⟩, fun op ha => hw.progress hS ha⟩

/-- The zero-initialised state with the break at 4096. -/
def arenaWorld : World (Break .x8664) := .init (fun a => UInt8.ofNat a) 0 ⟨4096, by decide⟩

/-- The world after a `malloc(24)`. -/
def mallocWorld : World (Break .x8664) := arenaWorld.next .x8664 (arena .x8664 8192) (.malloc 24)

theorem mallocWorld_reachable : Reachable .x8664 (arena .x8664 8192) mallocWorld :=
  (Reachable.init _ _ _).next_malloc (arena_contract _ _) ⟨by decide, by decide⟩

/-- The world with two blocks. -/
def twoBlocks : World (Break .x8664) := mallocWorld.next .x8664 (arena .x8664 8192) (.malloc 24)

theorem twoBlocks_reachable : Reachable .x8664 (arena .x8664 8192) twoBlocks :=
  mallocWorld_reachable.next_malloc (arena_contract _ _) ⟨by decide, by decide⟩

/-- Three blocks, of which the first is freed, and the second then grows down into it. -/
def movedOps : List Op := [.malloc 40, .malloc 24, .malloc 30, .free 4104, .realloc 4152 30]

/-- The world after these calls: two blocks, and a free chunk between them. -/
def movedWorld : World (Break .x8664) :=
  movedOps.foldl (World.next .x8664 (arena .x8664 8192)) arenaWorld

theorem movedWorld_permits : arenaWorld.Permits .x8664 (arena .x8664 8192) movedOps := by
  refine ⟨Or.inr ⟨by decide, by decide⟩, Or.inr ⟨by decide, by decide⟩,
    Or.inr ⟨by decide, by decide⟩, ?_, ⟨?_, Or.inr ⟨by decide, by decide⟩⟩, trivial⟩
  · show 4104 ∈ _
    decide +kernel
  · decide +kernel

theorem movedWorld_reachable : Reachable .x8664 (arena .x8664 8192) movedWorld :=
  Reachable.of_permits (arena_contract _ _) (Reachable.init _ _ _) movedWorld_permits

theorem heap_wellFormed_moved :
    (∃ free, WellFormed .x8664 movedWorld.heap free (movedWorld.chunks .x8664)) ∧
      ∀ op, movedWorld.Allowed .x8664 op →
        (movedWorld.step .x8664 (arena .x8664 8192) op).isSome :=
  heap_wellFormed (arena_contract _ _) movedWorld_reachable

/-! ### No memory is lost -/

/-- `mem_free` adds up the free chunks. -/
theorem Inv.memFree_eq (hS : Contract T S) {h : Heap ε} (hi : Inv T S h free chunks) :
    memFree T h = some (total free) := by
  have hfit := hi.fit_free hS
  have htotal : total free < T.space := by
    have hcard := card_covered (e := h.sbrkEnd) hi.separated.disj
      (fun c hc => (hfit c hc).size_pos) fun c hc => (hi.inside c (by simp [hc])).hi
    have hle := Finset.card_filter_le (Finset.range h.sbrkEnd) (Covered free)
    have hend := hi.end_lt hS
    rw [Finset.card_range] at hle
    unfold Target.sbrkFailure at hend; omega
  have hloop := memFreeLoop_eq 0 [] free hi.list hfit
    (hi.length_free hS) (by omega)
  rw [memFree, hi.list.1, hloop, Nat.zero_add]

/-- **The chunks tile the heap** when nobody else calls `sbrk` and no `realloc` has lost a block. -/
theorem heap_tiled (hS : Contract T S) (hx : Exclusive T S) (hw : Reachable T S w)
    (hl : w.lost = []) (h0 : w.heap.sbrkStart ≠ 0) :
    (∃ free, freeChunks T w.heap = some free ∧
      (free ++ w.live.map (chunkOf T w.heap)).Pairwise Disj ∧
      ∀ a, Covered (free ++ w.live.map (chunkOf T w.heap)) a ↔
        w.heap.sbrkStart ≤ a ∧ a < w.heap.sbrkEnd) ∧
    (∃ m, memFree T w.heap = some m ∧
      m + total (w.live.map (chunkOf T w.heap)) = w.heap.sbrkEnd - w.heap.sbrkStart) ∧
    (w.live = [] → freeChunks T w.heap =
      some [⟨w.heap.sbrkStart, w.heap.sbrkEnd - w.heap.sbrkStart⟩]) := by
  obtain ⟨free, chunks, ho⟩ := hw.ok hS
  have hlive : w.chunks T = w.live.map (chunkOf T w.heap) := by
    unfold World.chunks
    rw [hl, List.append_nil]
  have hwf := ho.wellFormed hS
  have hperm := ho.chunks_perm hS
  rw [hlive] at hwf hperm
  have hpos : ∀ c ∈ free ++ w.live.map (chunkOf T w.heap), 0 < c.size := fun c hc =>
    (hwf.sized c hc).pos
  have hin : ∀ c ∈ free ++ w.live.map (chunkOf T w.heap),
      w.heap.sbrkStart ≤ c.start ∧ c.stop ≤ w.heap.sbrkEnd := fun c hc =>
    ⟨(hwf.inside c hc).lo, (hwf.inside c hc).hi⟩
  have hfill : ∀ a, w.heap.sbrkStart ≤ a → a < w.heap.sbrkEnd →
      Covered (free ++ w.live.map (chunkOf T w.heap)) a := fun a h1 h2 =>
    (covered_perm (hperm.append_left free)).mpr ((ho.inv.tiled hx h0).fill a h1 h2)
  refine ⟨⟨free, hwf.list, hwf.disjoint, fun a => ⟨?_, fun h => hfill a h.1 h.2⟩⟩,
    ⟨total free, ho.inv.memFree_eq hS, ?_⟩, fun hnil => ?_⟩
  · rintro ⟨c, hc, h1, h2⟩
    have := hin c hc
    omega
  · have htotal := total_eq_of_tiles hwf.disjoint hpos hin hfill
    rwa [total_append] at htotal
  · rw [hnil, List.map_nil, List.append_nil] at hpos hin hfill
    rw [hwf.list, eq_singleton_of_tiles (ho.inv.start_lt h0) hwf.sorted hpos hin hfill]

theorem heap_tiled_moved : ∃ m, memFree .x8664 movedWorld.heap = some m ∧
    m + total (movedWorld.live.map (chunkOf .x8664 movedWorld.heap)) =
      movedWorld.heap.sbrkEnd - movedWorld.heap.sbrkStart :=
  (heap_tiled (arena_contract _ _) (arena_exclusive _ _) movedWorld_reachable
    (by decide +kernel) (by decide +kernel)).2.1

end Noc.Malloc
