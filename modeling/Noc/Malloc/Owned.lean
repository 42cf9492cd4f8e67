import Noc.Lib.Growth
import Noc.Malloc.DoubleFree
import Noc.Malloc.Ledger

/-! # The memory of the allocator

The addresses that the allocator owns are those of its chunks, free or allocated. Whoever else calls
`sbrk`, and whatever fails on the way, a call gives none of them up, and those it adds are between
the break before it and the break behind it.

* `memory_conserved`: this over a run, with what `mem_free` and the sizes of the allocated chunks
  add up to.
* `free_list_restored`: a run that ends with the break and the allocated chunks it began with ends
  with the same free list. -/

namespace Noc.Malloc

open Noc.Lib.Spans Noc.Lib.Spans.Span Noc.Targets Noc.Unistd

variable {ε : Type} {T : Target} {S : Sbrk ε} {w w' : World ε} {m : Ledger ε} {ops : List Op}
variable {p : Pool ε} {b : Bounds ε} {c : Span} {n size ptr : ℕ} {pre post l : List Span}

/-- The chunks of the ledger. -/
def Ledger.owned (m : Ledger ε) : List Span := m.pool.free ++ (m.live ++ m.lost)

/-- The chunks of the world: those in the free list and those that are allocated. -/
def World.owned (T : Target) (w : World ε) : List Span :=
  (freeChunks T w.heap).getD [] ++ w.chunks T

/-! ### Calls of the pool -/

/-- The chunk that has taken in its neighbours, and the others. -/
theorem covered_absorb {a : ℕ} : ∀ {l : List Span} {c : Span},
    Covered ((absorb c l).1 :: (absorb c l).2) a ↔ Covered (c :: l) a
  | [], _ => Iff.rfl
  | d :: l, c => by
    rw [absorb]
    split_ifs with h1 h2
    · rw [covered_absorb, covered_cons, covered_cons, covered_cons, covered_join h1,
        ← or_assoc, or_comm (a := d.start ≤ a ∧ a < d.stop)]
    · rw [covered_cons, covered_cons, covered_cons, covered_join h2, or_assoc]
    · rw [covered_cons, covered_cons, or_left_comm, ← covered_cons, covered_absorb, covered_cons,
        covered_cons, covered_cons, or_left_comm]
    · rfl

/-- A chunk in two parts. -/
theorem covered_split {a : ℕ} (h : size ≤ c.size) :
    (c.start ≤ a ∧ a < c.stop) ↔ (c.start ≤ a ∧ a < (⟨c.start, size⟩ : Span).stop) ∨
      (c.start + size ≤ a ∧ a < (⟨c.start + size, c.size - size⟩ : Span).stop) := by
  show _ ↔ (_ ∧ a < c.start + size) ∨ (_ ∧ a < c.start + size + (c.size - size))
  unfold stop
  omega

namespace Pool

theorem covered_shrink {a : ℕ} :
    Covered ((p.shrink T c size).1 :: (p.shrink T c size).2.free) a ↔ Covered (c :: p.free) a := by
  have hw := T.ptrBytes_bounds
  unfold shrink
  split_ifs with h
  · have hle : size ≤ c.size := by unfold mallocMinSize at h; omega
    show Covered (_ :: insertJoin _ p.free) a ↔ _
    rw [covered_cons, covered_insertJoin, covered_cons, covered_split hle, or_assoc]
  · rfl

section Contract
variable (hS : Contract T S)
include hS

/-- **`aligned_sbrk` on the bounds** hands out a region between the breaks, if it succeeds. -/
theorem sbrk_brk (n : ℕ) (b : Bounds ε) : S.brk b.env ≤ S.brk (b.sbrk T S n).2.env ∧
    ((b.sbrk T S n).1 ≠ T.sbrkFailure →
      S.brk b.env ≤ (b.sbrk T S n).1 ∧ (b.sbrk T S n).1 + n ≤ S.brk (b.sbrk T S n).2.env) := by
  unfold Bounds.sbrk Heap.bounds
  cases alignedSbrk_calls hS n ⟨fun _ => 0, b.sbrkStart, b.sbrkEnd, 0, b.errno, b.env⟩ with
  | tooLarge hmax hr =>
    rw [hr]
    exact ⟨le_rfl, fun h => absurd rfl h⟩
  | failed hn hcall hle hr =>
    rw [hr]
    exact ⟨hle, fun h => absurd rfl h⟩
  | aligned hn h1 hd hr =>
    rw [hr]
    have h2 := h1.brk_le
    have h3 := h1.brk
    dsimp only at h2 h3 ⊢
    exact ⟨by omega, fun _ => ⟨h2, by omega⟩⟩
  | padded hn h1 hnd hpad hpos h2 hd hr =>
    rw [hr]
    have h3 := h1.brk_le
    have h4 := h2.brk
    dsimp only at h3 h4 ⊢
    exact ⟨by omega, fun _ => ⟨by omega, by omega⟩⟩
  | elsewhere hn h1 hnd hpad hcall hne hle hr =>
    rw [hr]
    have h3 := h1.brk_le
    dsimp only at h3 hle ⊢
    exact ⟨by omega, fun h => absurd rfl h⟩

/-- **`malloc`** takes a chunk from the free list or from the environment. -/
theorem malloc_grows (n : ℕ) (p : Pool ε) : Grows (S.brk p.bounds.env) p.free
    (S.brk (p.malloc T S n).2.bounds.env)
    ((p.malloc T S n).1.toList ++ (p.malloc T S n).2.free) := by
  unfold malloc
  by_cases hn : n = 0
  · rw [if_pos hn]
    exact .of_iff le_rfl fun a => Iff.rfl
  rw [if_neg hn]
  dsimp only
  rcases hbest : bestFit (chunkSizeForData T n) p.free with _ | ⟨pre, c, post⟩
  · obtain ⟨h1, h2⟩ := sbrk_brk hS (chunkSizeForData T n) p.bounds
    dsimp only
    split_ifs with hfail
    · exact .of_iff h1 fun a => Iff.rfl
    · obtain ⟨h3, h4⟩ := h2 hfail
      exact .cons p.free h3 h4
  · obtain ⟨hfree, hfits⟩ := bestFit_spec hbest
    dsimp only
    rw [hfree]
    split_ifs with hrest
    · refine .of_iff le_rfl fun a => ?_
      show Covered (c :: (pre ++ post)) a ↔ _
      rw [covered_cons, covered_append_cons]
    · refine .of_iff le_rfl fun a => ?_
      show Covered (_ :: (pre ++ _ :: post)) a ↔ _
      rw [covered_cons, covered_append_cons, covered_append_cons, covered_split hfits, or_assoc]

/-- **`chunk_grow`** takes more from the environment, behind the chunk or for the free list. -/
theorem grow_grows (size : ℕ) (p : Pool ε) (hc : c.stop ≠ T.sbrkFailure) :
    Grows (S.brk p.bounds.env) (c :: p.free) (S.brk (p.grow T S c size).2.bounds.env)
      ((p.grow T S c size).1.getD c :: (p.grow T S c size).2.free) := by
  unfold grow
  by_cases hend : c.stop ≠ p.bounds.sbrkEnd
  · rw [if_pos hend]
    exact .of_iff le_rfl fun a => Iff.rfl
  rw [if_neg hend]
  dsimp only
  generalize (if size - c.size < mallocMinSize T then mallocMinSize T else size - c.size) = add
  obtain ⟨h1, h2⟩ := sbrk_brk hS add p.bounds
  by_cases hright : (p.bounds.sbrk T S add).1 = c.stop
  · obtain ⟨h3, h4⟩ := h2 (hright ▸ hc)
    rw [if_pos hright]
    refine (Grows.cons (c := ⟨c.stop, add⟩) (c :: p.free) (hright ▸ h3) (hright ▸ h4)).trans ?_
    refine .of_iff le_rfl fun a => ?_
    show Covered (c.join ⟨c.stop, add⟩ :: p.free) a ↔ _
    rw [covered_cons, covered_join rfl, covered_cons, covered_cons, or_left_comm, or_assoc]
  rw [if_neg hright]
  by_cases hfail : (p.bounds.sbrk T S add).1 ≠ T.sbrkFailure
  · obtain ⟨h3, h4⟩ := h2 hfail
    rw [if_pos hfail]
    refine (Grows.cons (c := ⟨_, add⟩) (c :: p.free) h3 h4).trans (.of_iff le_rfl fun a => ?_)
    show Covered (c :: insertJoin _ p.free) a ↔ _
    rw [covered_cons, covered_insertJoin, covered_cons, covered_cons, or_left_comm]
  · rw [if_neg hfail]
    exact .of_iff h1 fun a => Iff.rfl

/-- The end of `realloc`. -/
theorem finish_grows (n : ℕ) (c : Span) (p : Pool ε) :
    Grows (S.brk p.bounds.env) (c :: p.free) (S.brk (p.finish T S c n).2.2.bounds.env)
      ((p.finish T S c n).2.1 :: (p.finish T S c n).2.2.free) := by
  unfold finish
  split_ifs with hfits
  · exact .of_iff (by unfold shrink; split_ifs <;> rfl) fun a => covered_shrink
  · have h := (malloc_grows hS n p).append [c]
    rcases hm : p.malloc T S n with ⟨_ | d, q⟩
    · rw [hm] at h
      refine .trans (.of_iff le_rfl fun a => ?_) (h.trans (.of_iff le_rfl fun a => ?_))
      · exact covered_perm (List.perm_append_singleton c p.free)
      · exact (covered_perm (List.perm_append_singleton c q.free)).symm
    · rw [hm] at h
      refine .trans (.of_iff le_rfl fun a => ?_) (h.trans (.of_iff le_rfl fun a => ?_))
      · exact covered_perm (List.perm_append_singleton c p.free)
      · show Covered (d :: insertJoin c q.free) a ↔ Covered (d :: q.free ++ [c]) a
        rw [covered_cons, covered_insertJoin, covered_append, covered_cons, covered_cons,
          or_assoc, or_comm (a := Covered q.free a)]
        simp

/-- **`realloc`** of an allocated chunk. -/
theorem realloc_grows (n : ℕ) (p : Pool ε) (hc : c.stop ≠ T.sbrkFailure) :
    Grows (S.brk p.bounds.env) (c :: p.free) (S.brk (p.realloc T S c n).2.2.bounds.env)
      ((p.realloc T S c n).2.1 :: (p.realloc T S c n).2.2.free) := by
  unfold realloc
  split_ifs with hsmall
  · have h := grow_grows hS (chunkSizeForData T n) p hc
    rcases hg : p.grow T S c (chunkSizeForData T n) with ⟨_ | d, q⟩
    · rw [hg] at h
      dsimp only at h ⊢
      refine h.trans (.trans (.of_iff le_rfl fun a => ?_)
        (finish_grows hS n (absorb c q.free).1 ⟨q.bounds, (absorb c q.free).2⟩))
      exact covered_absorb
    · rw [hg] at h
      exact h
  · exact finish_grows hS n c p

end Contract

end Pool

/-! ### Steps -/

/-- What a step does to the chunks: the free ones, with one that is released or resized, change to
those behind the step, and the `rest` stays. -/
inductive Ledger.Moves (T : Target) (S : Sbrk ε) (m : Ledger ε) : Op → Ledger ε → Prop where
  | none {op : Op} : Moves T S m op m
  | malloc {n : ℕ} {m' : Ledger ε} (hp : m'.pool = (m.pool.malloc T S n).2)
      (h : m'.owned.Perm ((m.pool.malloc T S n).1.toList ++ m'.pool.free ++ (m.live ++ m.lost))) :
      Moves T S m (.malloc n) m'
  | release {op : Op} {m' : Ledger ε} {c : Span} {rest : List Span}
      (h : m.owned.Perm (c :: m.pool.free ++ rest)) (hp : m'.pool = m.pool.release c)
      (h' : m'.owned.Perm (m'.pool.free ++ rest)) : Moves T S m op m'
  | realloc {ptr n : ℕ} {m' : Ledger ε} {pre post rest : List Span} {c : Span} (hn : n ≠ 0)
      (hh : holder T ptr m.live = some (pre, c, post))
      (h : m.owned.Perm (c :: m.pool.free ++ rest)) (hp : m'.pool = (m.pool.realloc T S c n).2.2)
      (h' : m'.owned.Perm ((m.pool.realloc T S c n).2.1 :: m'.pool.free ++ rest)) :
      Moves T S m (.realloc ptr n) m'

/-- The chunks with `c` in front. -/
theorem owned_front {free live rest : List Span} (h : live.Perm (c :: rest)) :
    (free ++ live).Perm (c :: free ++ rest) :=
  (h.append_left free).trans List.perm_middle

theorem Ledger.owned_perm (hh : holder T ptr m.live = some (pre, c, post)) :
    m.owned.Perm (c :: m.pool.free ++ (pre ++ post ++ m.lost)) := by
  rw [owned, (holder_spec hh).1]
  exact owned_front (List.perm_middle.append_right m.lost)

theorem Ledger.step_moves (m : Ledger ε) (op : Op) : m.Moves T S op (m.step T S op) := by
  -- a chunk that is released
  have hrelease : ∀ {op : Op} {ptr : ℕ} {pre post : List Span} {c : Span},
      holder T ptr m.live = some (pre, c, post) →
      m.Moves T S op ⟨m.pool.release c, pre ++ post, m.lost⟩ := fun hh =>
    .release (owned_perm hh) rfl .rfl
  cases op with
  | malloc n =>
    refine .malloc rfl ?_
    rw [owned, List.append_assoc]
    show ((m.step T S (.malloc n)).pool.free ++
      ((m.pool.malloc T S n).1.toList ++ m.live ++ m.lost)).Perm _
    rw [List.append_assoc]
    exact List.perm_append_comm_assoc _ _ _
  | free ptr =>
    rw [step]
    rcases hh : holder T ptr m.live with _ | ⟨pre, c, post⟩
    · exact .none
    · exact hrelease hh
  | realloc ptr n =>
    rw [step]
    rcases hh : holder T ptr m.live with _ | ⟨pre, c, post⟩
    · exact .none
    dsimp only
    by_cases hn : n = 0
    · rw [if_pos hn]
      exact hrelease hh
    rw [if_neg hn]
    rcases hq : m.pool.realloc T S c n with ⟨_ | _, d, q⟩
    · dsimp only
      split_ifs
      · refine .realloc hn hh (owned_perm hh) (by rw [hq]) ?_
        rw [hq]
        exact owned_front (List.perm_middle.append_right m.lost)
      · refine .realloc hn hh (owned_perm hh) (by rw [hq]) ?_
        rw [hq]
        exact owned_front List.perm_middle
    · refine .realloc hn hh (owned_perm hh) (by rw [hq]) ?_
      rw [hq]
      exact owned_front .rfl
  | write mem => exact .none

/-! ### Runs -/

section Contract
variable (hS : Contract T S)
include hS

/-- **One step** of the ledger of a world. -/
theorem step_grows {op : Op} (hs : w.Shows T S m) :
    Grows (S.brk m.pool.bounds.env) m.owned (S.brk (m.step T S op).pool.bounds.env)
      (m.step T S op).owned := by
  have hperm : ∀ {b : ℕ} {l l' : List Span}, l.Perm l' → Grows b l b l' := fun h =>
    .of_iff le_rfl fun _ => (covered_perm h).symm
  have hmoves := m.step_moves (T := T) (S := S) op
  generalize m.step T S op = m' at hmoves ⊢
  cases hmoves with
  | none => exact .of_iff le_rfl fun a => Iff.rfl
  | malloc hp h =>
    rw [hp] at h ⊢
    exact ((Pool.malloc_grows hS _ m.pool).append _).trans (hperm h.symm)
  | release h hp h' =>
    rw [hp] at h' ⊢
    refine (hperm h).trans (.trans (.of_iff le_rfl fun a => ?_) (hperm h'.symm))
    show Covered (insertJoin _ m.pool.free ++ _) a ↔ _
    rw [covered_append, covered_insertJoin, covered_append, covered_cons]
  | realloc hn hh h hp h' =>
    rw [hp] at h' ⊢
    have hi := (hs.front hh).inv
    have h1 := (hi.inside _ (List.mem_append_right _ List.mem_cons_self)).hi
    have h2 := hi.end_lt hS
    exact (hperm h).trans
      (((Pool.realloc_grows hS _ m.pool (by omega)).append _).trans (hperm h'.symm))

/-- The steps of a run. -/
theorem Run.grows (hr : Run T S w ops w') (hs : w.Shows T S m) :
    Grows (S.brk m.pool.bounds.env) m.owned (S.brk (m.run T S ops).pool.bounds.env)
      (m.run T S ops).owned := by
  induction hr generalizing m with
  | nil w => exact .of_iff le_rfl fun a => Iff.rfl
  | @cons _ _ _ op _ ha hstep _ ih =>
    obtain ⟨w₁, h1, h2⟩ := hs.step hS ha
    rw [hstep] at h1
    obtain rfl := Option.some.inj h1
    exact (step_grows hS hs).trans (ih h2)

theorem World.Shows.owned (hs : w.Shows T S m) : w.owned T = m.owned := by
  rw [World.owned, hs.heap.inv.freeChunks_eq hS, hs.chunks hS]
  rfl

omit hS in
theorem World.Shows.env (hs : w.Shows T S m) : m.pool.bounds.env = w.heap.env :=
  congrArg Bounds.env hs.heap.bounds.symm

/-- **No memory is lost or made up**, whoever else calls `sbrk`: over a run, the chunks keep all
addresses they had and get others only between the two breaks; so `mem_free` and the sizes of the
allocated chunks add up to no less than before, and to no more than the break has risen. -/
theorem memory_conserved (hw : Reachable T S w) (hr : Run T S w ops w') :
    Grows (S.brk w.heap.env) (w.owned T) (S.brk w'.heap.env) (w'.owned T) ∧
    ∃ k k', memFree T w.heap = some k ∧ memFree T w'.heap = some k' ∧
      k + total (w.chunks T) ≤ k' + total (w'.chunks T) ∧
      k' + total (w'.chunks T) ≤
        k + total (w.chunks T) + (S.brk w'.heap.env - S.brk w.heap.env) := by
  obtain ⟨m, hs⟩ := hw.shows hS
  have hs' := hr.shows hS hs
  have hgrows := hr.grows hS hs
  rw [hs.env, hs'.env] at hgrows
  have hi := hs.heap.inv
  have hi' := hs'.heap.inv
  have htotal := hgrows.total_le (e := T.space) hi.pairwise_disj hi'.pairwise_disj
    (fun c hc => (hi.fit hS hc).size_pos) (fun c hc => (hi'.fit hS hc).size_pos)
    (fun c hc => (hi.fit hS hc).lt.le) fun c hc => (hi'.fit hS hc).lt.le
  rw [Ledger.owned, Ledger.owned, total_append m.pool.free,
    total_append (m.run T S ops).pool.free] at htotal
  refine ⟨by rw [hs.owned hS, hs'.owned hS]; exact hgrows, _, _, hi.memFree_eq hS,
    hi'.memFree_eq hS, ?_⟩
  rw [hs.chunks hS, hs'.chunks hS]
  exact htotal

/-- **A run that comes back**: with the break and the allocated chunks as they were, the free list
is as it was. -/
theorem free_list_restored (hw : Reachable T S w) (hr : Run T S w ops w')
    (hbrk : S.brk w'.heap.env = S.brk w.heap.env)
    (hchunks : ∀ c, c ∈ w'.chunks T ↔ c ∈ w.chunks T) :
    freeChunks T w'.heap = freeChunks T w.heap ∧ memFree T w'.heap = memFree T w.heap := by
  obtain ⟨m, hs⟩ := hw.shows hS
  have hs' := hr.shows hS hs
  have hgrows := hr.grows hS hs
  have hi := hs.heap.inv
  have hi' := hs'.heap.inv
  rw [hs.env, hs'.env, hbrk] at hgrows
  rw [hs.chunks hS, hs'.chunks hS] at hchunks
  have hfree := hgrows.eq_of_rest hchunks hi.separated hi'.separated
    (fun c hc => (hi.fit_free hS c hc).size_pos) (fun c hc => (hi'.fit_free hS c hc).size_pos)
    hi.free_live hi'.free_live
  rw [hi.freeChunks_eq hS, hi'.freeChunks_eq hS, hi.memFree_eq hS, hi'.memFree_eq hS, hfree]
  exact ⟨rfl, rfl⟩

end Contract

theorem memory_conserved_moved : ∃ k k', memFree .x8664 arenaWorld.heap = some k ∧
    memFree .x8664 movedWorld.heap = some k' ∧
    k + total (arenaWorld.chunks .x8664) ≤ k' + total (movedWorld.chunks .x8664) ∧
    k' + total (movedWorld.chunks .x8664) ≤ k + total (arenaWorld.chunks .x8664) + (4216 - 4096) :=
  (memory_conserved (arena_contract .x8664 8192) (Reachable.init _ _ _) movedWorld_run).2

/-- The world after a block is allocated and released again. -/
def againWorld : World (Break .x8664) :=
  [.malloc 24, .free 4104].foldl (World.next .x8664 (arena .x8664 8192)) releasedWorld

theorem againWorld_run :
    Run .x8664 (arena .x8664 8192) releasedWorld [.malloc 24, .free 4104] againWorld := by
  have hlive : 4104 ∈ (releasedWorld.next .x8664 (arena .x8664 8192) (.malloc 24)).live := by
    decide +kernel
  exact Run.of_permits (arena_contract _ _) releasedWorld_reachable
    ⟨Or.inr ⟨by decide, by decide⟩, hlive, trivial⟩

theorem againWorld_chunks : againWorld.chunks .x8664 = releasedWorld.chunks .x8664 := by
  decide +kernel

theorem free_list_restored_again :
    freeChunks .x8664 againWorld.heap = freeChunks .x8664 releasedWorld.heap :=
  (free_list_restored (arena_contract _ _) releasedWorld_reachable againWorld_run
    (by decide +kernel) fun c => by rw [againWorld_chunks]).1

end Noc.Malloc
