import Noc.Malloc.Owned

/-! # Loops

A program that runs for ever repeats the same calls. When one round leaves the bounds of the heap
and the allocated blocks as it found them, so does every number of rounds, and each returns what the
first one returned (`rounds_alike`). A block may be released and allocated again, so it is the
blocks that come back, and not the order in which they were allocated: ledgers are compared up to
the order of their chunks (`Ledger.Same`). That the free list is as it was follows (`Run.round`),
and the calls determine the rest. -/

namespace Noc.Malloc

open Noc.Lib.Spans Noc.Lib.Spans.Span Noc.Targets Noc.Unistd

variable {ε : Type} {T : Target} {S : Sbrk ε} {w w' v : World ε} {m m' : Ledger ε}
variable {op : Op} {ops ops' : List Op} {l l' pre post : List Span} {c : Span} {ptr : ℕ}

/-- The ledgers are the same but for the order of the chunks. -/
structure Ledger.Same (m m' : Ledger ε) : Prop where
  pool : m.pool = m'.pool
  live : m.live.Perm m'.live
  lost : m.lost.Perm m'.lost

/-- The worlds are the same but for the order of the pointers, and for the bytes of the blocks and
of the chunks that are free. -/
structure SameBlocks (T : Target) (w₁ w₂ : World ε) : Prop where
  live : w₁.live.Perm w₂.live
  lost : w₁.lost.Perm w₂.lost
  chunks : (w₁.chunks T).Perm (w₂.chunks T)
  free : freeChunks T w₁.heap = freeChunks T w₂.heap
  bounds : w₁.heap.bounds = w₂.heap.bounds

/-! ### Ledgers up to order -/

theorem Ledger.Same.refl (m : Ledger ε) : m.Same m := ⟨rfl, .refl _, .refl _⟩

theorem Ledger.Same.symm (h : m.Same m') : m'.Same m := ⟨h.pool.symm, h.live.symm, h.lost.symm⟩

theorem Ledger.Same.trans {m'' : Ledger ε} (h : m.Same m') (h' : m'.Same m'') : m.Same m'' :=
  ⟨h.pool.trans h'.pool, h.live.trans h'.live, h.lost.trans h'.lost⟩

/-- A pointer has the same chunk in any order, and the others are the same. -/
theorem holder_perm (hp : l.Perm l') (hd : (l.map (dataOf T)).Nodup)
    (h : holder T ptr l = some (pre, c, post)) : ∃ pre' post',
      holder T ptr l' = some (pre', c, post') ∧ (pre ++ post).Perm (pre' ++ post') := by
  obtain ⟨rfl, rfl, -⟩ := holder_spec h
  have hc : c ∈ l' := hp.subset (by simp)
  obtain ⟨pre', d, post', h'⟩ := exists_holder (List.mem_map_of_mem hc)
  obtain ⟨rfl, hptr, -⟩ := holder_spec h'
  obtain rfl : d = c := List.inj_on_of_nodup_map hd (hp.symm.subset (by simp)) (by simp) hptr
  refine ⟨pre', post', h', ?_⟩
  exact ((List.perm_middle.symm.trans hp).trans List.perm_middle).cons_inv

theorem holder_perm_none (hp : l.Perm l') (h : holder T ptr l = none) : holder T ptr l' = none := by
  refine Option.eq_none_iff_forall_ne_some.mpr fun ⟨pre, c, post⟩ h' => ?_
  obtain ⟨rfl, rfl, -⟩ := holder_spec h'
  have hc : c ∈ l := hp.symm.subset (by simp)
  obtain ⟨pre', d, post', h''⟩ := exists_holder (List.mem_map_of_mem hc)
  rw [h] at h''
  cases h''

/-- A call does the same in any order, and returns the same. -/
theorem Ledger.Same.step (h : m.Same m') (hd : (m.live.map (dataOf T)).Nodup) (op : Op) :
    (m.step T S op).Same (m'.step T S op) ∧ m.returned T S op = m'.returned T S op := by
  obtain ⟨pool, live, lost⟩ := m
  obtain ⟨pool', live', lost'⟩ := m'
  obtain ⟨rfl, hlive, hlost⟩ := h
  cases op with
  | malloc n => exact ⟨⟨rfl, hlive.append_left _, hlost⟩, rfl⟩
  | free ptr =>
    refine ⟨?_, rfl⟩
    rcases hh : holder T ptr live with _ | ⟨pre, c, post⟩
    · simp only [Ledger.step, hh, holder_perm_none hlive hh]
      exact ⟨rfl, hlive, hlost⟩
    · obtain ⟨pre', post', hh', hrest⟩ := holder_perm hlive hd hh
      simp only [Ledger.step, hh, hh']
      exact ⟨rfl, hrest, hlost⟩
  | realloc ptr n =>
    rcases hh : holder T ptr live with _ | ⟨pre, c, post⟩
    · simp only [Ledger.step, Ledger.returned, hh, holder_perm_none hlive hh]
      exact ⟨⟨rfl, hlive, hlost⟩, trivial⟩
    obtain ⟨pre', post', hh', hrest⟩ := holder_perm hlive hd hh
    simp only [Ledger.step, Ledger.returned, hh, hh']
    refine ⟨?_, trivial⟩
    by_cases hn : n = 0
    · rw [if_pos hn, if_pos hn]
      exact ⟨rfl, hrest, hlost⟩
    rw [if_neg hn, if_neg hn]
    rcases pool.realloc T S c n with ⟨_ | _, d, q⟩
    · dsimp only
      split_ifs
      · exact ⟨rfl, (List.perm_middle.trans (hrest.cons d)).trans List.perm_middle.symm, hlost⟩
      · exact ⟨rfl, hrest, hlost.cons d⟩
    · exact ⟨rfl, hrest.cons d, hlost⟩
  | write mem => exact ⟨⟨rfl, hlive, hlost⟩, rfl⟩

theorem Ledger.run_append (m : Ledger ε) (ops ops' : List Op) :
    m.run T S (ops ++ ops') = (m.run T S ops).run T S ops' :=
  List.foldl_append

theorem Ledger.returns_append (m : Ledger ε) : ∀ ops ops' : List Op,
    m.returns T S (ops ++ ops') = m.returns T S ops ++ (m.run T S ops).returns T S ops'
  | [], _ => rfl
  | op :: ops, ops' => by
    have ih : ∀ m : Ledger ε, m.returns T S (ops ++ ops') =
        m.returns T S ops ++ (m.run T S ops).returns T S ops' :=
      fun m => Ledger.returns_append m ops ops'
    cases op with
    | write mem => exact ih _
    | _ => exact congrArg (List.cons _) (ih _)

theorem Run.concat (hr : Run T S w ops w') (hr' : Run T S w' ops' v) :
    Run T S w (ops ++ ops') v := by
  induction hr with
  | nil w => exact hr'
  | cons ha hstep _ ih => exact .cons ha hstep (ih hr')

/-- A call is allowed in all worlds with the same pointers. -/
theorem World.Shows.allowed (hs : w.Shows T S m) (hv : v.Shows T S m') (h : m.Same m')
    (hop : calls [op] = [op]) (ha : w.Allowed T op) : v.Allowed T op := by
  have hlive : w.live.Perm v.live := by
    rw [hs.live, hv.live]
    exact h.live.map _
  cases op with
  | malloc n => exact ha
  | free ptr => exact hlive.subset ha
  | realloc ptr n => exact ⟨hlive.subset ha.1, ha.2⟩
  | write mem => cases hop

section Contract
variable (hS : Contract T S)
include hS

theorem World.Shows.nodup_live (hs : w.Shows T S m) : (m.live.map (dataOf T)).Nodup := by
  have h := hs.heap.inv.nodup_pointers hS
  rw [List.map_append] at h
  exact (List.nodup_append.mp h).1

/-- The chunks that a client holds are those with a pointer that it holds. -/
theorem World.Shows.mem_live (hs : w.Shows T S m) :
    c ∈ m.live ↔ c ∈ w.chunks T ∧ dataOf T c ∈ w.live := by
  rw [hs.chunks hS, hs.live]
  refine ⟨fun hc => ⟨List.mem_append_left _ hc, List.mem_map_of_mem hc⟩, fun ⟨hc, hp⟩ => ?_⟩
  obtain ⟨d, hd, hdc⟩ := List.mem_map.mp hp
  have hsame : d = c :=
    List.inj_on_of_nodup_map (hs.heap.inv.nodup_pointers hS) (List.mem_append_left _ hd) hc hdc
  exact hsame ▸ hd

theorem World.Shows.mem_lost (hs : w.Shows T S m) :
    c ∈ m.lost ↔ c ∈ w.chunks T ∧ dataOf T c ∉ w.live := by
  have hnodup := List.Nodup.of_map _ (hs.heap.inv.nodup_pointers hS)
  have hlive := hs.mem_live hS (c := c)
  have hdisj := (List.nodup_append.mp hnodup).2.2
  rw [hs.chunks hS] at hlive ⊢
  constructor
  · intro hc
    have hmem : c ∈ m.live ++ m.lost := List.mem_append_right _ hc
    exact ⟨hmem, fun hp => hdisj c (hlive.mpr ⟨hmem, hp⟩) c hc rfl⟩
  · rintro ⟨hc, hp⟩
    exact (List.mem_append.mp hc).resolve_left fun h => hp (hlive.mp h).2

/-- Worlds with the same ledger up to order. -/
theorem World.Shows.sameBlocks (hs : w.Shows T S m) (hv : v.Shows T S m') (h : m.Same m') :
    SameBlocks T w v where
  live := by
    rw [hs.live, hv.live]
    exact h.live.map _
  lost := by
    rw [hs.lost, hv.lost]
    exact h.lost.map _
  chunks := by
    rw [hs.chunks hS, hv.chunks hS]
    exact h.live.append h.lost
  free := by rw [hs.heap.inv.freeChunks_eq hS, hv.heap.inv.freeChunks_eq hS, h.pool]
  bounds := by rw [hs.heap.bounds, hv.heap.bounds, h.pool]

/-- A run does the same in any order, and returns the same. -/
theorem Run.same (hr : Run T S w ops w') (hs : w.Shows T S m) (h : m.Same m') :
    (m.run T S ops).Same (m'.run T S ops) ∧ m.returns T S ops = m'.returns T S ops := by
  induction hr generalizing m m' with
  | nil w => exact ⟨h, rfl⟩
  | @cons _ _ _ op ops ha hstep _ ih =>
    obtain ⟨w₁, h1, h2⟩ := hs.step hS ha
    rw [hstep] at h1
    obtain rfl := Option.some.inj h1
    obtain ⟨h3, h4⟩ := h.step (hs.nodup_live hS) op
    obtain ⟨h5, h6⟩ := ih h2 h3
    refine ⟨h5, ?_⟩
    cases op with
    | write mem => exact h6
    | _ => exact congrArg₂ List.cons h4 h6

/-- The calls of a run can be made in every world with the same ledger up to order. -/
theorem Run.replay (hr : Run T S w ops w') (hs : w.Shows T S m) (hv : v.Shows T S m')
    (h : m.Same m') :
    ∃ v', Run T S v (calls ops) v' ∧ v'.Shows T S (m'.run T S ops) := by
  induction hr generalizing m m' v with
  | nil w => exact ⟨v, .nil v, hv⟩
  | @cons _ _ _ op ops ha hstep _ ih =>
    obtain ⟨w₁, h1, h2⟩ := hs.step hS ha
    rw [hstep] at h1
    obtain rfl := Option.some.inj h1
    have hsame := (h.step (S := S) (hs.nodup_live hS) op).1
    by_cases hop : calls [op] = [op]
    · have ha' := hs.allowed hv h hop ha
      obtain ⟨v₁, h3, h4⟩ := hv.step hS ha'
      obtain ⟨v', h5, h6⟩ := ih h2 h4 hsame
      have hcalls : calls (op :: ops) = op :: calls ops := by
        rw [← List.singleton_append, calls, List.filter_append]
        exact congrArg (· ++ calls ops) hop
      rw [hcalls]
      exact ⟨v', .cons ha' h3 h5, h6⟩
    · -- a write is left out
      cases op with
      | write mem => exact ih h2 hv hsame
      | _ => exact absurd rfl hop

/-! ### Rounds -/

/-- The ledger of a world that comes back. -/
theorem Run.round (hr : Run T S w ops w') (hs : w.Shows T S m)
    (hbounds : w'.heap.bounds = w.heap.bounds) (hlive : ∀ p, p ∈ w'.live ↔ p ∈ w.live)
    (hchunks : ∀ c, c ∈ w'.chunks T ↔ c ∈ w.chunks T) : (m.run T S ops).Same m := by
  have hs' := hr.shows hS hs
  have hgrows := hr.grows hS hs
  generalize m.run T S ops = m' at hs' hgrows ⊢
  have hi := hs.heap.inv
  have hi' := hs'.heap.inv
  have hpool : m'.pool.bounds = m.pool.bounds :=
    hs'.heap.bounds.symm.trans (hbounds.trans hs.heap.bounds)
  have hnodup := List.nodup_append.mp (List.Nodup.of_map _ (hi.nodup_pointers hS))
  have hnodup' := List.nodup_append.mp (List.Nodup.of_map _ (hi'.nodup_pointers hS))
  refine ⟨?_, (List.perm_ext_iff_of_nodup hnodup'.1 hnodup.1).mpr fun c => ?_,
    (List.perm_ext_iff_of_nodup hnodup'.2.1 hnodup.2.1).mpr fun c => ?_⟩
  · rw [hs.chunks hS, hs'.chunks hS] at hchunks
    rw [hpool] at hgrows
    have hfree : m'.pool.free = m.pool.free := hgrows.eq_of_rest hchunks
      hi.separated hi'.separated (fun c hc => (hi.fit_free hS c hc).size_pos)
      (fun c hc => (hi'.fit_free hS c hc).size_pos) hi.free_live hi'.free_live
    exact congrArg₂ Pool.mk hpool hfree
  · rw [hs.mem_live hS, hs'.mem_live hS, hchunks, hlive]
  · rw [hs.mem_lost hS, hs'.mem_lost hS, hchunks, hlive]

/-- A round that comes back does so any number of times, and returns the same each time. -/
theorem Run.rounds_same (hr : Run T S w ops w') (hs : w.Shows T S m)
    (hround : (m.run T S ops).Same m) (h : m.Same m') (k : ℕ) :
    m.Same (m'.run T S (List.replicate k (calls ops)).flatten) ∧
      m'.returns T S (List.replicate k (calls ops)).flatten =
        (List.replicate k (m.returns T S ops)).flatten := by
  induction k generalizing m' with
  | zero => exact ⟨h, rfl⟩
  | succ k ih =>
    obtain ⟨h1, h2⟩ := hr.same hS hs h
    obtain ⟨h3, h4⟩ := ih (hround.symm.trans h1)
    rw [List.replicate_succ, List.flatten_cons, Ledger.run_append, Ledger.returns_append,
      run_calls, returns_calls, h4, ← h2]
    exact ⟨h3, rfl⟩

/-- Rounds that come back can be made. -/
theorem Run.rounds (hr : Run T S w ops w') (hs : w.Shows T S m)
    (hround : (m.run T S ops).Same m) (hv : v.Shows T S m') (h : m.Same m') (k : ℕ) :
    ∃ v', Run T S v (List.replicate k (calls ops)).flatten v' := by
  induction k generalizing v m' with
  | zero => exact ⟨v, .nil v⟩
  | succ k ih =>
    obtain ⟨v₁, h1, h2⟩ := hr.replay hS hs hv h
    obtain ⟨v', h3⟩ := ih h2 (hround.symm.trans (hr.same hS hs h).1)
    rw [List.replicate_succ, List.flatten_cons]
    exact ⟨v', h1.concat h3⟩

/-- **Rounds that come back can go on for ever**: let a run end with the bounds of the heap and the
allocated blocks it began with, in whatever order. Then its calls can be made any number of times,
and whatever is written in between, each round returns what the first one returned, and the blocks,
their chunks, the free list and the bounds are the same again. -/
theorem rounds_alike (hw : Reachable T S w) (hr : Run T S w ops w')
    (hbounds : w'.heap.bounds = w.heap.bounds) (hlive : ∀ p, p ∈ w'.live ↔ p ∈ w.live)
    (hchunks : ∀ c, c ∈ w'.chunks T ↔ c ∈ w.chunks T) (k : ℕ) :
    (∃ v, Run T S w (List.replicate k (calls ops)).flatten v) ∧
      ∀ ops' v, calls ops' = (List.replicate k (calls ops)).flatten → Run T S w ops' v →
        SameBlocks T w v ∧
          w.returns T S ops' = (List.replicate k (w.returns T S ops)).flatten := by
  obtain ⟨m, hs⟩ := hw.shows hS
  have hround := hr.round hS hs hbounds hlive hchunks
  refine ⟨hr.rounds hS hs hround hs (.refl m) k, fun ops' v hcalls hv => ?_⟩
  obtain ⟨h1, h2⟩ := hr.rounds_same hS hs hround (.refl m) k
  rw [← hcalls, run_calls] at h1
  rw [← hcalls, returns_calls] at h2
  refine ⟨hs.sameBlocks hS (hv.shows hS hs) h1, ?_⟩
  rw [hv.returns hS hs, hr.returns hS hs, h2, List.map_flatten, List.map_replicate]

end Contract

/-- The world after the block that was allocated first is released and allocated again, which puts
it in front of the other one. -/
def swappedWorld : World (Break .x8664) :=
  [.free 4104, .malloc 24].foldl (World.next .x8664 (arena .x8664 8192)) twoBlocks

theorem swappedWorld_run :
    Run .x8664 (arena .x8664 8192) twoBlocks [.free 4104, .malloc 24] swappedWorld := by
  have hlive : 4104 ∈ twoBlocks.live := by decide +kernel
  exact Run.of_permits (arena_contract _ _) twoBlocks_reachable
    ⟨hlive, Or.inr ⟨by decide, by decide⟩, trivial⟩

theorem swappedWorld_bounds : swappedWorld.heap.bounds = twoBlocks.heap.bounds := by
  have hfields : swappedWorld.heap.sbrkStart = twoBlocks.heap.sbrkStart ∧
      swappedWorld.heap.sbrkEnd = twoBlocks.heap.sbrkEnd ∧
      swappedWorld.heap.errno = twoBlocks.heap.errno ∧
      swappedWorld.heap.env.val = twoBlocks.heap.env.val := by decide +kernel
  obtain ⟨h1, h2, h3, h4⟩ := hfields
  rw [Heap.bounds, Heap.bounds, h1, h2, h3, Subtype.ext h4]

/-- Three rounds, the first of which swaps the two blocks. -/
theorem rounds_alike_swapped : ∃ v, Run .x8664 (arena .x8664 8192) twoBlocks
    (List.replicate 3 [.free 4104, .malloc 24]).flatten v ∧ SameBlocks .x8664 twoBlocks v := by
  have hlive : swappedWorld.live.Perm twoBlocks.live := by decide +kernel
  have hchunks : (swappedWorld.chunks .x8664).Perm (twoBlocks.chunks .x8664) := by decide +kernel
  obtain ⟨⟨v, hv⟩, h⟩ := rounds_alike (arena_contract _ _) twoBlocks_reachable swappedWorld_run
    swappedWorld_bounds (fun _ => hlive.mem_iff) (fun _ => hchunks.mem_iff) 3
  exact ⟨v, hv, (h _ v rfl hv).1⟩

end Noc.Malloc
