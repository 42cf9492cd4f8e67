import Noc.Malloc.Pool

/-! # Runs of the pool

A `Ledger` is a pool with the chunks that its clients hold: what a `World` is without memory. A run
of calls on a world is a run of the ledger (`run_shows`), which sees no write. So what a run returns
and what it leaves in the free list does not depend on the contents of memory
(`calls_determine_heap`), nor on the order in which blocks were freed (`free_order`); and as long as
nobody else calls `sbrk`, the free list is a function of the bounds and the allocated chunks,
however they came about (`free_list_canonical`). -/

namespace Noc.Malloc

open Noc.Lib.Bytes Noc.Lib.Spans Noc.Lib.Spans.Span Noc.Targets Noc.Unistd

variable {ε : Type}

/-- A pool and the chunks of its clients. -/
structure Ledger (ε : Type) where
  pool : Pool ε
  live : List Span
  lost : List Span

section Defs
variable (T : Target) (S : Sbrk ε)

/-- The first chunk with the pointer `ptr`, between the chunks before and behind it. -/
def holder (ptr : ℕ) : List Span → Option (List Span × Span × List Span)
  | [] => none
  | c :: l =>
    if dataOf T c = ptr then some ([], c, l)
    else (holder ptr l).map fun (pre, d, post) => (c :: pre, d, post)

namespace Ledger

/-- The zero-initialised state. -/
def init (errno : ℕ) (env : ε) : Ledger ε := ⟨⟨⟨0, 0, errno, env⟩, []⟩, [], []⟩

/-- One step. A chunk that a failed `realloc` joined with its left neighbour is lost. -/
def step (m : Ledger ε) : Op → Ledger ε
  | .malloc n => ⟨(m.pool.malloc T S n).2, (m.pool.malloc T S n).1.toList ++ m.live, m.lost⟩
  | .free ptr =>
    match holder T ptr m.live with
    | none => m
    | some (pre, c, post) => ⟨m.pool.release c, pre ++ post, m.lost⟩
  | .realloc ptr n =>
    match holder T ptr m.live with
    | none => m
    | some (pre, c, post) =>
      if n = 0 then ⟨m.pool.release c, pre ++ post, m.lost⟩
      else
        match m.pool.realloc T S c n with
        | (true, d, p) => ⟨p, d :: (pre ++ post), m.lost⟩
        | (false, d, p) =>
          if d.start = c.start then ⟨p, pre ++ d :: post, m.lost⟩
          else ⟨p, pre ++ post, d :: m.lost⟩
  | .write _ => m

/-- The steps of a run. -/
def run (m : Ledger ε) (ops : List Op) : Ledger ε := ops.foldl (step T S) m

/-- What a call returns. -/
def returned (m : Ledger ε) : Op → ℕ
  | .malloc n => pointer T (m.pool.malloc T S n).1
  | .realloc ptr n =>
    match holder T ptr m.live with
    | none => 0
    | some (_, c, _) =>
      if n ≠ 0 ∧ (m.pool.realloc T S c n).1 then dataOf T (m.pool.realloc T S c n).2.1 else 0
  | _ => 0

/-- What the calls of a run return. -/
def returns (m : Ledger ε) : List Op → List ℕ
  | [] => []
  | .write mem :: ops => (m.step T S (.write mem)).returns ops
  | op :: ops => m.returned T S op :: (m.step T S op).returns ops

end Ledger

/-- What the calls of a run return. -/
def World.returns (w : World ε) : List Op → List (Option ℕ)
  | [] => []
  | .write mem :: ops => (w.next T S (.write mem)).returns ops
  | op :: ops => w.returned T S op :: (w.next T S op).returns ops

/-- The heap of the world shows the pool, and the pointers of its clients are those of the
ledger. -/
structure World.Shows (w : World ε) (m : Ledger ε) : Prop where
  heap : Malloc.Shows T S w.heap m.pool (m.live ++ m.lost)
  live : w.live = m.live.map (dataOf T)
  lost : w.lost = m.lost.map (dataOf T)

/-- Allowed steps from one world to another. -/
inductive Run : World ε → List Op → World ε → Prop where
  | nil (w : World ε) : Run w [] w
  | cons {w w' w'' : World ε} {op : Op} {ops : List Op} (ha : w.Allowed T op)
      (hs : w.step T S op = some w') (hr : Run w' ops w'') : Run w (op :: ops) w''

end Defs

/-- The steps that are calls. -/
def calls (ops : List Op) : List Op := ops.filter fun | .write _ => false | _ => true

variable {T : Target} {S : Sbrk ε} {w w' w₁ w₂ : World ε} {m : Ledger ε} {ops ops' : List Op}
variable {pre post l l' : List Span} {c d : Span} {p : Pool ε} {h : Heap ε} {n ptr : ℕ}

/-! ### Chunks by their pointers -/

theorem holder_spec : ∀ {l pre post : List Span}, holder T ptr l = some (pre, c, post) →
    l = pre ++ c :: post ∧ dataOf T c = ptr ∧ ∀ d ∈ pre, dataOf T d ≠ ptr
  | [], _, _, h => by cases h
  | x :: l, pre, post, h => by
    rw [holder] at h
    split_ifs at h with hx
    · obtain ⟨rfl, rfl, rfl⟩ := h
      exact ⟨rfl, hx, by simp⟩
    · obtain ⟨⟨pre', d, post'⟩, h1, h2⟩ := Option.map_eq_some_iff.mp h
      obtain ⟨rfl, rfl, rfl⟩ := h2
      obtain ⟨h3, h4, h5⟩ := holder_spec h1
      exact ⟨by rw [h3, List.cons_append], h4, List.forall_mem_cons.mpr ⟨hx, h5⟩⟩

theorem exists_holder : ∀ {l : List Span}, ptr ∈ l.map (dataOf T) →
    ∃ pre c post, holder T ptr l = some (pre, c, post)
  | [], h => by cases h
  | x :: l, h => by
    rw [holder]
    split_ifs with hx
    · exact ⟨[], x, l, rfl⟩
    · rw [List.map_cons, List.mem_cons] at h
      obtain ⟨pre, c, post, h1⟩ := exists_holder (h.resolve_left (Ne.symm hx))
      exact ⟨x :: pre, c, post, by rw [h1]; rfl⟩

/-- The pointers that are left when one is taken away. -/
theorem erase_map (h : holder T ptr l = some (pre, c, post)) :
    (l.map (dataOf T)).erase ptr = (pre ++ post).map (dataOf T) := by
  obtain ⟨rfl, rfl, hpre⟩ := holder_spec h
  have hmem : dataOf T c ∉ pre.map (dataOf T) := by
    rintro hc
    obtain ⟨d, hd, hdc⟩ := List.mem_map.mp hc
    exact hpre d hd hdc
  rw [List.map_append, List.map_cons, List.erase_append_right _ hmem, List.erase_cons_head,
    List.map_append]

/-! ### A failed `realloc` -/

/-- The free chunk that ends where `c` starts is taken in, and else the start stays. -/
theorem absorb_start_of_none : ∀ {l : List Span} {c : Span}, (∀ d ∈ l, d.stop ≠ c.start) →
    (absorb c l).1.start = c.start
  | [], _, _ => rfl
  | x :: l, c, h => by
    obtain ⟨hx, hl⟩ := List.forall_mem_cons.mp h
    rw [absorb, if_neg hx]
    split_ifs
    · rfl
    · exact absorb_start_of_none hl
    · rfl

theorem absorb_start_of_mem (hd : d.stop = c.start) : ∀ {l : List Span}, Separated l → d ∈ l →
    (absorb c l).1.start = d.start
  | x :: l, hl, hmem => by
    obtain ⟨hx, hl'⟩ := List.pairwise_cons.mp hl
    rw [absorb]
    rcases List.mem_cons.mp hmem with rfl | hmem
    · rw [if_pos hd]
      refine absorb_start_of_none fun e he => ?_
      have := hx e he
      rw [join_start]
      unfold stop at *; omega
    · have hxd := hx d hmem
      rw [if_neg (by unfold stop at *; omega), if_neg (by unfold stop at *; omega),
        if_pos (by unfold stop at *; omega)]
      exact absorb_start_of_mem hd hl' hmem

theorem Pool.finish_failed {p q : Pool ε} (h : p.finish T S c n = (false, d, q)) :
    c.size < chunkSizeForData T n ∧ d = c := by
  unfold Pool.finish at h
  by_cases hfits : chunkSizeForData T n ≤ c.size
  · rw [if_pos hfits] at h
    cases h
  · rw [if_neg hfits] at h
    rcases hm : p.malloc T S n with ⟨_ | x, r⟩
    · rw [hm] at h
      exact ⟨by omega, (Prod.mk.inj (Prod.mk.inj h).2).1.symm⟩
    · rw [hm] at h
      cases h

/-- The chunk of a pointer, in front of the other chunks. -/
theorem World.Shows.front (hs : w.Shows T S m) (hh : holder T ptr m.live = some (pre, c, post)) :
    Malloc.Shows T S w.heap m.pool (c :: (pre ++ post ++ m.lost)) := by
  obtain ⟨h1, -, -⟩ := holder_spec hh
  refine ⟨hs.heap.inv.perm ?_, hs.heap.bounds⟩
  rw [h1, List.append_assoc, List.cons_append, List.append_assoc]
  exact List.perm_middle

section Contract
variable (hS : Contract T S)
include hS

/-- Where the data is after a failed `realloc`. -/
theorem realloc_failed_start {rest : List Span} (hs : Shows T S h p (c :: rest)) (hr : Request T n)
    {q : Pool ε} (hq : p.realloc T S c n = (false, d, q)) :
    ((∀ x ∈ p.free, x.stop ≠ c.start) → d.start = c.start) ∧
      ∀ x ∈ p.free, x.stop = c.start → d.start = x.start := by
  unfold Pool.realloc at hq
  split_ifs at hq with hsmall
  · have hdvd := dvd_chunkSizeForData T n
    obtain ⟨h1, h2, h3, -⟩ := chunkGrow_shows hS hs hsmall hdvd hr.size_lt
    rcases hg : p.grow T S c (chunkSizeForData T n) with ⟨_ | e, r⟩
    · -- the free list that is joined has the same chunk on the left
      rw [hg] at hq h2 h3
      have h3 : Shows T S h1 r (c :: rest) := h3
      have hleft : ∀ x : Span, x.stop = c.start → (x ∈ r.free ↔ x ∈ p.free) := by
        rcases chunkGrow_cases hS hs.inv hsmall hdvd hr.size_lt with
          ⟨h', m, h4, -⟩ | ⟨h', free', h4, h5, -, -, h6⟩
        · rw [h2] at h4
          cases h4
        · rw [h2] at h4
          obtain ⟨-, rfl⟩ := Prod.mk.inj (Option.some.inj h4)
          have h7 := h5.freeChunks_eq hS
          rw [h3.inv.freeChunks_eq hS] at h7
          rw [Option.some.inj h7]
          exact h6
      rw [(Pool.finish_failed hq).2]
      refine ⟨fun hnone => absorb_start_of_none fun x hx hxc => ?_, fun x hx hxc => ?_⟩
      · exact hnone x ((hleft x hxc).mp hx) hxc
      · exact absorb_start_of_mem hxc h3.inv.separated ((hleft x hxc).mpr hx)
    · rw [hg] at hq
      cases hq
  · -- a chunk that is big enough does not fail
    exact absurd (Pool.finish_failed hq).1 hsmall

/-! ### One step -/

/-- A pointer that is freed. -/
theorem World.Shows.free (hs : w.Shows T S m) (hh : holder T ptr m.live = some (pre, c, post)) :
    ∃ h', nocFree T ptr w.heap = some h' ∧
      World.Shows T S { w with heap := h', live := w.live.erase ptr }
        ⟨m.pool.release c, pre ++ post, m.lost⟩ := by
  obtain ⟨-, rfl, -⟩ := holder_spec hh
  obtain ⟨h', h1, h2⟩ := nocFree_shows hS (hs.front hh)
  exact ⟨h', h1, h2, by rw [hs.live]; exact erase_map hh, hs.lost⟩

theorem World.Shows.realloc_zero (hs : w.Shows T S m)
    (hh : holder T ptr m.live = some (pre, c, post)) :
    ∃ h', nocRealloc T S ptr 0 w.heap = some (0, h') ∧
      World.Shows T S { w with heap := h', live := w.live.erase ptr }
        ⟨m.pool.release c, pre ++ post, m.lost⟩ := by
  obtain ⟨h', h1, h2⟩ := hs.free hS hh
  have hpos := ((hs.front hh).inv.fit_live hS c (by simp)).pos
  have hptr := (holder_spec hh).2.1
  refine ⟨h', ?_, h2⟩
  rw [nocRealloc, if_neg (by unfold dataOf at hptr; omega), if_pos rfl, h1]
  rfl

theorem World.Shows.malloc (hs : w.Shows T S m) (ha : w.Allowed T (.malloc n)) :
    ∃ w', w.step T S (.malloc n) = some w' ∧ w'.Shows T S (m.step T S (.malloc n)) := by
  by_cases hn : n = 0
  · refine ⟨w, ?_, ?_⟩
    · rw [World.step, nocMalloc, if_pos hn]
      rfl
    · rw [Ledger.step, Pool.malloc, if_pos hn]
      exact hs
  have hr : Request T n := ha.resolve_left hn
  obtain ⟨h', h1, h2⟩ := nocMalloc_shows hS hs.heap hr
  rw [World.step, h1, Ledger.step]
  refine ⟨_, rfl, ?_⟩
  rcases hq : m.pool.malloc T S n with ⟨_ | c, q⟩
  · rw [hq] at h2
    exact ⟨h2, hs.live, hs.lost⟩
  · rw [hq] at h2
    have h2 : Malloc.Shows T S h' q (c :: (m.live ++ m.lost)) := h2
    have hpos := (h2.inv.fit_live hS c (by simp)).pos
    have hne : pointer T (some c) ≠ 0 := by
      show c.start + T.ptrBytes ≠ 0
      omega
    refine ⟨h2, ?_, hs.lost⟩
    dsimp only
    rw [if_neg hne, hs.live]
    rfl

/-- The world after a `realloc` that failed: the block is in reach if its data is where it was. -/
theorem World.Shows.realloc_failed {h' : Heap ε} {q : Pool ε} (hs : w.Shows T S m)
    (hh : holder T ptr m.live = some (pre, c, post)) (hr : Request T n)
    (hq : m.pool.realloc T S c n = (false, d, q))
    (h2 : Malloc.Shows T S h' q (d :: (pre ++ post ++ m.lost))) :
    World.Shows T S (match leftNeighbour T w.heap ptr with
        | none => { w with heap := h' }
        | some x => ⟨h', w.live.erase ptr, dataOf T x :: w.lost⟩)
      (if d.start = c.start then ⟨q, pre ++ d :: post, m.lost⟩
        else ⟨q, pre ++ post, d :: m.lost⟩) := by
  have hfront := hs.front hh
  obtain ⟨hnone, hsome⟩ := realloc_failed_start hS hfront hr hq
  have hleft := leftNeighbour_eq hS hfront.inv (c := c) (by simp)
  rw [(holder_spec hh).2.1] at hleft
  rw [hleft]
  cases hfind : m.pool.free.find? fun x => decide (x.stop = c.start) with
  | none =>
    have hstart := hnone fun x hx => by simpa using List.find?_eq_none.mp hfind x hx
    rw [if_pos hstart]
    refine ⟨⟨h2.inv.perm ?_, h2.bounds⟩, ?_, hs.lost⟩
    · rw [List.append_assoc, List.append_assoc, List.cons_append]
      exact List.perm_middle.symm
    · rw [hs.live, (holder_spec hh).1]
      simp only [List.map_append, List.map_cons]
      unfold dataOf
      rw [hstart]
  | some x =>
    have hx := List.mem_of_find?_eq_some hfind
    have hxc : x.stop = c.start := by simpa using List.find?_some hfind
    have hstart := hsome x hx hxc
    have hxpos := (hfront.inv.fit_free hS x hx).size_pos
    rw [if_neg (by unfold stop at hxc; omega)]
    refine ⟨⟨h2.inv.perm List.perm_middle.symm, h2.bounds⟩, ?_, ?_⟩
    · rw [hs.live]
      exact erase_map hh
    · rw [hs.lost, List.map_cons]
      unfold dataOf
      rw [hstart]

theorem World.Shows.realloc (hs : w.Shows T S m) (ha : w.Allowed T (.realloc ptr n)) :
    ∃ w', w.step T S (.realloc ptr n) = some w' ∧
      w'.Shows T S (m.step T S (.realloc ptr n)) := by
  obtain ⟨hp, hn⟩ := ha
  obtain ⟨pre, c, post, hh⟩ := exists_holder (hs.live ▸ hp : ptr ∈ m.live.map (dataOf T))
  obtain ⟨-, hptr, -⟩ := holder_spec hh
  rw [World.step, Ledger.step, hh]
  dsimp only
  by_cases hn0 : n = 0
  · obtain ⟨h', h1, h2⟩ := hs.realloc_zero hS hh
    rw [hn0, h1, if_pos rfl]
    exact ⟨_, rfl, h2⟩
  have hr : Request T n := hn.resolve_left hn0
  obtain ⟨h', h1, h2⟩ := nocRealloc_shows hS (hs.front hh) hr
  rw [hptr] at h1
  rw [h1, if_neg hn0]
  refine ⟨_, rfl, ?_⟩
  dsimp only
  rw [if_neg hn0]
  rcases hq : m.pool.realloc T S c n with ⟨_ | _, d, q⟩
  · rw [hq] at h2
    dsimp only
    rw [if_neg (by simp)]
    exact hs.realloc_failed hS hh hr hq h2
  · rw [hq] at h2
    have h2 : Malloc.Shows T S h' q (d :: (pre ++ post ++ m.lost)) := h2
    have hdpos := (h2.inv.fit_live hS d (by simp)).pos
    dsimp only
    rw [if_pos rfl, if_pos (by unfold dataOf; omega)]
    refine ⟨h2, ?_, hs.lost⟩
    rw [hs.live, erase_map hh]
    rfl

/-- **An allowed step of the world is that of the ledger.** -/
theorem World.Shows.step {op : Op} (hs : w.Shows T S m) (ha : w.Allowed T op) :
    ∃ w', w.step T S op = some w' ∧ w'.Shows T S (m.step T S op) := by
  cases op with
  | malloc n => exact hs.malloc hS ha
  | free ptr =>
    obtain ⟨pre, c, post, hh⟩ := exists_holder (hs.live ▸ ha : ptr ∈ m.live.map (dataOf T))
    obtain ⟨h', h1, h2⟩ := hs.free hS hh
    rw [World.step, h1, Ledger.step, hh]
    exact ⟨_, rfl, h2⟩
  | realloc ptr n => exact hs.realloc hS ha
  | write mem =>
    have ho : w.Ok T S m.pool.free (m.live ++ m.lost) := by
      refine ⟨hs.heap.inv, ?_⟩
      rw [hs.live, hs.lost, List.map_append]
    exact ⟨_, rfl, ⟨ho.allowed_write hS ha, hs.heap.bounds⟩, hs.live, hs.lost⟩

/-- And it returns what the ledger says. -/
theorem World.Shows.returned {op : Op} (hs : w.Shows T S m) (ha : w.Allowed T op) :
    w.returned T S op = some (m.returned T S op) := by
  cases op with
  | malloc n =>
    by_cases hn : n = 0
    · rw [World.returned, nocMalloc, if_pos hn, Ledger.returned, Pool.malloc, if_pos hn]
      rfl
    · obtain ⟨h', h1, -⟩ := nocMalloc_shows hS hs.heap (ha.resolve_left hn)
      rw [World.returned, h1]
      rfl
  | free ptr =>
    obtain ⟨pre, c, post, hh⟩ := exists_holder (hs.live ▸ ha : ptr ∈ m.live.map (dataOf T))
    obtain ⟨h', h1, -⟩ := hs.free hS hh
    rw [World.returned, h1]
    rfl
  | realloc ptr n =>
    obtain ⟨hp, hn⟩ := ha
    obtain ⟨pre, c, post, hh⟩ := exists_holder (hs.live ▸ hp : ptr ∈ m.live.map (dataOf T))
    rw [World.returned, Ledger.returned, hh]
    dsimp only
    by_cases hn0 : n = 0
    · obtain ⟨h', h1, -⟩ := hs.realloc_zero hS hh
      rw [hn0, h1, if_neg fun h => h.1 rfl]
      rfl
    · obtain ⟨h', h1, -⟩ := nocRealloc_shows hS (hs.front hh) (hn.resolve_left hn0)
      rw [(holder_spec hh).2.1] at h1
      rw [h1]
      simp [hn0]
  | write mem => rfl

/-! ### Runs -/

/-- **A run of the world is a run of the ledger.** -/
theorem Run.shows (hr : Run T S w ops w') (hs : w.Shows T S m) : w'.Shows T S (m.run T S ops) := by
  induction hr generalizing m with
  | nil w => exact hs
  | cons ha hstep _ ih =>
    obtain ⟨w', h1, h2⟩ := hs.step hS ha
    rw [hstep] at h1
    obtain rfl := Option.some.inj h1
    exact ih h2

/-- The calls of a run return what the ledger says. -/
theorem Run.returns (hr : Run T S w ops w') (hs : w.Shows T S m) :
    w.returns T S ops = (m.returns T S ops).map some := by
  induction hr generalizing m with
  | nil w => rfl
  | @cons w w₁ w₂ op ops ha hstep _ ih =>
    obtain ⟨w', h1, h2⟩ := hs.step hS ha
    have hnext : w.next T S op = w₁ := by rw [World.next, hstep, Option.getD_some]
    rw [hstep] at h1
    obtain rfl := Option.some.inj h1
    have hret := hs.returned hS ha
    have hrest := ih h2
    rw [← hnext] at hrest
    cases op with
    | write mem => exact hrest
    | _ =>
      rw [World.returns, hret, hrest, Ledger.returns, List.map_cons]
      all_goals simp

omit hS in
theorem Ledger.init_shows (mem : Mem) (errno : ℕ) (env : ε) :
    (World.init mem errno env).Shows T S (.init errno env) :=
  ⟨⟨Inv.init mem errno env, rfl⟩, rfl, rfl⟩

theorem Reachable.shows (hw : Reachable T S w) : ∃ m, w.Shows T S m := by
  induction hw with
  | init mem errno env => exact ⟨_, Ledger.init_shows mem errno env⟩
  | step op _ ha hstep ih =>
    obtain ⟨m, hs⟩ := ih
    obtain ⟨w', h1, h2⟩ := hs.step hS ha
    rw [hstep] at h1
    obtain rfl := Option.some.inj h1
    exact ⟨_, h2⟩

omit hS in
theorem Reachable.run (hw : Reachable T S w) (hr : Run T S w ops w') : Reachable T S w' := by
  induction hr with
  | nil w => exact hw
  | cons ha hstep _ ih => exact ih (hw.step _ ha hstep)

omit hS in
theorem Run.split : ∀ {ops : List Op} {w : World ε}, Run T S w (ops ++ ops') w' →
    ∃ v, Run T S w ops v ∧ Run T S v ops' w'
  | [], w, hr => ⟨w, .nil w, hr⟩
  | op :: ops, w, hr => by
    cases hr with
    | cons ha hstep hr =>
      obtain ⟨v, h1, h2⟩ := hr.split
      exact ⟨v, .cons ha hstep h1, h2⟩

/-- The chunks behind the pointers are those of the ledger. -/
theorem World.Shows.chunks (hs : w.Shows T S m) : w.chunks T = m.live ++ m.lost := by
  unfold World.chunks
  rw [hs.live, hs.lost, ← List.map_append, List.map_map]
  refine (List.map_congr_left fun c hc => ?_).trans (List.map_id _)
  exact hs.heap.inv.chunkOf_dataOf hS hc

/-- **The allocator is its pool**: after every run, the pointers, their chunks, the free list and
the bounds are those that the ledger computes from the calls, and so is the result of the next
`malloc`. -/
theorem run_shows {mem : Mem} {errno : ℕ} {env : ε}
    (hr : Run T S (World.init mem errno env) ops w) :
    let m := (Ledger.init errno env).run T S ops
    w.live = m.live.map (dataOf T) ∧ w.lost = m.lost.map (dataOf T) ∧
    w.chunks T = m.live ++ m.lost ∧ freeChunks T w.heap = some m.pool.free ∧
    w.heap.bounds = m.pool.bounds ∧
    ∀ n, Request T n → (nocMalloc T S n w.heap).map Prod.fst =
      some (pointer T (m.pool.malloc T S n).1) := by
  have hs := hr.shows hS (Ledger.init_shows mem errno env)
  refine ⟨hs.live, hs.lost, hs.chunks hS, hs.heap.inv.freeChunks_eq hS, hs.heap.bounds,
    fun n hn => ?_⟩
  obtain ⟨h', h1, -⟩ := nocMalloc_shows hS hs.heap hn
  rw [h1]
  rfl

end Contract

/-! ### What a run depends on -/

/-- The worlds are the same but for the bytes of the blocks and of the chunks that are free. -/
structure Alike (T : Target) (w₁ w₂ : World ε) : Prop where
  live : w₁.live = w₂.live
  lost : w₁.lost = w₂.lost
  chunks : w₁.chunks T = w₂.chunks T
  free : freeChunks T w₁.heap = freeChunks T w₂.heap
  bounds : w₁.heap.bounds = w₂.heap.bounds

section Filter
variable {l : List ℕ} (hptr : dataOf T c = ptr) (hother : ∀ d ∈ pre ++ post, dataOf T d ≠ ptr)
include hptr hother

/-- The chunks that are left when `ptr` and then others are freed. -/
theorem filter_notMem_cons : (pre ++ c :: post).filter (fun x => dataOf T x ∉ ptr :: l) =
    (pre ++ post).filter fun x => dataOf T x ∉ l := by
  rw [List.filter_append, List.filter_append, List.filter_cons, if_neg (by simp [hptr])]
  congr 1 <;> refine List.filter_congr fun d hd => ?_
  · simp [hother d (by simp [hd])]
  · simp [hother d (by simp [hd])]

theorem covered_filter_mem_cons {a : ℕ} :
    Covered ((pre ++ c :: post).filter fun x => dataOf T x ∈ ptr :: l) a ↔
      (c.start ≤ a ∧ a < c.stop) ∨ Covered ((pre ++ post).filter fun x => dataOf T x ∈ l) a := by
  rw [List.filter_append, List.filter_cons, if_pos (by simp [hptr]), covered_append_cons,
    List.filter_append]
  refine or_congr_right (iff_of_eq (congrArg (Covered · a) ?_))
  congr 1 <;> refine List.filter_congr fun d hd => ?_
  · simp [hother d (by simp [hd])]
  · simp [hother d (by simp [hd])]

end Filter

theorem returns_calls (m : Ledger ε) : ∀ ops : List Op,
    m.returns T S (calls ops) = m.returns T S ops
  | [] => rfl
  | op :: ops => by
    have ih : ∀ m : Ledger ε, m.returns T S (calls ops) = m.returns T S ops :=
      fun m => returns_calls m ops
    cases op with
    | write mem => exact ih m
    | _ => exact congrArg (List.cons _) (ih _)

theorem run_calls (m : Ledger ε) : ∀ ops : List Op, m.run T S (calls ops) = m.run T S ops
  | [] => rfl
  | op :: ops => by
    have ih : ∀ m : Ledger ε, m.run T S (calls ops) = m.run T S ops := fun m => run_calls m ops
    cases op <;> exact ih _

section Contract
variable (hS : Contract T S)
include hS

theorem World.Shows.alike (h₁ : w₁.Shows T S m) (h₂ : w₂.Shows T S m) : Alike T w₁ w₂ where
  live := h₁.live.trans h₂.live.symm
  lost := h₁.lost.trans h₂.lost.symm
  chunks := (h₁.chunks hS).trans (h₂.chunks hS).symm
  free := (h₁.heap.inv.freeChunks_eq hS).trans (h₂.heap.inv.freeChunks_eq hS).symm
  bounds := h₁.heap.bounds.trans h₂.heap.bounds.symm

/-- **The calls determine the heap**: two runs with the same calls return the same results, one
after the other, and leave the same pointers and the same free list, whatever was in memory at first
and whatever is written in between. -/
theorem calls_determine_heap {mem₁ mem₂ : Mem} {errno : ℕ} {env : ε}
    (h₁ : Run T S (World.init mem₁ errno env) ops w₁)
    (h₂ : Run T S (World.init mem₂ errno env) ops' w₂) (hc : calls ops = calls ops') :
    (World.init mem₁ errno env).returns T S ops = (World.init mem₂ errno env).returns T S ops' ∧
      Alike T w₁ w₂ := by
  have hs₁ := h₁.shows hS (Ledger.init_shows mem₁ errno env)
  have hs₂ := h₂.shows hS (Ledger.init_shows mem₂ errno env)
  rw [h₁.returns hS (Ledger.init_shows mem₁ errno env),
    h₂.returns hS (Ledger.init_shows mem₂ errno env), ← returns_calls, hc, returns_calls]
  rw [← run_calls] at hs₁ hs₂
  rw [hc] at hs₁
  exact ⟨rfl, hs₁.alike hS hs₂⟩

/-- A ledger after some chunks are freed. -/
theorem Run.frees : ∀ {l : List ℕ} {w : World ε} {m : Ledger ε}, Run T S w (l.map .free) w' →
    w.Shows T S m → ∃ free,
      m.run T S (l.map .free) =
        ⟨⟨m.pool.bounds, free⟩, m.live.filter fun c => dataOf T c ∉ l, m.lost⟩ ∧
      ∀ a, Covered free a ↔
        Covered m.pool.free a ∨ Covered (m.live.filter fun c => dataOf T c ∈ l) a
  | [], _, m, _, _ => ⟨m.pool.free, by simp [Ledger.run], by simp⟩
  | ptr :: l, w, m, hr, hs => by
    cases hr with
    | cons ha hstep hr =>
      obtain ⟨pre, c, post, hh⟩ := exists_holder (hs.live ▸ ha : ptr ∈ m.live.map (dataOf T))
      obtain ⟨hlive, hptr, -⟩ := holder_spec hh
      have hfront := hs.front hh
      have hfresh := (List.nodup_cons.mp (hfront.inv.nodup_pointers hS)).1
      rw [hptr] at hfresh
      have hother : ∀ d ∈ pre ++ post, dataOf T d ≠ ptr := by
        rintro d hd rfl
        exact hfresh (List.mem_map_of_mem (List.mem_append_left _ hd))
      obtain ⟨w₁, h1, h2⟩ := hs.step hS ha
      rw [hstep] at h1
      obtain rfl := Option.some.inj h1
      obtain ⟨free, h3, h4⟩ := Run.frees hr h2
      have hm : m.step T S (.free ptr) = ⟨m.pool.release c, pre ++ post, m.lost⟩ := by
        rw [Ledger.step, hh]
      rw [hm] at h3 h4
      refine ⟨free, ?_, fun a => ?_⟩
      · have hrun : m.run T S ((ptr :: l).map .free) =
            (m.step T S (.free ptr)).run T S (l.map .free) := rfl
        rw [hrun, hm, h3, hlive, filter_notMem_cons hptr hother]
        rfl
      · have hins : Covered (m.pool.release c).free a ↔ _ := covered_insertJoin m.pool.free
        rw [h4, hlive, covered_filter_mem_cons hptr hother, hins, or_assoc, or_left_comm]

/-- **The order in which blocks are freed does not matter**, neither for the free list nor for any
later call. -/
theorem free_order {l l' : List ℕ} (hw : Reachable T S w) (hp : l.Perm l')
    (h₁ : Run T S w (l.map .free ++ ops) w₁) (h₂ : Run T S w (l'.map .free ++ ops') w₂)
    (hc : calls ops = calls ops') : Alike T w₁ w₂ := by
  obtain ⟨m, hs⟩ := hw.shows hS
  obtain ⟨v₁, h3, h4⟩ := h₁.split
  obtain ⟨v₂, h5, h6⟩ := h₂.split
  obtain ⟨free₁, h7, h8⟩ := h3.frees hS hs
  obtain ⟨free₂, h9, h10⟩ := h5.frees hS hs
  have hs₁ := h3.shows hS hs
  have hs₂ := h5.shows hS hs
  rw [h7] at hs₁
  rw [h9] at hs₂
  -- both lists have the addresses that were free and those of the freed chunks
  have hfree : free₁ = free₂ := by
    refine Separated.ext hs₁.heap.inv.separated hs₂.heap.inv.separated
      (fun c hc => (hs₁.heap.inv.fit_free hS c hc).size_pos)
      (fun c hc => (hs₂.heap.inv.fit_free hS c hc).size_pos) fun a => ?_
    rw [h8, h10]
    simp only [hp.mem_iff]
  have hsame : Ledger.mk ⟨m.pool.bounds, free₁⟩ (m.live.filter fun c => dataOf T c ∉ l) m.lost =
      ⟨⟨m.pool.bounds, free₂⟩, m.live.filter fun c => dataOf T c ∉ l', m.lost⟩ := by
    rw [hfree]
    simp only [hp.mem_iff]
  rw [← hsame] at hs₂
  have hs₃ := h4.shows hS hs₁
  have hs₄ := h6.shows hS hs₂
  rw [← run_calls] at hs₃ hs₄
  rw [hc] at hs₃
  exact hs₃.alike hS hs₄

/-- **The free list has no history**: when nobody else calls `sbrk`, two reachable worlds with the
same bounds and the same allocated chunks have the same free list, whatever calls led there. -/
theorem free_list_canonical (hx : Exclusive T S) (hw₁ : Reachable T S w₁) (hw₂ : Reachable T S w₂)
    (hstart : w₁.heap.sbrkStart = w₂.heap.sbrkStart) (hend : w₁.heap.sbrkEnd = w₂.heap.sbrkEnd)
    (hchunks : ∀ c, c ∈ w₁.chunks T ↔ c ∈ w₂.chunks T) :
    freeChunks T w₁.heap = freeChunks T w₂.heap ∧ memFree T w₁.heap = memFree T w₂.heap := by
  obtain ⟨m₁, hs₁⟩ := hw₁.shows hS
  obtain ⟨m₂, hs₂⟩ := hw₂.shows hS
  have hi₁ := hs₁.heap.inv
  have hi₂ := hs₂.heap.inv
  rw [hs₁.chunks hS, hs₂.chunks hS] at hchunks
  -- the free addresses are those of the heap that are not allocated
  have hfree : ∀ {h : Heap ε} {free live : List Span}, Inv T S h free live → ∀ a,
      Covered free a ↔ (h.sbrkStart ≤ a ∧ a < h.sbrkEnd ∧ h.sbrkStart ≠ 0) ∧ ¬ Covered live a := by
    intro h free live hi a
    constructor
    · rintro ⟨c, hc, h1, h2⟩
      have hin := hi.inside c (by simp [hc])
      have hlo := hin.lo
      have hhi := hin.hi
      refine ⟨⟨by omega, by omega, fun h0 => ?_⟩, ?_⟩
      · have := (hi.fit hS (show c ∈ free ++ live by simp [hc]))
        rw [(List.append_eq_nil_iff.mp (hi.none h0)).1] at hc
        cases hc
      · exact not_covered_of_disj (fun d hd => (hi.free_live c hc d hd).symm) h1 h2
    · rintro ⟨⟨h1, h2, h0⟩, h3⟩
      exact (covered_append.mp ((hi.tiled hx h0).fill a h1 h2)).resolve_right h3
  have hlist : m₁.pool.free = m₂.pool.free := by
    refine Separated.ext hi₁.separated hi₂.separated
      (fun c hc => (hi₁.fit_free hS c hc).size_pos)
      (fun c hc => (hi₂.fit_free hS c hc).size_pos) fun a => ?_
    have hlive : Covered (m₁.live ++ m₁.lost) a ↔ Covered (m₂.live ++ m₂.lost) a := by
      unfold Covered
      simp only [hchunks]
    rw [hfree hi₁, hfree hi₂, hstart, hend, hlive]
  rw [hi₁.freeChunks_eq hS, hi₂.freeChunks_eq hS, hi₁.memFree_eq hS, hi₂.memFree_eq hS, hlist]
  exact ⟨rfl, rfl⟩

end Contract

/-! ### Examples of runs -/

theorem Run.of_permits (hS : Contract T S) : ∀ {ops : List Op} {w : World ε}, Reachable T S w →
    w.Permits T S ops → Run T S w ops (ops.foldl (World.next T S) w)
  | [], w, _, _ => .nil w
  | op :: _, _, hw, hp =>
    .cons hp.1 (World.step_next (hw.progress hS hp.1)) (Run.of_permits hS (hw.next hS op hp.1) hp.2)

theorem movedWorld_run : Run .x8664 (arena .x8664 8192) arenaWorld movedOps movedWorld :=
  Run.of_permits (arena_contract _ _) (Reachable.init _ _ _) movedWorld_permits

theorem run_shows_moved :
    freeChunks .x8664 movedWorld.heap =
      some ((Ledger.init 0 ⟨4096, by decide⟩).run .x8664 (arena .x8664 8192) movedOps).pool.free ∧
    movedWorld.live = ((Ledger.init 0 ⟨4096, by decide⟩).run .x8664 (arena .x8664 8192)
      movedOps).live.map (dataOf .x8664) :=
  have h := run_shows (arena_contract _ _) movedWorld_run
  ⟨h.2.2.2.1, h.1⟩

/-- Another memory at first. -/
def zeroWorld : World (Break .x8664) := .init (fun _ => UInt8.ofNat 0) 0 arenaWorld.heap.env

/-- The other memory, written to before the calls. -/
theorem calls_determine_heap_written : ∃ w₂, Run .x8664 (arena .x8664 8192) zeroWorld
    (.write (fun _ => 7) :: movedOps) w₂ ∧
    arenaWorld.returns .x8664 (arena .x8664 8192) movedOps =
      zeroWorld.returns .x8664 (arena .x8664 8192) (.write (fun _ => 7) :: movedOps) ∧
    Alike .x8664 movedWorld w₂ := by
  have hfree : freeChunks .x8664 zeroWorld.heap = some [] := by decide +kernel
  have hpermits :
      zeroWorld.Permits .x8664 (arena .x8664 8192) (.write (fun _ => 7) :: movedOps) := by
    refine ⟨fun a _ => Or.inr ⟨[], hfree, not_covered_nil⟩, Or.inr ⟨by decide, by decide⟩,
      Or.inr ⟨by decide, by decide⟩, Or.inr ⟨by decide, by decide⟩, ?_,
      ⟨?_, Or.inr ⟨by decide, by decide⟩⟩, trivial⟩
    · show 4104 ∈ _
      decide +kernel
    · decide +kernel
  have hrun := Run.of_permits (arena_contract _ _) (Reachable.init _ _ _) hpermits
  exact ⟨_, hrun, calls_determine_heap (arena_contract _ _) movedWorld_run hrun rfl⟩

theorem free_order_two : ∃ w₁ w₂,
    Run .x8664 (arena .x8664 8192) twoBlocks ([4104, 4136].map .free ++ [.malloc 40]) w₁ ∧
    Run .x8664 (arena .x8664 8192) twoBlocks ([4136, 4104].map .free ++ [.malloc 40]) w₂ ∧
    Alike .x8664 w₁ w₂ := by
  have hfree : ∀ {p q : ℕ}, p ∈ twoBlocks.live →
      q ∈ (twoBlocks.next .x8664 (arena .x8664 8192) (.free p)).live →
      twoBlocks.Permits .x8664 (arena .x8664 8192) [.free p, .free q, .malloc 40] := fun hp hq =>
    ⟨hp, hq, Or.inr ⟨by decide, by decide⟩, trivial⟩
  have h₁ : Run .x8664 (arena .x8664 8192) twoBlocks ([4104, 4136].map .free ++ [.malloc 40]) _ :=
    Run.of_permits (arena_contract _ _) twoBlocks_reachable
      (hfree (p := 4104) (q := 4136) (by decide +kernel) (by decide +kernel))
  have h₂ : Run .x8664 (arena .x8664 8192) twoBlocks ([4136, 4104].map .free ++ [.malloc 40]) _ :=
    Run.of_permits (arena_contract _ _) twoBlocks_reachable
      (hfree (p := 4136) (q := 4104) (by decide +kernel) (by decide +kernel))
  exact ⟨_, _, h₁, h₂,
    free_order (arena_contract _ _) twoBlocks_reachable (List.Perm.swap _ _ _) h₁ h₂ rfl⟩

/-- One block, allocated at first or after a `free`. -/
theorem free_list_canonical_again : ∃ w₂,
    Run .x8664 (arena .x8664 8192) mallocWorld [.free 4104, .malloc 24] w₂ ∧
    freeChunks .x8664 mallocWorld.heap = freeChunks .x8664 w₂.heap := by
  have hlive : 4104 ∈ mallocWorld.live := by decide +kernel
  have hpermits : mallocWorld.Permits .x8664 (arena .x8664 8192) [.free 4104, .malloc 24] :=
    ⟨hlive, Or.inr ⟨by decide, by decide⟩, trivial⟩
  have h₂ := Run.of_permits (arena_contract _ _) mallocWorld_reachable hpermits
  refine ⟨_, h₂, (free_list_canonical (arena_contract _ _) (arena_exclusive _ _)
    mallocWorld_reachable (mallocWorld_reachable.run h₂) ?_ ?_ ?_).1⟩
  · decide +kernel
  · decide +kernel
  · have hsame : mallocWorld.chunks .x8664 = ([.free 4104, .malloc 24].foldl
        (World.next .x8664 (arena .x8664 8192)) mallocWorld).chunks .x8664 := by decide +kernel
    rw [hsame]
    exact fun _ => Iff.rfl

end Noc.Malloc
