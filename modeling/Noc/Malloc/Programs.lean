import Noc.Malloc.Calloc

/-! # Programs that call `calloc`

`noc_calloc` clears `nmemb * size` bytes of a block that `noc_malloc` made for `size`. Where the
block has room for them (`Affords`), a call is a `malloc` and a write to the new block. So programs
whose calls of `calloc` are all such stay among the worlds of `Reachable`, and what holds there
holds of them (`calloc_runs`). -/

namespace Noc.Malloc

open Noc.Lib.Bytes Noc.Lib.Spans Noc.Lib.Spans.Span Noc.Targets Noc.Unistd Noc.Memcpy

variable {ε : Type}

section Defs
variable (T : Target) (S : Sbrk ε)

/-- `calloc(nmemb, size)` stays in its block: the product overflows, nothing is asked for, or the
block for `size` has room for the product. -/
def Affords (h : Heap ε) (nmemb size : ℕ) : Prop :=
  T.space ≤ nmemb * size ∨ size = 0 ∨ (Request T size ∧ RoomFor T h size (nmemb * size))

/-- A call of `calloc`; `none` if it does not return. -/
def World.calloc (w : World ε) (nmemb size : ℕ) : Option (World ε) :=
  (nocCalloc T S nmemb size w.heap).map fun (ptr, h) =>
    { w with heap := h, live := if ptr = 0 then w.live else ptr :: w.live }

/-- The worlds of all runs of steps and calls of `calloc`. -/
inductive CallocReachable : World ε → Prop where
  | init (mem : Mem) (errno : ℕ) (env : ε) : CallocReachable (World.init mem errno env)
  | step {w w' : World ε} (op : Op) (hw : CallocReachable w) (ha : w.Allowed T op)
      (hs : w.step T S op = some w') : CallocReachable w'
  | calloc {w w' : World ε} {nmemb size : ℕ} (hw : CallocReachable w)
      (ha : Affords T w.heap nmemb size) (hs : w.calloc T S nmemb size = some w') :
      CallocReachable w'

end Defs

variable {T : Target} {S : Sbrk ε} {w w' : World ε} {nmemb size n : ℕ}

/-- The block for one element has room for it. -/
theorem Affords.one {h : Heap ε} (hr : Request T n) : Affords T h 1 n :=
  Or.inr (Or.inr ⟨hr, Or.inl (by rw [Nat.one_mul]; exact hr.le_size)⟩)

section Contract
variable (hS : Contract T S)
include hS

/-- **A call of `calloc`** is sound, and leads to a reachable world. -/
theorem Reachable.calloc (hw : Reachable T S w) (ha : Affords T w.heap nmemb size) :
    CallocSound T S w.heap nmemb size ∧
      ∃ w', w.calloc T S nmemb size = some w' ∧ Reachable T S w' := by
  by_cases hover : T.space ≤ nmemb * size
  · have hcalloc : nocCalloc T S nmemb size w.heap = some (0, w.heap) := by
      rw [nocCalloc, if_pos hover]
    refine ⟨⟨0, w.heap, hcalloc, fun h => absurd rfl h, fun _ => ⟨rfl, rfl⟩⟩, w, ?_, hw⟩
    rw [World.calloc, hcalloc]
    rfl
  by_cases hn0 : size = 0
  · have hcalloc : nocCalloc T S nmemb size w.heap = some (0, w.heap) := by
      rw [nocCalloc, if_neg hover, nocMalloc, if_pos hn0]
      rfl
    refine ⟨⟨0, w.heap, hcalloc, fun h => absurd rfl h, fun h => absurd h hover⟩, w, ?_, hw⟩
    rw [World.calloc, hcalloc]
    rfl
  obtain ⟨hr, hroom⟩ := (ha.resolve_left hover).resolve_left hn0
  obtain ⟨free, chunks, ho⟩ := hw.ok hS
  rcases nocMalloc_cases hS ho.inv hr with ⟨h₁, h1, -⟩ | ⟨h₁, free', c, h1, h2⟩
  · -- no memory
    have hcalloc : nocCalloc T S nmemb size w.heap = some (0, h₁) := by
      rw [nocCalloc, if_neg hover, h1]
      rfl
    refine ⟨⟨0, h₁, hcalloc, fun h => absurd rfl h, fun h => absurd h hover⟩, _, ?_,
      hw.step (.malloc size) (Or.inr hr) (by rw [World.step, h1]; rfl)⟩
    rw [World.calloc, hcalloc]
    rfl
  · -- a block, and a write to it
    have hfit := h2.inv.fit_live hS c (by simp)
    have hpos := hfit.pos
    have hmin := hfit.min
    have hlt := hfit.lt
    have hwb := T.ptrBytes_bounds
    have hptr : dataOf T c ≠ 0 := by unfold dataOf; omega
    have h1 : nocMalloc T S size w.heap = some (dataOf T c, h₁) := h1
    have hc := h2.inv.chunkOf_dataOf hS (c := c) (by simp)
    have hle := (roomFor_iff hS ho.inv h2.size).mpr hroom
    have hcleared : Cleared T h₁ (dataOf T c) (nmemb * size)
        { h₁ with mem := memset T h₁.mem (dataOf T c) 0 (nmemb * size) } := by
      unfold stop at hlt
      refine cleared_memset (by unfold dataOf; omega) (Or.inr ?_)
      rw [hc]
      unfold dataOf stop
      omega
    have hcalloc : nocCalloc T S nmemb size w.heap = some (dataOf T c,
        { h₁ with mem := memset T h₁.mem (dataOf T c) 0 (nmemb * size) }) := by
      rw [nocCalloc, if_neg hover, h1]
      dsimp only
      rw [if_pos hptr]
    have hmalloc : Reachable T S { w with heap := h₁, live := dataOf T c :: w.live } := by
      refine hw.step (.malloc size) (Or.inr hr) ?_
      rw [World.step, h1, Option.map_some]
      dsimp only
      rw [if_neg hptr]
    refine ⟨(callocSound_iff_cleared hover h1 hptr).mpr hcleared, _, ?_,
      hmalloc.step (.write (memset T h₁.mem (dataOf T c) 0 (nmemb * size))) (fun a hne => ?_) rfl⟩
    · rw [World.calloc, hcalloc, Option.map_some]
      dsimp only
      rw [if_neg hptr]
    · refine Or.inl ⟨c, ?_, ?_⟩
      · show c ∈ (dataOf T c :: w.live ++ w.lost).map (chunkOf T h₁)
        rw [List.cons_append, List.map_cons, hc]
        exact List.mem_cons_self
      · by_contra hout
        exact hne (hcleared.other a (by rw [hc]; exact hout))

/-- **Programs with `calloc`**: as long as each call stays in its block, the worlds are reachable
ones, every such call returns, and it returns a cleared block or `NULL`. -/
theorem calloc_runs (hw : CallocReachable T S w) : Reachable T S w ∧
    ∀ nmemb size, Affords T w.heap nmemb size →
      (w.calloc T S nmemb size).isSome ∧ CallocSound T S w.heap nmemb size := by
  have hreach : Reachable T S w := by
    induction hw with
    | init mem errno env => exact .init mem errno env
    | step op _ ha hs ih => exact ih.step op ha hs
    | calloc _ ha hs ih =>
      obtain ⟨-, v, h1, h2⟩ := ih.calloc hS ha
      rw [hs] at h1
      obtain rfl := Option.some.inj h1
      exact h2
  refine ⟨hreach, fun nmemb size ha => ?_⟩
  obtain ⟨h1, v, h2, -⟩ := hreach.calloc hS ha
  exact ⟨Option.isSome_of_eq_some h2, h1⟩

end Contract

/-- Two elements of one byte share the word of one. -/
theorem calloc_runs_bytes : ∃ w, arenaWorld.calloc .x8664 (arena .x8664 8192) 2 1 = some w ∧
    Reachable .x8664 (arena .x8664 8192) w := by
  have hS := arena_contract .x8664 8192
  have hafford : Affords .x8664 arenaWorld.heap 2 1 :=
    Or.inr (Or.inr ⟨⟨by decide, by decide⟩, Or.inl (by decide)⟩)
  have hinit : CallocReachable .x8664 (arena .x8664 8192) arenaWorld := .init _ _ _
  obtain ⟨w, hw⟩ := Option.isSome_iff_exists.mp ((calloc_runs hS hinit).2 2 1 hafford).1
  exact ⟨w, hw, (calloc_runs hS (hinit.calloc hafford hw)).1⟩

end Noc.Malloc
