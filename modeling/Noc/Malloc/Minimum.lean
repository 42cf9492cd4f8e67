import Noc.Malloc.Blocks

/-! # The smallest chunks

Nothing in `noc_malloc` compares the size of a new chunk with `MALLOC_MIN_SIZE`. The rounding of the
request gives at least that size when it goes up to a word (`min_le_size_iff`), as it does with the
default `MALLOC_ALIGN`; with a smaller one, a request of a few bytes gets a chunk that a
`struct free_chunk` does not fit into. In runs without such requests every chunk has the minimum
size, and `free` writes to the chunk it frees and to free ones only (`chunks_hold`). -/

namespace Noc.Malloc

open Noc.Lib.Bytes Noc.Lib.Spans Noc.Lib.Spans.Span Noc.Targets Noc.Unistd

variable {ε : Type} {T : Target} {S : Sbrk ε} {w : World ε} {n : ℕ}

/-- A step of a client that allocates up to `INTPTR_MAX` bytes, frees what it holds, and writes to
its blocks and outside the heap. -/
def MallocFree (T : Target) (w : World ε) : Op → Prop
  | .malloc n => 0 < n ∧ n ≤ T.intptrMax
  | .free ptr => ptr ∈ w.live
  | .realloc _ _ => False
  | .write mem => w.Allowed T (.write mem)

/-- A request that is rounded up to a word or more. -/
def Roomy (T : Target) : Op → Prop
  | .malloc n => T.ptrBytes < n + T.mallocAlign
  | _ => True

/-- Every chunk has the minimum size, and freeing a block changes bytes of its chunk and of free
chunks only: the headers and the bytes of the other blocks stay. -/
def Contained (T : Target) (w : World ε) : Prop :=
  ∃ free, freeChunks T w.heap = some free ∧
    (∀ c ∈ free ++ w.chunks T, mallocMinSize T ≤ c.size) ∧
    ∀ ptr ∈ w.live, ∃ h', nocFree T ptr w.heap = some h' ∧
      (∀ a, ¬ Covered (chunkOf T w.heap ptr :: free) a → h'.mem a = w.heap.mem a) ∧
      ∀ p ∈ w.live, p ≠ ptr → chunkOf T h' p = chunkOf T w.heap p ∧
        ∀ a, (chunkOf T w.heap p).start ≤ a → a < (chunkOf T w.heap p).stop →
          h'.mem a = w.heap.mem a

/-- **Rounding reaches the minimum size** when it goes up to a word. -/
theorem min_le_size_iff (hn : n ≤ T.intptrMax) :
    mallocMinSize T ≤ chunkSizeForData T n ↔ T.ptrBytes < n + T.mallocAlign := by
  have hw := T.ptrBytes_bounds
  have hspace := T.space_bounds
  have ha := T.align_pos
  obtain ⟨r, h1, h2, h3, h4⟩ := chunkSizeForData_eq (T := T) (n := n)
    (by unfold Representable; omega)
  rw [h1, mallocMinSize]
  constructor
  · intro hle
    omega
  · intro hroom
    have := Nat.le_of_lt_add_of_dvd (show T.ptrBytes < r + T.mallocAlign by omega) T.align_dvd h4
    omega

theorem MallocFree.allowed {op : Op} (ho : MallocFree T w op) (hr : Roomy T op) :
    w.Allowed T op := by
  have hwb := T.ptrBytes_bounds
  have hspace := T.space_bounds
  cases op with
  | malloc n =>
    obtain ⟨h0, hmax⟩ := ho
    exact Or.inr ⟨by unfold Representable; omega, hr⟩
  | free ptr => exact ho
  | realloc ptr n => exact absurd ho id
  | write mem => exact ho

/-- **In runs whose requests are rounded up to a word**, chunks have the minimum size, and `free`
stays inside the chunk it frees and the free ones; and these requests are those whose rounded size
is the minimum. -/
theorem chunks_hold (hS : Contract T S)
    (hw : RunBy T S (fun w op => MallocFree T w op ∧ Roomy T op) w) :
    Contained T w ∧ ∀ n ≤ T.intptrMax,
      (mallocMinSize T ≤ chunkSizeForData T n ↔ Roomy T (.malloc n)) := by
  refine ⟨?_, fun n hn => min_le_size_iff hn⟩
  have hreach := hw.reachable fun w op h => h.1.allowed h.2
  obtain ⟨free, chunks, ho⟩ := hreach.ok hS
  have hwf := ho.wellFormed hS
  refine ⟨free, hwf.list, fun c hc => (hwf.sized c hc).min, fun ptr hptr => ?_⟩
  obtain ⟨c, rest, rfl, hc, hi, hperm⟩ := ho.split hS hptr
  obtain ⟨h', h1, -, hfr⟩ := hi.release hS
  rw [hc]
  refine ⟨h', h1, hfr.mem, fun p hp hne => ?_⟩
  obtain ⟨d, hd, rfl⟩ := mem_rest hperm hp hne
  have hdfit := hi.fit_live hS d (by simp [hd])
  have hdmin := hdfit.min
  have hkept : Kept rest w.heap h' := hi.kept [c] (hfr.mono fun a ha => by
    rw [covered_cons] at ha
    rw [covered_append, covered_cons]; tauto)
  have hchunk : chunkOf T w.heap (dataOf T d) = d := hi.chunkOf_dataOf hS (by simp [hd])
  rw [hchunk]
  refine ⟨?_, fun a ha hb => hkept d hd a ha hb⟩
  have hsame : h'.size T d.start = w.heap.size T d.start :=
    Target.load_congr fun a h2 h3 => hkept d hd a h2 (by unfold stop; omega)
  rw [chunkOf, chunkFromData_dataOf hdfit, hsame, hi.header d (by simp [hd])]

/-- x86_64 with a `MALLOC_ALIGN` of 4. -/
def x8664Align4 : Target := ⟨8, 4, true, true, true, Target.ptr_cases .x8664, ⟨2, rfl⟩⟩

/-- The world after `malloc(5)` and `malloc(5)`. -/
def roomyWorld : World (Break x8664Align4) :=
  ((World.init (fun a => UInt8.ofNat a) 0 ⟨4096, by decide⟩).next x8664Align4
    (arena x8664Align4 8192) (.malloc 5)).next x8664Align4 (arena x8664Align4 8192) (.malloc 5)

/-- Two blocks of five bytes, of which the first is freed. -/
theorem chunks_hold_freed :
    Contained x8664Align4 (roomyWorld.next x8664Align4 (arena x8664Align4 8192) (.free 4104)) ∧
      ∀ n ≤ Target.intptrMax x8664Align4,
        (mallocMinSize x8664Align4 ≤ chunkSizeForData x8664Align4 n ↔
          Roomy x8664Align4 (.malloc n)) := by
  have hS := arena_contract x8664Align4 8192
  have hroomy : Roomy x8664Align4 (.malloc 5) := by
    show Target.ptrBytes x8664Align4 < 5 + Target.mallocAlign x8664Align4
    decide
  have hlive : 4104 ∈ roomyWorld.live := by decide +kernel
  have hone := RunBy.next hS (P := fun w op => MallocFree x8664Align4 w op ∧ Roomy x8664Align4 op)
    (fun _ _ h => h.1.allowed h.2) (RunBy.init (fun a => UInt8.ofNat a) 0 ⟨4096, by decide⟩)
    (.malloc 5) ⟨⟨by decide, by decide⟩, hroomy⟩
  have htwo := hone.next hS (fun _ _ h => h.1.allowed h.2) (.malloc 5)
    ⟨⟨by decide, by decide⟩, hroomy⟩
  exact chunks_hold hS
    (htwo.next hS (fun _ _ h => h.1.allowed h.2) (.free 4104) ⟨hlive, trivial⟩)

/-- The world after `malloc(1)` and `malloc(24)`. -/
def smallWorld : World (Break x8664Align4) :=
  ((World.init (fun a => UInt8.ofNat a) 0 ⟨4096, by decide⟩).next x8664Align4
    (arena x8664Align4 8192) (.malloc 1)).next x8664Align4 (arena x8664Align4 8192) (.malloc 24)

/-- A block of one byte has a chunk of 12 bytes, and freeing it overwrites the size of the next. -/
theorem small_chunk_overwrites :
    RunBy x8664Align4 (arena x8664Align4 8192) (MallocFree x8664Align4) smallWorld ∧
    ¬ Contained x8664Align4 smallWorld := by
  constructor
  · refine RunBy.step (.malloc 24) (RunBy.step (.malloc 1) (RunBy.init _ _ _) ?_
      (World.step_next ?_)) ?_ (World.step_next ?_)
    · exact ⟨by decide, by decide⟩
    · decide +kernel
    · exact ⟨by decide, by decide⟩
    · decide +kernel
  · rintro ⟨free, -, -, hfree⟩
    obtain ⟨h', h1, -, h2⟩ := hfree 4104 (by decide +kernel)
    have h3 := (h2 4116 (by decide +kernel) (by decide)).1
    have h4 : (nocFree x8664Align4 4104 smallWorld.heap).map
      (fun h => (chunkOf x8664Align4 h 4116).size) = some 0 := by decide +kernel
    rw [h1, Option.map_some, h3] at h4
    exact absurd (Option.some.inj h4) (by decide +kernel)

end Noc.Malloc
