import Noc.Malloc.Run

/-! # The allocator without its memory

A `Pool` is the free list as a list of spans, with the bounds of the heap. `Pool.malloc`,
`Pool.release` and `Pool.realloc` say what a call does to it and to the chunks that are allocated:
best fit, insertion with joining, growing in place. Nothing of it depends on a byte of memory.

`Shows h p live`: the list in the memory of `h` is that of `p`, and the chunks `live` are allocated.
Each function of the source does to such a heap what its counterpart does to the pool
(`nocMalloc_shows`, `nocFree_shows`, `nocRealloc_shows`). -/

namespace Noc.Malloc

open Noc.Lib.Bytes Noc.Lib.Spans Noc.Lib.Spans.Span Noc.Targets Noc.Unistd Noc.Memcpy

variable {ε : Type}

/-- The bounds of the heap, `errno` and the environment. -/
structure Bounds (ε : Type) where
  sbrkStart : ℕ
  sbrkEnd : ℕ
  errno : ℕ
  env : ε

/-- The state of the allocator without its memory. -/
structure Pool (ε : Type) where
  bounds : Bounds ε
  free : List Span

def Heap.bounds (h : Heap ε) : Bounds ε := ⟨h.sbrkStart, h.sbrkEnd, h.errno, h.env⟩

/-- The first of the smallest chunks with room for `size`, between the chunks before and behind it,
if what it leaves over is below the first value of `min_extra`. -/
def bestFit (size : ℕ) : List Span → Option (List Span × Span × List Span)
  | [] => none
  | c :: l =>
    match bestFit size l with
    | some (pre, d, post) =>
      if size ≤ c.size ∧ c.size ≤ d.size then some ([], c, l) else some (c :: pre, d, post)
    | none => if size ≤ c.size ∧ c.size - size < 2 ^ 32 - 1 then some ([], c, l) else none

/-- The allocated chunk `c` with the free chunks that touch it, and the free chunks that are
left. -/
def absorb (c : Span) : List Span → Span × List Span
  | [] => (c, [])
  | d :: l =>
    if d.stop = c.start then absorb (d.join c) l
    else if c.stop = d.start then (c.join d, l)
    else if d.start ≤ c.stop then ((absorb c l).1, d :: (absorb c l).2)
    else (c, d :: l)

section Defs
variable (T : Target) (S : Sbrk ε)

/-- `aligned_sbrk` on the bounds: it uses no memory. -/
def Bounds.sbrk (size : ℕ) (b : Bounds ε) : ℕ × Bounds ε :=
  let r := alignedSbrk T S size ⟨fun _ => 0, b.sbrkStart, b.sbrkEnd, 0, b.errno, b.env⟩
  (r.1, r.2.bounds)

namespace Pool
variable (p : Pool ε)

/-- A chunk is put into the free list. -/
def release (c : Span) : Pool ε := { p with free := insertJoin c p.free }

/-- A chunk for `n` bytes: the best fit or its front, or else a new one. -/
def malloc (n : ℕ) : Option Span × Pool ε :=
  if n = 0 then (none, p)
  else
    let size := chunkSizeForData T n
    match bestFit size p.free with
    | some (pre, c, post) =>
      if c.size - size < mallocMinSize T then (some c, { p with free := pre ++ post })
      else (some ⟨c.start, size⟩, { p with free := pre ++ ⟨c.start + size, c.size - size⟩ :: post })
    | none =>
      let r := p.bounds.sbrk T S size
      (if r.1 = T.sbrkFailure then none else some ⟨r.1, size⟩, { p with bounds := r.2 })

/-- The chunk at the end of the heap with more behind it, at least for `size`. -/
def grow (c : Span) (size : ℕ) : Option Span × Pool ε :=
  if c.stop ≠ p.bounds.sbrkEnd then (none, p)
  else
    let add := if size - c.size < mallocMinSize T then mallocMinSize T else size - c.size
    let r := p.bounds.sbrk T S add
    let p := { p with bounds := r.2 }
    if r.1 = c.stop then (some ⟨c.start, c.size + add⟩, p)
    else if r.1 ≠ T.sbrkFailure then (none, p.release ⟨r.1, add⟩)
    else (none, p)

/-- The front of a chunk, whose rest is freed if it can be a chunk. -/
def shrink (c : Span) (size : ℕ) : Span × Pool ε :=
  if mallocMinSize T ≤ c.size - size then
    (⟨c.start, size⟩, p.release ⟨c.start + size, c.size - size⟩)
  else (c, p)

/-- The end of `realloc`: the front of the chunk `c`, or a new chunk when it is too small. -/
def finish (c : Span) (n : ℕ) : Bool × Span × Pool ε :=
  if chunkSizeForData T n ≤ c.size then (true, p.shrink T c (chunkSizeForData T n))
  else
    match p.malloc T S n with
    | (some d, p) => (true, d, p.release c)
    | (none, p) => (false, c, p)

/-- `realloc` of an allocated chunk: whether it succeeds, and the chunk that has the data then. -/
def realloc (c : Span) (n : ℕ) : Bool × Span × Pool ε :=
  if c.size < chunkSizeForData T n then
    match p.grow T S c (chunkSizeForData T n) with
    | (some c, p) => (true, c, p)
    | (none, p) => finish T S { p with free := (absorb c p.free).2 } (absorb c p.free).1 n
  else p.finish T S c n

end Pool

/-- The heap has the free list and the bounds of the pool, and the chunks `live` are allocated. -/
structure Shows (h : Heap ε) (p : Pool ε) (live : List Span) : Prop where
  inv : Inv T S h p.free live
  bounds : h.bounds = p.bounds

/-- The pointer that is returned for a chunk. -/
def pointer : Option Span → ℕ
  | none => 0
  | some c => dataOf T c

end Defs

variable {T : Target} {S : Sbrk ε} {h h' : Heap ε} {p : Pool ε}
variable {live rest pre post l : List Span} {c d : Span} {n size : ℕ}

/-! ### The best fit -/

theorem bestFit_spec : ∀ {l pre post : List Span} {d : Span},
    bestFit size l = some (pre, d, post) → l = pre ++ d :: post ∧ size ≤ d.size
  | [], _, _, _, h => by cases h
  | c :: l, pre, post, d, h => by
    rw [bestFit] at h
    cases hl : bestFit size l with
    | none =>
      rw [hl] at h
      dsimp only at h
      split_ifs at h with hc
      obtain ⟨rfl, rfl, rfl⟩ := h
      exact ⟨rfl, hc.1⟩
    | some r =>
      obtain ⟨pre', d', post'⟩ := r
      obtain ⟨h1, h2⟩ := bestFit_spec hl
      rw [hl] at h
      dsimp only at h
      split_ifs at h with hc
      · obtain ⟨rfl, rfl, rfl⟩ := h
        exact ⟨rfl, hc.1⟩
      · obtain ⟨rfl, rfl, rfl⟩ := h
        exact ⟨by rw [h1, List.cons_append], h2⟩

theorem bestFit_eq_none : ∀ {l : List Span},
    (∀ d ∈ l, size ≤ d.size → size + (2 ^ 32 - 1) ≤ d.size) → bestFit size l = none
  | [], _ => rfl
  | c :: l, h => by
    obtain ⟨hc, hl⟩ := List.forall_mem_cons.mp h
    rw [bestFit, bestFit_eq_none hl]
    dsimp only
    rw [if_neg]
    rintro ⟨h1, h2⟩
    have := hc h1
    omega

/-- There is one best fit. -/
theorem BestFit.eq_some : ∀ {pre : List Span}, BestFit size pre c post →
    c.size - size < 2 ^ 32 - 1 → bestFit size (pre ++ c :: post) = some (pre, c, post)
  | [], hb, he => by
    rw [List.nil_append, bestFit]
    cases hl : bestFit size post with
    | none =>
      dsimp only
      rw [if_pos ⟨hb.fits, he⟩]
    | some r =>
      obtain ⟨pre', d, post'⟩ := r
      obtain ⟨h1, h2⟩ := bestFit_spec hl
      dsimp only
      rw [if_pos ⟨hb.fits, hb.best d (by simp [h1]) h2⟩]
  | x :: pre, hb, he => by
    have ih : BestFit size pre c post := ⟨hb.fits, fun d hd => hb.first d (by simp [hd]), hb.best⟩
    rw [List.cons_append, bestFit, ih.eq_some he]
    dsimp only
    rw [if_neg]
    rintro ⟨h1, h2⟩
    have := hb.first x (by simp) h1
    omega

/-! ### The functions of the source -/

theorem alignedSbrk_bounds (h : Heap ε) (size : ℕ) :
    h.bounds.sbrk T S size = ((alignedSbrk T S size h).1, (alignedSbrk T S size h).2.bounds) := by
  unfold Bounds.sbrk alignedSbrk Heap.bounds
  dsimp only
  split_ifs <;> rfl

theorem Frame.bounds {l : List Span} (hfr : Frame l h h') : h'.bounds = h.bounds := by
  unfold Heap.bounds
  rw [hfr.sbrkStart, hfr.sbrkEnd, hfr.errno, hfr.env]

theorem Shows.frame {free live' l : List Span} (hs : Shows T S h p live) (hfr : Frame l h h')
    (hi : Inv T S h' free live') : Shows T S h' { p with free := free } live' :=
  ⟨hi, hfr.bounds.trans hs.bounds⟩

section Contract
variable (hS : Contract T S)
include hS

/-- **`noc_free` releases the chunk.** -/
theorem nocFree_shows (hs : Shows T S h p (c :: rest)) :
    ∃ h', nocFree T (dataOf T c) h = some h' ∧ Shows T S h' (p.release c) rest := by
  obtain ⟨h', h1, h2, h3⟩ := hs.inv.release hS
  exact ⟨h', h1, hs.frame h3 h2⟩

/-- A chunk from the free list. -/
theorem nocMalloc_shows_fit (hs : Shows T S h p live) (hr : Request T n)
    (hfree : p.free = pre ++ c :: post) (hbest : BestFit (chunkSizeForData T n) pre c post)
    (hextra : c.size - chunkSizeForData T n < 2 ^ 32 - 1) :
    ∃ d q, p.malloc T S n = (some d, q) ∧ d.start = c.start ∧
      Shows T S (allocate T (chunkSizeForData T n) h pre c post) q (d :: live) := by
  have hfits := hbest.fits
  have hi := hfree ▸ hs.inv
  have hsized := hi.sized c (by simp)
  rw [Pool.malloc, if_neg hr.ne_zero]
  dsimp only
  rw [hfree, hbest.eq_some hextra, allocate]
  dsimp only
  by_cases hrest : c.size - chunkSizeForData T n < mallocMinSize T
  · rw [if_pos hrest, if_pos hrest]
    obtain ⟨h1, h2⟩ := hi.take hS
    exact ⟨c, _, rfl, rfl, hs.frame h2 h1⟩
  · rw [if_neg hrest, if_neg hrest]
    have hdvd := dvd_chunkSizeForData T n
    have hfront : Sized T ⟨c.start, chunkSizeForData T n⟩ := ⟨hsized.start, hdvd, hr.min_size⟩
    have hback : Sized T ⟨c.start + chunkSizeForData T n, c.size - chunkSizeForData T n⟩ :=
      ⟨Nat.dvd_add hsized.start hdvd, Nat.dvd_sub hsized.size hdvd, by simp only; omega⟩
    obtain ⟨h1, h2⟩ := hi.takeFront hS rfl (by omega) hfront hback
    exact ⟨_, _, rfl, rfl, hs.frame h2 h1⟩

/-- A chunk from the environment. -/
theorem nocMalloc_shows_sbrk (hs : Shows T S h p live) (hr : Request T n)
    (hfull : ∀ d ∈ p.free, chunkSizeForData T n ≤ d.size →
      chunkSizeForData T n + (2 ^ 32 - 1) ≤ d.size) :
    (fromSbrk T S (chunkSizeForData T n) h).1 = pointer T (p.malloc T S n).1 ∧
    Shows T S (fromSbrk T S (chunkSizeForData T n) h).2 (p.malloc T S n).2
      ((p.malloc T S n).1.toList ++ live) := by
  have hmin := hr.min_size
  rw [Pool.malloc, if_neg hr.ne_zero]
  dsimp only
  rw [bestFit_eq_none hfull]
  dsimp only
  rw [← hs.bounds, alignedSbrk_bounds, fromSbrk]
  have hcases := alignedSbrk_cases hS hs.inv.end_le (chunkSizeForData T n)
  generalize alignedSbrk T S (chunkSizeForData T n) h = r at hcases ⊢
  obtain ⟨q, h1⟩ := r
  dsimp only at hcases ⊢
  rcases hcases with ⟨hq, href⟩ | ⟨hq, hg⟩
  · rw [if_pos hq, if_pos hq]
    exact ⟨rfl, ⟨hs.inv.refused href, rfl⟩⟩
  · rw [if_neg hq, if_neg hq]
    have hsized : Sized T ⟨q, chunkSizeForData T n⟩ :=
      ⟨hg.align, dvd_chunkSizeForData T n, hmin⟩
    obtain ⟨h2, -⟩ := hs.inv.granted hg hsized hr.size_lt
    have hdata := chunkToData_eq (c := ⟨q, chunkSizeForData T n⟩) hS h2 (by simp)
    exact ⟨hdata, ⟨h2, rfl⟩⟩

/-- **`noc_malloc` allocates a chunk of the pool.** -/
theorem nocMalloc_shows (hs : Shows T S h p live) (hr : Request T n) :
    ∃ h', nocMalloc T S n h = some (pointer T (p.malloc T S n).1, h') ∧
      Shows T S h' (p.malloc T S n).2 ((p.malloc T S n).1.toList ++ live) := by
  rcases hs.inv.nocMalloc_eq hS hr.ne_zero with ⟨h1, h2⟩ | ⟨pre, c, post, h1, h2, h3, h4⟩
  · obtain ⟨h5, h6⟩ := nocMalloc_shows_sbrk hS hs hr h1
    exact ⟨_, by rw [h2 S, ← h5], h6⟩
  · obtain ⟨d, q, h5, h6, h7⟩ := nocMalloc_shows_fit hS hs hr h1 h2 h3
    rw [h5]
    refine ⟨_, ?_, h7⟩
    rw [h4 S, ← h6]
    rfl

/-- **`chunk_grow`** grows the chunk as the pool does. -/
theorem chunkGrow_shows (hs : Shows T S h p (c :: rest)) (hn : c.size < size)
    (hnd : T.mallocAlign ∣ size) (hlt : size < T.space) :
    ∃ h', chunkGrow T S c.start size h = some ((p.grow T S c size).1.isSome, h') ∧
      Shows T S h' (p.grow T S c size).2 ((p.grow T S c size).1.getD c :: rest) ∧
      ∀ d, (p.grow T S c size).1 = some d → d.start = c.start ∧ size ≤ d.size := by
  have hw := T.ptrBytes_bounds
  have hi := hs.inv
  have hc : c ∈ p.free ++ c :: rest := by simp
  have hfit := hi.fit hS hc
  have hpos := hfit.pos
  have hcs := hi.header c (by simp)
  have hcend := (hi.inside c hc).hi
  have hsz := hi.sized c hc
  have hend : h.sbrkEnd = p.bounds.sbrkEnd := by rw [← hs.bounds]; rfl
  rw [chunkGrow, if_neg (by omega), chunkEnd_eq hfit hcs, Pool.grow, ← hend]
  dsimp only
  by_cases htop : c.stop = h.sbrkEnd
  swap
  · rw [if_pos htop, if_pos htop]
    exact ⟨h, rfl, hs, fun d hd => by cases hd⟩
  rw [if_neg (not_not.mpr htop), if_neg (not_not.mpr htop), hcs, Target.sub_of_le hn.le hlt]
  obtain ⟨add, hadd, haddn, haddmin, haddd⟩ : ∃ add, add =
      (if size - c.size < mallocMinSize T then mallocMinSize T else size - c.size) ∧
      size - c.size ≤ add ∧ mallocMinSize T ≤ add ∧ T.mallocAlign ∣ add := by
    refine ⟨_, rfl, ?_, ?_, ?_⟩ <;> split_ifs with hmin
    · omega
    · exact le_rfl
    · exact le_rfl
    · omega
    · exact Dvd.dvd.mul_left T.align_dvd 2
    · exact Nat.dvd_sub hnd hsz.size
  rw [← hadd, ← hs.bounds, alignedSbrk_bounds]
  have hcases := alignedSbrk_cases hS hi.end_le add
  generalize alignedSbrk T S add h = r at hcases ⊢
  obtain ⟨q, h1⟩ := r
  dsimp only at hcases ⊢
  unfold mallocMinSize at haddmin
  have hfail : c.stop ≠ T.sbrkFailure := by
    have := hi.end_lt hS
    omega
  rcases hcases with ⟨hq, href⟩ | ⟨hq, hg⟩
  · rw [if_neg (by omega), if_neg (not_not.mpr hq), if_neg (by omega), if_neg (not_not.mpr hq)]
    exact ⟨h1, rfl, ⟨hi.refused href, rfl⟩, fun d hd => by cases hd⟩
  have hq1 : q + add < T.space := by
    have h2 := hS.brk_lt h1.env
    have h3 := hg.end_le
    have h4 := hg.sbrkEnd
    unfold Target.sbrkFailure at h2; omega
  by_cases hqc : q = c.stop
  · have hsum : c.size + add < T.space := by
      unfold stop at hqc; omega
    have hhead : h1.size T c.start = c.size := by
      rw [← hcs]
      unfold Heap.size
      rw [hg.mem]
    rw [if_pos hqc, if_pos hqc, hhead, Target.add_of_lt hsum]
    obtain ⟨h2, -⟩ := hi.grown hg hqc.symm (by omega) haddd hsum
    refine ⟨_, rfl, ⟨h2, rfl⟩, fun d hd => ?_⟩
    obtain rfl := Option.some.inj hd
    exact ⟨rfl, by simp only; omega⟩
  · rw [if_neg hqc, if_pos hq, if_neg hqc, if_pos hq]
    obtain ⟨h2, -⟩ := hi.granted hg ⟨hg.align, haddd, haddmin⟩ (by omega)
    obtain ⟨h3, h4, h5, h6⟩ := insertFreeChunk_eq (c := ⟨q, add⟩) hS h2
    rw [h4]
    exact ⟨h3, rfl, ⟨h5, h6.bounds⟩, fun d hd => by cases hd⟩

/-- **The loop of `noc_realloc`** absorbs the chunks that the pool absorbs. -/
theorem mergeLoop_absorb : ∀ {fuel chunkE : ℕ} (pre post : List Span) {c : Span} {h : Heap ε},
    Inv T S h (pre ++ post) (c :: rest) → post.length < fuel → chunkE = c.stop → ∃ h' link,
      mergeLoop T chunkE fuel ⟨h, linkAfter pre, c.start, c.start + T.ptrBytes, c.size⟩ =
        some ⟨h', link, (absorb c post).1.start, (absorb c post).1.start + T.ptrBytes,
          (absorb c post).1.size⟩ ∧
      Inv T S h' (pre ++ (absorb c post).2) ((absorb c post).1 :: rest) ∧ h'.bounds = h.bounds
  | fuel + 1, chunkE, pre, [], c, h, hi, _, he => by
    refine ⟨h, linkAfter pre, ?_, hi, rfl⟩
    rw [mergeLoop]
    dsimp only
    rw [hi.list.link_eq (hi.fit_free hS), headOr_nil, if_neg (fun h => h.1 rfl)]
    rfl
  | fuel + 1, chunkE, pre, d :: post, c, h, hi, hlen, he => by
    have hlen' : post.length < fuel := by simpa using hlen
    rw [absorb]
    by_cases hleft : d.stop = c.start
    · rw [if_pos hleft]
      obtain ⟨h1, hrun, hinv, hfr, -⟩ := mergeLoop_left hS hi hleft he
      obtain ⟨h', link, h2, h3, h4⟩ :=
        mergeLoop_absorb pre post hinv hlen' (he.trans (join_stop hleft).symm)
      exact ⟨h', link, hrun.trans h2, h3, h4.trans hfr.bounds⟩
    by_cases hright : c.stop = d.start
    · rw [if_neg hleft, if_pos hright]
      obtain ⟨h1, link, hrun, hinv, hfr, -⟩ := mergeLoop_right hS hi hright he
      exact ⟨h1, link, hrun, hinv, hfr.bounds⟩
    rw [if_neg hleft, if_neg hright, mergeLoop_next hS hi hleft hright he, he]
    by_cases hle : d.start ≤ c.stop
    · have hassoc : pre ++ [d] ++ post = pre ++ d :: post := by simp
      obtain ⟨h', link, h2, h3, h4⟩ :=
        mergeLoop_absorb (pre ++ [d]) post (hassoc ▸ hi) hlen' (rfl : c.stop = c.stop)
      rw [if_pos hle, if_pos hle]
      exact ⟨h', link, h2, by simpa using h3, h4⟩
    · rw [if_neg hle, if_neg hle]
      exact ⟨h, linkAfter pre, rfl, hi, rfl⟩

/-- The end of `noc_realloc` on a chunk that is big enough. -/
theorem reallocFinish_shrink (link : Link) (hs : Shows T S h p (c :: rest))
    (hnd : T.mallocAlign ∣ size) (hmin : mallocMinSize T ≤ size) (hle : size ≤ c.size) :
    ∃ h', reallocFinish T S n size ⟨h, link, c.start, c.start + T.ptrBytes, c.size⟩ =
        some (c.start + T.ptrBytes, h') ∧ (p.shrink T c size).1.start = c.start ∧
      Shows T S h' (p.shrink T c size).2 ((p.shrink T c size).1 :: rest) := by
  have hi := hs.inv
  have hsized := hi.sized c (by simp)
  have hlt := (hi.fit hS (show c ∈ p.free ++ c :: rest by simp)).lt
  rw [reallocFinish, Pool.shrink]
  dsimp only
  rw [if_pos hle]
  by_cases hsplit : mallocMinSize T ≤ c.size - size
  swap
  · rw [if_neg hsplit, if_neg hsplit]
    exact ⟨h, rfl, rfl, hs⟩
  unfold stop at hlt
  obtain ⟨h1, h2⟩ := hi.split hS (a := size) (b := c.size - size) (by omega)
    ⟨hsized.start, hnd, hmin⟩ ⟨Nat.dvd_add hsized.start hnd, Nat.dvd_sub hsized.size hnd, hsplit⟩
  have hend : chunkEnd T (h.setSize T c.start size) c.start = c.start + size := by
    rw [chunkEnd, show (h.setSize T c.start size).size T c.start = size from
      Target.load_store (by omega), Target.add_of_lt (by omega)]
  obtain ⟨h', h3, h4, h5⟩ := insertFreeChunk_eq (c := ⟨c.start + size, c.size - size⟩) hS h1
  rw [if_pos hsplit, if_pos hsplit, hend, h3]
  exact ⟨h', rfl, rfl, h4, (h5.bounds.trans h2.bounds).trans hs.bounds⟩

/-- The end of `noc_realloc` on a chunk that is too small. -/
theorem reallocFinish_move (link : Link) (hs : Shows T S h p (c :: rest)) (hr : Request T n)
    (hlt : c.size < chunkSizeForData T n) {o : Option Span} {q : Pool ε}
    (hq : p.malloc T S n = (o, q)) :
    ∃ h', reallocFinish T S n (chunkSizeForData T n)
        ⟨h, link, c.start, c.start + T.ptrBytes, c.size⟩ = some (pointer T o, h') ∧
      Shows T S h' (if o = none then q else q.release c) (o.getD c :: rest) := by
  have hw := T.ptrBytes_bounds
  obtain ⟨h1, h2, h3⟩ := nocMalloc_shows hS hs hr
  rw [hq] at h2 h3
  rw [reallocFinish]
  dsimp only
  rw [if_neg (by omega), h2]
  cases o with
  | none => exact ⟨h1, rfl, h3⟩
  | some d =>
  have h3 : Shows T S h1 q (d :: c :: rest) := h3
  have hi1 := h3.inv
  have hd := hi1.fit hS (show d ∈ q.free ++ d :: c :: rest by simp)
  have hc := hi1.fit hS (show c ∈ q.free ++ d :: c :: rest by simp)
  have hcmin := hc.min
  have hclt := hc.lt
  have hdlt := hd.lt
  have hdpos := hd.pos
  have hdc := hi1.disj_rest c (by simp)
  -- the new chunk is big enough for what is copied
  have hdsize : chunkSizeForData T n ≤ d.size := by
    rcases nocMalloc_cases hS hs.inv hr with ⟨h', h4, -⟩ | ⟨h', free', e, h4, h5⟩
    · rw [h2] at h4
      have h6 : d.start + T.ptrBytes = 0 := (Prod.mk.inj (Option.some.inj h4)).1
      omega
    · rw [h2] at h4
      obtain ⟨h6, h7⟩ := Prod.mk.inj (Option.some.inj h4)
      have h6 : d.start + T.ptrBytes = e.start + T.ptrBytes := h6
      have h8 := hi1.header d (by simp)
      rw [show d.start = e.start by omega, h7, h5.inv.header e (by simp)] at h8
      rw [← h8]
      exact h5.size.le
  unfold stop at hclt hdlt
  unfold Disj stop at hdc
  have hdata : chunkDataSize T h1 c.start = c.size - T.ptrBytes := by
    rw [chunkDataSize, hi1.header c (by simp), Target.sub_of_le (by omega) (by omega)]
  have hptr : pointer T (some d) = d.start + T.ptrBytes := rfl
  dsimp only
  rw [hptr, if_pos (by omega), hdata, memcpy_eq_copy (by omega) (by omega)]
  obtain ⟨m, hm⟩ : ∃ m, m = h1.mem.copy (d.start + T.ptrBytes) (c.start + T.ptrBytes)
    (c.size - T.ptrBytes) := ⟨_, rfl⟩
  rw [← hm]
  -- the copy stays in the data of the new chunk
  have hwrite : Inv T S { h1 with mem := m } q.free (c :: d :: rest) := by
    refine Inv.write (hi1.perm (List.Perm.swap c d rest)) fun a ha => Or.inl ⟨d, by simp, ?_⟩
    by_contra hout
    rw [hm] at ha
    refine ha (Mem.copy_of_notMem ?_)
    unfold stop at hout; omega
  obtain ⟨h', h4, h5⟩ := nocFree_shows hS (p := q) ⟨hwrite, h3.bounds⟩
  unfold dataOf at h4
  rw [h4]
  exact ⟨h', rfl, h5⟩

/-- **The end of `noc_realloc`.** -/
theorem reallocFinish_shows (link : Link) (hs : Shows T S h p (c :: rest)) (hr : Request T n) :
    ∃ h', reallocFinish T S n (chunkSizeForData T n)
        ⟨h, link, c.start, c.start + T.ptrBytes, c.size⟩ =
        some (if (p.finish T S c n).1 then dataOf T (p.finish T S c n).2.1 else 0, h') ∧
      Shows T S h' (p.finish T S c n).2.2 ((p.finish T S c n).2.1 :: rest) := by
  unfold Pool.finish
  by_cases hfits : chunkSizeForData T n ≤ c.size
  · obtain ⟨h', h1, h2, h3⟩ := reallocFinish_shrink (n := n) hS link hs
      (dvd_chunkSizeForData T n) hr.min_size hfits
    rw [if_pos hfits, h1]
    refine ⟨h', ?_, h3⟩
    rw [if_pos rfl, dataOf, h2]
  · rw [if_neg hfits]
    rcases hq : p.malloc T S n with ⟨_ | d, q⟩
    · obtain ⟨h', h1, h2⟩ := reallocFinish_move hS link hs hr (by omega) hq
      exact ⟨h', h1, h2⟩
    · obtain ⟨h', h1, h2⟩ := reallocFinish_move hS link hs hr (by omega) hq
      exact ⟨h', h1, h2⟩

/-- **`noc_realloc` does to an allocated chunk what the pool does.** -/
theorem nocRealloc_shows (hs : Shows T S h p (c :: rest)) (hr : Request T n) :
    ∃ h', nocRealloc T S (dataOf T c) n h =
        some (if (p.realloc T S c n).1 then dataOf T (p.realloc T S c n).2.1 else 0, h') ∧
      Shows T S h' (p.realloc T S c n).2.2 ((p.realloc T S c n).2.1 :: rest) := by
  have hw := T.ptrBytes_bounds
  have hi := hs.inv
  have hc := hi.fit hS (show c ∈ p.free ++ c :: rest by simp)
  have hcmin := hc.min
  have hin := hi.inside c (by simp)
  have hlo := hin.lo
  have hhi := hin.hi
  have hdata : dataOf T c = c.start + T.ptrBytes := rfl
  have hcstop : c.start + T.ptrBytes < c.stop := by unfold stop; omega
  have hsize := hi.header c (by simp)
  rw [nocRealloc, hdata, if_neg (by omega), if_neg hr.ne_zero, if_neg (by omega)]
  dsimp only
  rw [chunkFromData_eq hc, chunkEnd_eq hc hsize, if_neg (by omega), hsize]
  unfold Pool.realloc
  by_cases hsmall : c.size < chunkSizeForData T n
  swap
  · rw [if_neg hsmall, if_neg hsmall]
    exact reallocFinish_shows hS .head hs hr
  rw [if_pos hsmall, if_pos hsmall]
  obtain ⟨h1, h2, h3, h4⟩ := chunkGrow_shows hS hs hsmall (dvd_chunkSizeForData T n) hr.size_lt
  rw [h2]
  rcases hg : p.grow T S c (chunkSizeForData T n) with ⟨_ | d, q⟩
  · -- not grown: the chunk takes the free chunks around it
    rw [hg] at h3
    have h3 : Shows T S h1 q (c :: rest) := h3
    obtain ⟨h5, link, h6, h7, h8⟩ :=
      mergeLoop_absorb hS [] q.free h3.inv (h3.inv.length_free hS) rfl
    rw [linkAfter_nil] at h6
    rw [List.nil_append] at h7
    dsimp only [Option.isSome]
    rw [h6]
    exact reallocFinish_shows hS link ⟨h7, h8.trans h3.bounds⟩ hr
  · -- grown in place: the rest of the function has nothing to do
    rw [hg] at h3 h4
    obtain ⟨h5, h6⟩ := h4 d rfl
    refine ⟨h1, ?_, h3⟩
    dsimp only [Option.isSome]
    rw [reallocFinish]
    dsimp only
    rw [if_pos le_rfl, Nat.sub_self, if_neg (by unfold mallocMinSize; omega), if_pos rfl, dataOf,
      h5]

end Contract

end Noc.Malloc
