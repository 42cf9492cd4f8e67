import Noc.Malloc.Alloc

/-! # `noc_realloc`

* `mergeLoop_merged`: the loop that joins adjacent free chunks leaves an allocated chunk `c'` that
  contains the old chunk and has its data in front; it starts where the old one did, unless a free
  chunk ended there.
* `reallocFinish_cases`: the chunk is big enough and is split, or a new one is allocated, the data
  copied and the old one freed.
* `nocRealloc_cases` puts these together: the data is at the front of a chunk that is big enough
  (`Moved`), or nothing could be allocated and the data is where the loop left it (`Merged`). -/

namespace Noc.Malloc

open Noc.Lib.Bytes Noc.Lib.Spans Noc.Lib.Spans.Span Noc.Targets Noc.Unistd Noc.Memcpy

variable {ε : Type} {T : Target} {S : Sbrk ε} {h h' : Heap ε}
variable {free live rest : List Span} {c : Span} {n size : ℕ}

/-- The allocated chunk `c` has become `c'`, by joining it with free chunks around it. -/
structure Merged (T : Target) (S : Sbrk ε) (h : Heap ε) (free rest : List Span) (c : Span)
    (h' : Heap ε) (free' : List Span) (c' : Span) : Prop where
  inv : Inv T S h' free' (c' :: rest)
  kept : Kept rest h h'
  data : ∀ i < c.size - T.ptrBytes,
    h'.mem (c'.start + T.ptrBytes + i) = h.mem (c.start + T.ptrBytes + i)
  le : c.size ≤ c'.size
  covered : ∀ a, Covered (free ++ c :: rest) a → Covered (free' ++ c' :: rest) a
  start : (c'.start = c.start ∧ ∀ d ∈ free, d.stop ≠ c.start) ∨
    ∃ d ∈ free, d.stop = c.start ∧ c'.start = d.start

/-- Nothing is joined with a chunk at whose start no free chunk ends. -/
theorem Merged.refl (hi : Inv T S h free (c :: rest)) (hnone : ∀ d ∈ free, d.stop ≠ c.start) :
    Merged T S h free rest c h free c where
  inv := hi
  kept _ _ _ _ _ := rfl
  data _ _ := rfl
  le := le_rfl
  covered _ ha := ha
  start := Or.inl ⟨rfl, hnone⟩

theorem Merged.refused {free' : List Span} {c' : Span} {h'' : Heap ε}
    (hm : Merged T S h free rest c h' free' c') (hr : Refused T S h' h'') :
    Merged T S h free rest c h'' free' c' :=
  { hm with
    inv := hm.inv.refused hr
    kept := fun d hd a ha hb => by rw [hr.mem]; exact hm.kept d hd a ha hb
    data := fun i hilt => by rw [hr.mem]; exact hm.data i hilt }

section Contract
variable (hS : Contract T S)
include hS

/-- One round of the loop at the free chunk `d` that ends where `c` starts. -/
theorem mergeLoop_left {pre post : List Span} {d : Span} {chunkE fuel : ℕ}
    (hi : Inv T S h (pre ++ d :: post) (c :: rest)) (hdc : d.stop = c.start)
    (he : chunkE = c.stop) :
    ∃ h', mergeLoop T chunkE (fuel + 1)
        ⟨h, linkAfter pre, c.start, c.start + T.ptrBytes, c.size⟩ =
        mergeLoop T chunkE fuel
          ⟨h', linkAfter pre, d.start, d.start + T.ptrBytes, (d.join c).size⟩ ∧
      Inv T S h' (pre ++ post) (d.join c :: rest) ∧ Frame (pre ++ d :: post ++ [c]) h h' ∧
      ∀ i < c.size - T.ptrBytes,
        h'.mem (d.start + T.ptrBytes + i) = h.mem (c.start + T.ptrBytes + i) := by
  have hw := T.ptrBytes_bounds
  have hfit := hi.fit_free hS
  have hd := hfit d (by simp)
  have hc := hi.fit hS (show c ∈ (pre ++ d :: post) ++ c :: rest by simp)
  have hdpos := hd.pos
  have hcmin := hc.min
  have hclt := hc.lt
  have hcle : d.start ≤ c.stop := by unfold stop at hdc ⊢; omega
  -- the header of `c` is not in a free chunk
  have hsize : (h.setLink T (linkAfter pre) (headOr 0 post)).size T c.start = c.size := by
    rw [← hi.header c (by simp)]
    refine Target.load_congr fun a h1 h2 => ?_
    refine setLink_after_mem (fun x hx => hfit x (by simp [hx])) ?_
    exact not_covered_of_disj (fun x hx => hi.free_disj x (by simp [hx])) h1 (by
      unfold stop; omega)
  have hsum : T.add c.size d.size = c.size + d.size := Target.add_of_lt (by
    have := hc.add_size_lt hdc
    omega)
  have hdata : chunkDataSize T (h.setLink T (linkAfter pre) (headOr 0 post)) c.start =
      c.size - T.ptrBytes := by
    unfold stop at hclt
    rw [chunkDataSize, hsize, Target.sub_of_le (by omega) (by omega)]
  have hmove : memmove T (h.setLink T (linkAfter pre) (headOr 0 post)).mem (d.start + T.ptrBytes)
      (c.start + T.ptrBytes) (c.size - T.ptrBytes) = some _ :=
    memmove_eq_copy_of_le (by unfold stop at hdc hclt; omega) (by unfold stop at hdc; omega)
  obtain ⟨h1, h2, h3⟩ := hi.joinLeft hS hdc hmove rfl
  refine ⟨_, ?_, h1, h2, h3⟩
  rw [mergeLoop]
  dsimp only
  rw [hi.list.link_eq hfit, headOr_cons, if_pos ⟨by omega, he ▸ hcle⟩,
    chunkEnd_eq hd hi.list.size_eq, if_pos hdc, hi.list.next_eq hd, hi.list.size_eq, hsum, hdata,
    chunkToData_eq (c := d) hS hi (by simp), chunkToData_eq (c := c) hS hi (by simp), hmove,
    join_size, Nat.add_comm d.size]
  rfl

/-- The round at the free chunk `d` that starts where `c` ends, which is the last. -/
theorem mergeLoop_right {pre post : List Span} {d : Span} {chunkE fuel : ℕ}
    (hi : Inv T S h (pre ++ d :: post) (c :: rest)) (hcd : c.stop = d.start)
    (he : chunkE = c.stop) :
    ∃ h' link, mergeLoop T chunkE (fuel + 1)
        ⟨h, linkAfter pre, c.start, c.start + T.ptrBytes, c.size⟩ =
        some ⟨h', link, c.start, c.start + T.ptrBytes, (c.join d).size⟩ ∧
      Inv T S h' (pre ++ post) (c.join d :: rest) ∧ Frame (pre ++ d :: post ++ [c]) h h' ∧
      ∀ a, c.start + T.ptrBytes ≤ a → a < c.stop → h'.mem a = h.mem a := by
  have hfit := hi.fit_free hS
  have hd := hfit d (by simp)
  have hc := hi.fit hS (show c ∈ (pre ++ d :: post) ++ c :: rest by simp)
  have hcpos := hc.size_pos
  have hdpos := hd.pos
  have hne : d.stop ≠ c.start := by unfold stop at hcd ⊢; omega
  obtain ⟨h1, h2, h3⟩ := hi.joinRight hS hcd rfl rfl
  refine ⟨_, linkAfter pre, ?_, h1, h2, h3⟩
  rw [mergeLoop]
  dsimp only
  rw [hi.list.link_eq hfit, headOr_cons, if_pos ⟨by omega, by omega⟩,
    chunkEnd_eq hd hi.list.size_eq, if_neg hne, if_pos (by omega), hi.list.next_eq hd,
    hi.list.size_eq, hd.add_size hcd, join_size]

/-- One round at a free chunk `d` that does not touch `c`: the loop goes on behind it, unless it is
past the end of `c`. -/
theorem mergeLoop_next {pre post : List Span} {d : Span} {chunkE fuel : ℕ}
    (hi : Inv T S h (pre ++ d :: post) (c :: rest)) (hleft : d.stop ≠ c.start)
    (hright : c.stop ≠ d.start) (he : chunkE = c.stop) :
    mergeLoop T chunkE (fuel + 1) ⟨h, linkAfter pre, c.start, c.start + T.ptrBytes, c.size⟩ =
      if d.start ≤ chunkE then mergeLoop T chunkE fuel
        ⟨h, linkAfter (pre ++ [d]), c.start, c.start + T.ptrBytes, c.size⟩
      else some ⟨h, linkAfter pre, c.start, c.start + T.ptrBytes, c.size⟩ := by
  have hfit := hi.fit_free hS
  have hd := hfit d (by simp)
  have hdpos := hd.pos
  rw [mergeLoop, linkAfter_concat]
  dsimp only
  rw [hi.list.link_eq hfit, headOr_cons, chunkEnd_eq hd hi.list.size_eq, if_neg hleft,
    if_neg (show ¬ d.start = chunkE by omega)]
  by_cases hle : d.start ≤ chunkE
  · rw [if_pos ⟨by omega, hle⟩, if_pos hle]
  · rw [if_neg (fun h => hle h.2), if_neg hle]

/-- **The loop of `noc_realloc`** joins the chunk with the free chunks that touch it. -/
theorem mergeLoop_merged : ∀ {fuel chunkE : ℕ} (pre post : List Span) {c : Span} {h : Heap ε},
    Inv T S h (pre ++ post) (c :: rest) → post.length < fuel → (∀ d ∈ pre, d.stop ≠ c.start) →
      chunkE = c.stop → ∃ h' link free' c',
        mergeLoop T chunkE fuel ⟨h, linkAfter pre, c.start, c.start + T.ptrBytes, c.size⟩ =
          some ⟨h', link, c'.start, c'.start + T.ptrBytes, c'.size⟩ ∧
        Merged T S h (pre ++ post) rest c h' free' c'
  | fuel + 1, chunkE, pre, [], c, h, hi, _, hpre, he => by
    refine ⟨h, linkAfter pre, pre ++ [], c, ?_, Merged.refl hi (by simpa using hpre)⟩
    rw [mergeLoop]
    dsimp only
    rw [hi.list.link_eq (hi.fit_free hS), headOr_nil, if_neg (fun h => h.1 rfl)]
  | fuel + 1, chunkE, pre, d :: post, c, h, hi, hlen, hpre, he => by
    have hfit := hi.fit_free hS
    have hd := hfit d (by simp)
    have hc := hi.fit hS (show c ∈ (pre ++ d :: post) ++ c :: rest by simp)
    have hlen' : post.length < fuel := by simpa using hlen
    have hsize := hd.size_pos
    have hcsize := hc.size_pos
    have hsep := List.pairwise_append.mp hi.separated
    have hafter : ∀ x ∈ post, d.stop < x.start := (List.pairwise_cons.mp hsep.2.1).1
    -- what follows a chunk that ends behind the start of `c` ends there, too
    have hnone : d.stop ≠ c.start → c.start ≤ d.stop → ∀ x ∈ pre ++ d :: post,
        x.stop ≠ c.start := by
      refine fun hne hle => forall_mem_insert hne fun x hx => ?_
      rcases List.mem_append.mp hx with hx | hx
      · exact hpre x hx
      · have := hafter x hx
        unfold stop at *; omega
    have hkept : ∀ {h' : Heap ε}, Frame (pre ++ d :: post ++ [c]) h h' → Kept rest h h' :=
      fun hfr => hi.kept [c] hfr
    by_cases hleft : d.stop = c.start
    · -- `d` is on the left; nothing touches the joined chunk on the left
      obtain ⟨h1, hrun, hinv, hfr, hdata⟩ := mergeLoop_left hS hi hleft he
      have hjoin : ∀ x ∈ pre ++ post, x.stop ≠ (d.join c).start := by
        intro x hx
        rw [join_start]
        rcases List.mem_append.mp hx with hx | hx
        · exact (hsep.2.2 x hx d (by simp)).ne
        · have := hafter x hx
          unfold stop at *; omega
      obtain ⟨h', link, free', c', hrun', hm⟩ := mergeLoop_merged pre post hinv hlen'
        (fun x hx => hjoin x (by simp [hx])) (he.trans (join_stop hleft).symm)
      refine ⟨h', link, free', c', hrun.trans hrun', hm.inv, (hkept hfr).trans hm.kept, ?_, ?_, ?_,
        Or.inr ⟨d, by simp, hleft, ?_⟩⟩
      · intro i hilt
        rw [hm.data i (by rw [join_size]; omega), join_start, hdata i hilt]
      · have := hm.le
        rw [join_size] at this; omega
      · exact fun a ha => hm.covered a ((covered_middle _ (covered_join hleft)).mp ha)
      · rcases hm.start with ⟨h2, -⟩ | ⟨x, hx, h2, -⟩
        · exact h2
        · exact absurd h2 (hjoin x hx)
    · by_cases hright : c.stop = d.start
      · obtain ⟨h1, link, hrun, hinv, hfr, hdata⟩ := mergeLoop_right hS hi hright he
        refine ⟨h1, link, pre ++ post, c.join d, hrun, hinv, hkept hfr, ?_, ?_, ?_,
          Or.inl ⟨rfl, hnone hleft (by unfold stop at *; omega)⟩⟩
        · intro i hilt
          exact hdata _ (by rw [join_start]; omega) (by rw [join_start]; unfold stop; omega)
        · rw [join_size]; omega
        · intro a ha
          exact (covered_middle _ ((covered_join hright).trans or_comm)).mp ha
      · rw [mergeLoop_next hS hi hleft hright he]
        by_cases hle : d.start ≤ chunkE
        · rw [if_pos hle]
          have hpre' : ∀ x ∈ pre ++ [d], x.stop ≠ c.start := by
            rintro x hx
            rcases List.mem_append.mp hx with hx | hx
            · exact hpre x hx
            · rw [List.mem_singleton.mp hx]
              exact hleft
          have hassoc : pre ++ [d] ++ post = pre ++ d :: post := by simp
          have ih := mergeLoop_merged (pre ++ [d]) post (hassoc ▸ hi) hlen' hpre' he
          rwa [hassoc] at ih
        · rw [if_neg hle]
          exact ⟨h, linkAfter pre, pre ++ d :: post, c, rfl,
            Merged.refl hi (hnone hleft (by unfold stop at *; omega))⟩

/-! ### The end of `noc_realloc` -/

/-- The front of an allocated chunk that is big enough stays, and the rest is freed if it can be a
chunk. -/
theorem reallocFinish_fits {alloc old : ℕ} (link : Link) (hi : Inv T S h free (c :: rest))
    (hal : T.mallocAlign ∣ alloc) (hmin : mallocMinSize T ≤ alloc) (hle : alloc ≤ old)
    (hold : old = c.size ∨ old = alloc ∧ alloc ≤ c.size) :
    ∃ h' free' m, reallocFinish T S n alloc ⟨h, link, c.start, c.start + T.ptrBytes, old⟩ =
        some (c.start + T.ptrBytes, h') ∧ Inv T S h' free' (⟨c.start, m⟩ :: rest) ∧
      Kept rest h h' ∧ alloc ≤ m ∧
      ∀ a, c.start + T.ptrBytes ≤ a → a < c.start + alloc → h'.mem a = h.mem a := by
  have hsized := hi.sized c (by simp)
  have hc := hi.fit hS (show c ∈ free ++ c :: rest by simp)
  rw [reallocFinish]
  dsimp only
  rw [if_pos hle]
  by_cases hsplit : mallocMinSize T ≤ old - alloc
  swap
  · rw [if_neg hsplit]
    exact ⟨h, free, c.size, rfl, hi, fun _ _ _ _ _ => rfl, by omega, fun _ _ _ => rfl⟩
  -- something is left over, so `old` is the whole chunk
  have hwhole : old = c.size := by
    rcases hold with h1 | ⟨h1, -⟩
    · exact h1
    · have := T.ptrBytes_bounds
      unfold mallocMinSize at hsplit; omega
  subst hwhole
  have hw := T.ptrBytes_bounds
  have hlt := hc.lt
  unfold stop at hlt
  have hfront : Sized T ⟨c.start, alloc⟩ := ⟨hsized.start, hal, hmin⟩
  have hback : Sized T ⟨c.start + alloc, c.size - alloc⟩ :=
    ⟨Nat.dvd_add hsized.start hal, Nat.dvd_sub hsized.size hal, hsplit⟩
  obtain ⟨h1, h2⟩ := hi.split hS (by omega) hfront hback
  have hend : chunkEnd T (h.setSize T c.start alloc) c.start = c.start + alloc := by
    rw [chunkEnd, show (h.setSize T c.start alloc).size T c.start = alloc from
      Target.load_store (by omega), Target.add_of_lt (by omega)]
  obtain ⟨h', h3, h4, h5⟩ := insertFreeChunk_eq (c := ⟨c.start + alloc, c.size - alloc⟩) hS h1
  rw [if_pos hsplit, hend, h3]
  refine ⟨h', _, alloc, rfl, h4, ?_, le_rfl, fun a ha hb => ?_⟩
  · refine Kept.trans (fun d hd a ha hb => h2.bytes (d := d) (fun x hx => ?_) ha hb)
      fun d hd => h1.kept_rest h5 d (by simp [hd])
    rw [List.mem_singleton.mp hx]
    exact hi.disj_rest d hd
  · unfold mallocMinSize at hmin hsplit
    rw [h1.kept_rest h5 ⟨c.start, alloc⟩ (by simp) a (by simp only; omega) hb]
    refine (setSize_mem_of_notMem (Or.inl hb)).trans ?_
    exact setSize_mem_of_notMem (Or.inr ha)

/-- The old chunk is too small: a new one is allocated and gets its data, or nothing is. -/
theorem reallocFinish_alloc (link : Link) (hi : Inv T S h free (c :: rest)) (hr : Request T n)
    (hlt : c.size < chunkSizeForData T n) :
    (∃ h', reallocFinish T S n (chunkSizeForData T n)
        ⟨h, link, c.start, c.start + T.ptrBytes, c.size⟩ = some (0, h') ∧ Refused T S h h') ∨
    ∃ h' free' d, reallocFinish T S n (chunkSizeForData T n)
        ⟨h, link, c.start, c.start + T.ptrBytes, c.size⟩ = some (d.start + T.ptrBytes, h') ∧
      Inv T S h' free' (d :: rest) ∧ Kept rest h h' ∧ chunkSizeForData T n ≤ d.size ∧
      ∀ i < c.size - T.ptrBytes,
        h'.mem (d.start + T.ptrBytes + i) = h.mem (c.start + T.ptrBytes + i) := by
  have hw := T.ptrBytes_bounds
  rw [reallocFinish]
  dsimp only
  rw [if_neg (by omega)]
  rcases nocMalloc_cases hS hi hr with ⟨h1, h2, h3⟩ | ⟨h1, free1, d, h2, h3⟩
  · rw [h2]
    exact Or.inl ⟨h1, rfl, h3⟩
  right
  have hi1 := h3.inv
  have hdsize := h3.size.le
  have hd := hi1.fit hS (show d ∈ free1 ++ d :: c :: rest by simp)
  have hc := hi1.fit hS (show c ∈ free1 ++ d :: c :: rest by simp)
  have hcmin := hc.min
  have hclt := hc.lt
  have hdlt := hd.lt
  have hdc := hi1.disj_rest c (by simp)
  unfold stop at hclt hdlt
  unfold Disj stop at hdc
  have hdata : chunkDataSize T h1 c.start = c.size - T.ptrBytes := by
    rw [chunkDataSize, hi1.header c (by simp), Target.sub_of_le (by omega) (by omega)]
  rw [h2]
  dsimp only
  rw [if_pos (by omega), hdata, memcpy_eq_copy (by omega) (by omega)]
  obtain ⟨m, hm⟩ : ∃ m, m = h1.mem.copy (d.start + T.ptrBytes) (c.start + T.ptrBytes)
    (c.size - T.ptrBytes) := ⟨_, rfl⟩
  rw [← hm]
  -- the copy stays in the data of the new chunk
  have hwrite : Inv T S { h1 with mem := m } free1 (c :: d :: rest) := by
    refine Inv.write (hi1.perm (List.Perm.swap c d rest)) fun a ha => Or.inl ⟨d, by simp, ?_⟩
    by_contra hout
    rw [hm] at ha
    refine ha (Mem.copy_of_notMem ?_)
    unfold stop at hout; omega
  obtain ⟨h', h4, h5, h6⟩ := hwrite.release hS
  have hbytes : ∀ x ∈ d :: rest, ∀ a, x.start ≤ a → a < x.stop → h'.mem a = m a :=
    hwrite.kept_rest h6
  rw [h4]
  refine ⟨h', _, d, rfl, h5, fun x hx a ha hb => ?_, hdsize, fun i hilt => ?_⟩
  · rw [hbytes x (by simp [hx]) a ha hb, hm, ← h3.kept x (by simp [hx]) a ha hb]
    have := hi1.disj_rest x (by simp [hx])
    refine Mem.copy_of_notMem ?_
    unfold Disj stop at this
    unfold stop at hb; omega
  · rw [hbytes d (by simp) _ (by omega) (by unfold stop; omega), hm, Mem.copy_of_lt hilt]
    exact h3.kept c (by simp) _ (by omega) (by unfold stop; omega)

/-! ### The call -/

/-- The data of the allocated chunk `c` is at the front of the allocated chunk `c'`, which has room
for `n` bytes. -/
structure Moved (T : Target) (S : Sbrk ε) (n : ℕ) (h : Heap ε) (rest : List Span) (c : Span)
    (h' : Heap ε) (free' : List Span) (c' : Span) : Prop where
  inv : Inv T S h' free' (c' :: rest)
  kept : Kept rest h h'
  size : chunkSizeForData T n ≤ c'.size
  data : ∀ i < c.size - T.ptrBytes, i < n →
    h'.mem (c'.start + T.ptrBytes + i) = h.mem (c.start + T.ptrBytes + i)

/-- **`noc_realloc`** of an allocated chunk to a size that is not 0. -/
theorem nocRealloc_cases (hi : Inv T S h free (c :: rest)) (hr : Request T n) :
    (∃ h' free' c', nocRealloc T S (c.start + T.ptrBytes) n h = some (0, h') ∧
      Merged T S h free rest c h' free' c') ∨
    ∃ h' free' c', nocRealloc T S (c.start + T.ptrBytes) n h = some (c'.start + T.ptrBytes, h') ∧
      Moved T S n h rest c h' free' c' := by
  have hw := T.ptrBytes_bounds
  have hc := hi.fit hS (show c ∈ free ++ c :: rest by simp)
  have hcmin := hc.min
  have hin := hi.inside c (by simp)
  have hlo := hin.lo
  have hhi := hin.hi
  have hsz := hr.le_size
  have hcstop : c.start + T.ptrBytes < c.stop := by unfold stop; omega
  have hsize := hi.header c (by simp)
  rw [nocRealloc, if_neg (by omega), if_neg hr.ne_zero, if_neg (by omega)]
  dsimp only
  rw [chunkFromData_eq hc, chunkEnd_eq hc hsize, if_neg (by omega), hsize]
  by_cases hsmall : c.size < chunkSizeForData T n
  swap
  · rw [if_neg hsmall]
    obtain ⟨h', free', m, h1, h2, h3, h4, h5⟩ := reallocFinish_fits (n := n) hS .head hi
      (dvd_chunkSizeForData T n) hr.min_size (by omega) (Or.inl rfl)
    exact Or.inr ⟨h', free', ⟨c.start, m⟩, h1, h2, h3, h4, fun i hi1 hi2 =>
      h5 _ (by simp only; omega) (by simp only; omega)⟩
  rw [if_pos hsmall]
  rcases chunkGrow_cases hS hi hsmall (dvd_chunkSizeForData T n) hr.size_lt with
    ⟨h1, m, h2, h3, h4, h5⟩ | ⟨h1, free1, h2, h3, h4, h5, h6⟩
  · -- grown in place: the rest of the function has nothing to do
    rw [h2]
    dsimp only
    obtain ⟨h', free', m', h6, h7, h8, h9, h10⟩ := reallocFinish_fits (c := ⟨c.start, m⟩) (n := n)
      hS .head h4 (dvd_chunkSizeForData T n) hr.min_size le_rfl (Or.inr ⟨rfl, h3⟩)
    refine Or.inr ⟨h', free', ⟨c.start, m'⟩, h6, h7, Kept.trans (fun d hd a ha hb => ?_) h8, h9,
      fun i hi1 hi2 => ?_⟩
    · have := hi.disj_rest d hd
      refine h5 a ?_
      unfold Disj stop at *; omega
    · rw [h10 _ (by simp only; omega) (by simp only; omega)]
      exact h5 _ (by simp only; omega)
  · rw [h2]
    dsimp only
    have hlen : free1.length < T.space := h3.length_free hS
    obtain ⟨h', link, free', c', h7, hm⟩ := mergeLoop_merged hS [] free1 h3 hlen
      (by simp) rfl
    rw [linkAfter_nil] at h7
    rw [List.nil_append] at hm
    rw [h7]
    dsimp only
    have hkept : Kept rest h h1 := fun d hd => h4 d (by simp [hd])
    have hdata : ∀ i < c.size - T.ptrBytes,
        h1.mem (c.start + T.ptrBytes + i) = h.mem (c.start + T.ptrBytes + i) := fun i hilt =>
      h4 c (by simp) _ (by omega) (by unfold stop; omega)
    have hmerged : Merged T S h free rest c h' free' c' := by
      refine ⟨hm.inv, hkept.trans hm.kept, fun i hilt => ?_, hm.le, fun a ha => hm.covered a ?_, ?_⟩
      · rw [hm.data i hilt, hdata i hilt]
      · rw [covered_append] at ha ⊢
        exact ha.imp (h5 a) id
      · rcases hm.start with ⟨h8, h9⟩ | ⟨d, hd, h8, h9⟩
        · exact Or.inl ⟨h8, fun d hd hdc => h9 d ((h6 d hdc).mpr hd) hdc⟩
        · exact Or.inr ⟨d, (h6 d h8).mp hd, h8, h9⟩
    by_cases hfits : chunkSizeForData T n ≤ c'.size
    · obtain ⟨h2', free2, m, h8, h9, h10, h11, h12⟩ := reallocFinish_fits (n := n) hS
        link hm.inv (dvd_chunkSizeForData T n) hr.min_size hfits (Or.inl rfl)
      refine Or.inr ⟨h2', free2, ⟨c'.start, m⟩, h8, h9, hmerged.kept.trans h10, h11,
        fun i hi1 hi2 => ?_⟩
      rw [h12 _ (by simp only; omega) (by simp only; omega)]
      exact hmerged.data i hi1
    · rcases reallocFinish_alloc hS link hm.inv hr (by omega) with
        ⟨h2', h8, h9⟩ | ⟨h2', free2, d, h8, h9, h10, h11, h12⟩
      · exact Or.inl ⟨h2', free', c', h8, hmerged.refused h9⟩
      · refine Or.inr ⟨h2', free2, d, h8, h9, hmerged.kept.trans h10, h11, fun i hi1 hi2 => ?_⟩
        have := hm.le
        rw [h12 i (by omega)]
        exact hmerged.data i hi1

end Contract

end Noc.Malloc
