import Noc.Malloc.Grow

/-! # `noc_malloc`

* `chunkSizeForData_eq`: what `chunk_size_for_data` computes for a request it can represent.
* `searchLoop_cases`: the search finds the best fit, or there is no chunk to use.
* `nocMalloc_eq`: with that, what a call returns and the heap it leaves.
* `nocMalloc_cases`: a call is refused and leaves the heap as it is, or returns the data of a new
  allocated chunk; the size of the chunk is the size asked for, or that of the best fit when the
  rest would be too small for a chunk of its own (`ChunkSize`). -/

namespace Noc.Malloc

open Noc.Lib.Bytes Noc.Lib.Spans Noc.Lib.Spans.Span Noc.Targets Noc.Unistd

variable {ε : Type} {T : Target} {S : Sbrk ε} {h h' : Heap ε}
variable {free live : List Span} {c : Span} {n size : ℕ}

/-! ### Requests -/

/-- The chunk size for `n` bytes does not wrap. -/
def Representable (T : Target) (n : ℕ) : Prop := n + 2 * T.ptrBytes ≤ T.space

instance (T : Target) (n : ℕ) : Decidable (Representable T n) := inferInstanceAs (Decidable (_ ≤ _))

/-- A request whose chunk size does not wrap and has room for a `struct free_chunk`. -/
structure Request (T : Target) (n : ℕ) : Prop where
  representable : Representable T n
  room : T.ptrBytes < n + T.mallocAlign

theorem Request.ne_zero (hr : Request T n) : n ≠ 0 := by
  have h1 := hr.room
  have h2 := T.align_le
  omega

/-- With the default alignment there is room for every request but that of 0 bytes. -/
theorem Request.of_default (hT : T.DefaultAlign) (hr : Representable T n) (hn : n ≠ 0) :
    Request T n := by
  unfold Target.DefaultAlign at hT
  exact ⟨hr, by omega⟩

/-- The chunk size for `n` bytes as a number, which `chunk_size_for_data` computes until it
wraps. -/
def roundedSize (T : Target) (n : ℕ) : ℕ :=
  n + (if n % T.mallocAlign = 0 then 0 else T.mallocAlign - n % T.mallocAlign) + T.ptrBytes

theorem chunkSizeForData_mod (T : Target) (n : ℕ) :
    chunkSizeForData T n = roundedSize T n % T.space := by
  rw [chunkSizeForData, roundedSize]
  by_cases h0 : n % T.mallocAlign = 0
  · rw [if_neg (not_not.mpr h0), if_pos h0, Nat.add_zero]
    rfl
  · rw [if_pos h0, if_neg h0]
    exact Nat.mod_add_mod _ _ _

theorem roundedSize_eq (T : Target) (n : ℕ) : ∃ r, roundedSize T n = r + T.ptrBytes ∧
    n ≤ r ∧ r < n + T.mallocAlign ∧ T.mallocAlign ∣ r := by
  have ha := T.align_pos
  have hmod := Nat.mod_lt n ha
  have hsplit := Nat.div_add_mod n T.mallocAlign
  refine ⟨_, rfl, ?_⟩
  split_ifs with h0
  · exact ⟨le_rfl, by omega, Nat.dvd_of_mod_eq_zero h0⟩
  · refine ⟨by omega, by omega, ?_⟩
    rw [show n + (T.mallocAlign - n % T.mallocAlign) =
      T.mallocAlign * (n / T.mallocAlign) + T.mallocAlign by omega]
    exact Nat.dvd_add (Nat.dvd_mul_right _ _) (dvd_refl _)

/-- A chunk size is aligned, wrapped or not. -/
theorem dvd_chunkSizeForData (T : Target) (n : ℕ) : T.mallocAlign ∣ chunkSizeForData T n := by
  obtain ⟨r, h1, -, -, h2⟩ := roundedSize_eq T n
  rw [chunkSizeForData_mod, h1]
  exact (Nat.dvd_mod_iff T.align_dvd_space).mpr (Nat.dvd_add h2 T.align_dvd)

theorem chunkSizeForData_eq (hr : Representable T n) : ∃ r, chunkSizeForData T n = r + T.ptrBytes ∧
    n ≤ r ∧ r < n + T.mallocAlign ∧ T.mallocAlign ∣ r := by
  obtain ⟨r, h1, h2, h3, h4⟩ := roundedSize_eq T n
  have hal := T.align_le
  unfold Representable at hr
  refine ⟨r, ?_, h2, h3, h4⟩
  rw [chunkSizeForData_mod, h1, Nat.mod_eq_of_lt (by omega)]

namespace Request

theorem le_size (hr : Request T n) : n + T.ptrBytes ≤ chunkSizeForData T n := by
  obtain ⟨r, h1, h2, -, -⟩ := chunkSizeForData_eq hr.representable
  omega

theorem min_size (hr : Request T n) : mallocMinSize T ≤ chunkSizeForData T n := by
  obtain ⟨r, h1, h2, -, h3⟩ := chunkSizeForData_eq hr.representable
  have hroom := hr.room
  have := Nat.le_of_lt_add_of_dvd (show T.ptrBytes < r + T.mallocAlign by omega) T.align_dvd h3
  unfold mallocMinSize; omega

theorem size_lt (hr : Request T n) : chunkSizeForData T n < T.space := by
  obtain ⟨r, h1, -, h2, h3⟩ := chunkSizeForData_eq hr.representable
  have hrep := hr.representable
  have hal := T.align_le
  have hw := T.ptrBytes_bounds
  unfold Representable at hrep
  have := Nat.le_of_lt_add_of_dvd (show r < T.space - 2 * T.ptrBytes + T.mallocAlign by omega) h3
    (Nat.dvd_sub T.align_dvd_space (Dvd.dvd.mul_left T.align_dvd 2))
  omega

end Request

/-! ### The search -/

/-- `c`, between `pre` and `post`, is the first of the smallest chunks with room for `size`. -/
structure BestFit (size : ℕ) (pre : List Span) (c : Span) (post : List Span) : Prop where
  fits : size ≤ c.size
  first : ∀ d ∈ pre, size ≤ d.size → c.size < d.size
  best : ∀ d ∈ post, size ≤ d.size → c.size ≤ d.size

theorem BestFit.le {pre post : List Span} (hb : BestFit size pre c post) :
    ∀ d ∈ pre ++ c :: post, size ≤ d.size → c.size ≤ d.size := by
  refine forall_mem_insert (P := fun d => size ≤ d.size → c.size ≤ d.size) (fun _ => le_rfl) ?_
  intro d hd hs
  rcases List.mem_append.mp hd with hd | hd
  · exact (hb.first d hd hs).le
  · exact hb.best d hd hs

/-- What the search knows after the chunks `l`: none of them can be used, or the best of them. The
remainder has to be below the starting value of `min_extra`. -/
def Scanned (size : ℕ) (l : List Span) (minExtra : ℕ) (minParent : Option Link) : Prop :=
  (minParent = none ∧ minExtra = 2 ^ 32 - 1 ∧
      ∀ d ∈ l, size ≤ d.size → size + (2 ^ 32 - 1) ≤ d.size) ∨
  ∃ pre c post, l = pre ++ c :: post ∧ minParent = some (linkAfter pre) ∧
    minExtra = c.size - size ∧ minExtra < 2 ^ 32 - 1 ∧ BestFit size pre c post

/-- A chunk that is not better leaves the best one. -/
theorem Scanned.skip {l : List Span} {e : ℕ} {q : Option Link} (hs : Scanned size l e q)
    (hd : ¬ (size ≤ c.size ∧ c.size - size < e)) : Scanned size (l ++ [c]) e q := by
  rcases hs with ⟨h1, h2, h3⟩ | ⟨pre, b, post, rfl, h2, h3, h4, h5⟩
  · refine Or.inl ⟨h1, h2, fun d hdl hsd => ?_⟩
    rcases List.mem_append.mp hdl with hdl | hdl
    · exact h3 d hdl hsd
    · rw [List.mem_singleton.mp hdl] at hsd ⊢
      omega
  · have hfit := h5.fits
    refine Or.inr ⟨pre, b, post ++ [c], by simp, h2, h3, h4, h5.fits, h5.first, fun d hdl hsd => ?_⟩
    rcases List.mem_append.mp hdl with hdl | hdl
    · exact h5.best d hdl hsd
    · rw [List.mem_singleton.mp hdl] at hsd ⊢
      omega

/-- A better chunk is the best one. -/
theorem Scanned.better {l : List Span} {e : ℕ} {q : Option Link} (hs : Scanned size l e q)
    (hd : size ≤ c.size ∧ c.size - size < e) :
    c.size - size < 2 ^ 32 - 1 ∧ ∀ d ∈ l, size ≤ d.size → c.size < d.size := by
  obtain ⟨h0, hd⟩ := hd
  rcases hs with ⟨-, h2, h3⟩ | ⟨pre, b, post, rfl, -, h3, h4, h5⟩
  · refine ⟨by omega, fun d hdl hsd => ?_⟩
    have := h3 d hdl hsd
    omega
  · refine ⟨by omega, fun d hdl hsd => ?_⟩
    have := h5.le d hdl hsd
    omega

theorem searchLoop_scanned (ha : ∀ d ∈ free, T.mallocAlign ∣ d.size) (hsz : T.mallocAlign ∣ size) :
    ∀ {fuel : ℕ} (pre post : List Span) {e : ℕ} {q : Option Link}, free = pre ++ post →
      HeadList T h 0 free → (∀ d ∈ free, Fit T d) → post.length < fuel → Scanned size pre e q →
      ∃ s, searchLoop T h size fuel ⟨linkAfter pre, e, q⟩ = some s ∧
        Scanned size free s.minExtra s.minParent ∧
        (s.minParent = none → s.parent = linkAfter free)
  | fuel + 1, pre, [], e, q, hpp, hl, hf, _, hs => by
    rw [hpp] at hl hf
    refine ⟨⟨linkAfter pre, e, q⟩, ?_, ?_, fun _ => ?_⟩
    · rw [searchLoop]
      dsimp only
      rw [hl.link_eq hf, headOr_nil, if_pos rfl]
    · rwa [hpp, List.append_nil]
    · rw [hpp, List.append_nil]
  | fuel + 1, pre, c :: post, e, q, hpp, hl, hf, hlen, hs => by
    have hl' := hpp ▸ hl
    have hf' := hpp ▸ hf
    have hpos := (hf' c (by simp)).pos
    have hca := ha c (by simp [hpp])
    have hpp' : free = pre ++ [c] ++ post := by simp [hpp]
    have hlen' : post.length < fuel := by simpa using hlen
    rw [searchLoop]
    dsimp only
    rw [hl'.link_eq hf', headOr_cons, if_neg (by omega), hl'.size_eq]
    by_cases hbetter : size ≤ c.size ∧ c.size - size < e
    · obtain ⟨h1, h2⟩ := hs.better hbetter
      rw [if_pos hbetter]
      by_cases halmost : c.size - size < T.mallocAlign
      · -- sizes are aligned, so nothing is left over and no other chunk is better
        have hexact : c.size - size = 0 := by
          have hdvd := Nat.dvd_sub hca hsz
          exact Nat.eq_zero_of_dvd_of_lt hdvd halmost
        rw [if_pos halmost]
        refine ⟨_, rfl, Or.inr ⟨pre, c, post, hpp, rfl, rfl, h1, hbetter.1, h2, fun d _ hd => ?_⟩,
          fun h => by cases h⟩
        omega
      · rw [if_neg halmost]
        have ih := searchLoop_scanned ha hsz (pre ++ [c]) post
          (e := c.size - size) (q := some (linkAfter pre)) hpp' hl hf hlen'
          (Or.inr ⟨pre, c, [], rfl, rfl, rfl, h1, hbetter.1, h2, by simp⟩)
        rwa [linkAfter_concat] at ih
    · rw [if_neg hbetter]
      have ih := searchLoop_scanned ha hsz (pre ++ [c]) post
        (e := e) (q := q) hpp' hl hf hlen' (hs.skip hbetter)
      rwa [linkAfter_concat] at ih

/-- **The search of `noc_malloc`** ends at the end of the list with nothing to use, or has the link
to the best fit. -/
theorem searchLoop_cases (hl : HeadList T h 0 free) (hf : ∀ d ∈ free, Fit T d)
    (hlen : free.length < T.space) (ha : ∀ d ∈ free, T.mallocAlign ∣ d.size)
    (hsz : T.mallocAlign ∣ size) :
    (searchLoop T h size T.space ⟨.head, 2 ^ 32 - 1, none⟩ =
        some ⟨linkAfter free, 2 ^ 32 - 1, none⟩ ∧
      ∀ d ∈ free, size ≤ d.size → size + (2 ^ 32 - 1) ≤ d.size) ∨
    ∃ pre c post parent, free = pre ++ c :: post ∧ BestFit size pre c post ∧
      c.size - size < 2 ^ 32 - 1 ∧ searchLoop T h size T.space ⟨.head, 2 ^ 32 - 1, none⟩ =
        some ⟨parent, c.size - size, some (linkAfter pre)⟩ := by
  obtain ⟨⟨parent, e, q⟩, h1, h2, h3⟩ := searchLoop_scanned ha hsz [] free rfl hl
    hf hlen (Or.inl ⟨rfl, rfl, by simp⟩)
  rw [linkAfter_nil] at h1
  dsimp only at h2 h3
  rcases h2 with ⟨rfl, rfl, h4⟩ | ⟨pre, c, post, h4, rfl, rfl, h5, h6⟩
  · rw [h3 rfl] at h1
    exact Or.inl ⟨h1, h4⟩
  · exact Or.inr ⟨pre, c, post, parent, h4, h6, h5, h1⟩

/-! ### The call -/

/-- `m` is the size of the chunk for a request of chunk size `size`: just that; or the size of the
best fit, when what it leaves over is too small for a chunk. -/
def ChunkSize (T : Target) (size : ℕ) (free : List Span) (m : ℕ) : Prop :=
  (m = size ∧ ∀ d ∈ free, size ≤ d.size → size + mallocMinSize T ≤ d.size) ∨
  (size ≤ m ∧ m < size + mallocMinSize T ∧ (∃ d ∈ free, d.size = m) ∧
    ∀ d ∈ free, size ≤ d.size → m ≤ d.size)

theorem ChunkSize.le {m : ℕ} (hm : ChunkSize T size free m) : size ≤ m := by
  rcases hm with ⟨rfl, -⟩ | ⟨h, -⟩
  · exact le_rfl
  · exact h

/-- The new allocated chunk `c` after a call of `noc_malloc`. -/
structure Allocated (T : Target) (S : Sbrk ε) (size : ℕ) (h : Heap ε) (free live : List Span)
    (h' : Heap ε) (free' : List Span) (c : Span) : Prop where
  inv : Inv T S h' free' (c :: live)
  kept : Kept live h h'
  size : ChunkSize T size free c.size

/-- The result of `noc_malloc` when `sbrk` is asked for a whole chunk. -/
def fromSbrk (T : Target) (S : Sbrk ε) (size : ℕ) (h : Heap ε) : ℕ × Heap ε :=
  if (alignedSbrk T S size h).1 = T.sbrkFailure then (0, (alignedSbrk T S size h).2)
  else (chunkToData T (alignedSbrk T S size h).1,
    (alignedSbrk T S size h).2.setSize T (alignedSbrk T S size h).1 size)

theorem fromSbrk_env (T : Target) (S : Sbrk ε) (size : ℕ) (h : Heap ε) :
    (fromSbrk T S size h).2.env = (alignedSbrk T S size h).2.env := by
  unfold fromSbrk
  split_ifs <;> rfl

/-- The search ends at the end of the list: there is nothing to grow, and `sbrk` is asked for a
whole chunk. -/
theorem nocMalloc_none {e : ℕ} (hend : h.link T (linkAfter free) = 0) (hn : n ≠ 0)
    (hsearch : searchLoop T h (chunkSizeForData T n) T.space ⟨.head, 2 ^ 32 - 1, none⟩ =
      some ⟨linkAfter free, e, none⟩) :
    nocMalloc T S n h = some (fromSbrk T S (chunkSizeForData T n) h) := by
  have hgrow : chunkGrow T S (h.link T (linkAfter free)) (chunkSizeForData T n) h =
      some (false, h) := by
    rw [hend, chunkGrow, if_pos rfl]
  rw [nocMalloc, if_neg hn]
  dsimp only
  rw [hsearch]
  dsimp only
  rw [hgrow]
  dsimp only
  unfold fromSbrk
  split_ifs <;> rfl

/-- The heap with the front of the chunk `c` taken out of the list, or all of it when the rest would
be too small for a chunk. -/
def allocate (T : Target) (size : ℕ) (h : Heap ε) (pre : List Span) (c : Span) (post : List Span) :
    Heap ε :=
  if c.size - size < mallocMinSize T then
    (h.setLink T (linkAfter pre) (headOr 0 post)).setSize T c.start c.size
  else
    (((h.setSize T (c.start + size) (c.size - size)).setLink T (.next (c.start + size))
      (headOr 0 post)).setLink T (linkAfter pre) (c.start + size)).setSize T c.start size

/-- The search has found a chunk: the block starts there. -/
theorem nocMalloc_found {pre post : List Span} {parent : Link}
    (hl : HeadList T h 0 (pre ++ c :: post)) (hf : ∀ d ∈ pre ++ c :: post, Fit T d) (hn : n ≠ 0)
    (hle : chunkSizeForData T n ≤ c.size)
    (hsearch : searchLoop T h (chunkSizeForData T n) T.space ⟨.head, 2 ^ 32 - 1, none⟩ =
      some ⟨parent, c.size - chunkSizeForData T n, some (linkAfter pre)⟩) :
    nocMalloc T S n h =
      some (c.start + T.ptrBytes, allocate T (chunkSizeForData T n) h pre c post) := by
  have hc := hf c (by simp)
  have hlt := hc.lt
  unfold stop at hlt
  have hsum : T.add (chunkSizeForData T n) (c.size - chunkSizeForData T n) = c.size := by
    rw [Target.add_of_lt (by omega)]; omega
  have hother : T.add c.start (chunkSizeForData T n) = c.start + chunkSizeForData T n :=
    Target.add_of_lt (by omega)
  have hdata : chunkToData T c.start = c.start + T.ptrBytes := hc.next
  rw [nocMalloc, if_neg hn]
  dsimp only
  rw [hsearch]
  dsimp only
  rw [hl.link_eq hf, headOr_cons, hl.next_eq hc, hdata, hsum, hother, allocate]
  split_ifs <;> rfl

/-- **What `noc_malloc` does with a list of free chunks**, whatever `sbrk` is: none of them can be
used, or the block starts in the best fit. -/
theorem nocMalloc_eq (hl : HeadList T h 0 free) (hf : ∀ d ∈ free, Fit T d)
    (hlen : free.length < T.space) (ha : ∀ d ∈ free, T.mallocAlign ∣ d.size) (hn : n ≠ 0) :
    ((∀ d ∈ free, chunkSizeForData T n ≤ d.size → chunkSizeForData T n + (2 ^ 32 - 1) ≤ d.size) ∧
      ∀ S : Sbrk ε, nocMalloc T S n h = some (fromSbrk T S (chunkSizeForData T n) h)) ∨
    ∃ pre c post, free = pre ++ c :: post ∧ BestFit (chunkSizeForData T n) pre c post ∧
      c.size - chunkSizeForData T n < 2 ^ 32 - 1 ∧ ∀ S : Sbrk ε, nocMalloc T S n h =
        some (c.start + T.ptrBytes, allocate T (chunkSizeForData T n) h pre c post) := by
  rcases searchLoop_cases hl hf hlen ha (dvd_chunkSizeForData T n) with
    ⟨hsearch, hfull⟩ | ⟨pre, c, post, parent, rfl, hbest, hextra, hsearch⟩
  · exact Or.inl ⟨hfull, fun S => nocMalloc_none (hl.link_after hf) hn hsearch⟩
  · exact Or.inr ⟨pre, c, post, rfl, hbest, hextra,
      fun S => nocMalloc_found hl hf hn hbest.fits hsearch⟩

/-- The chunk of the new block: its size is what was asked for and a remainder too small for a
chunk. -/
theorem allocate_size {pre post : List Span} (hc : c.size < T.space) (hle : size ≤ c.size) :
    (allocate T size h pre c post).size T c.start =
      if c.size - size < mallocMinSize T then c.size else size := by
  unfold allocate
  split_ifs
  · exact Target.load_store hc
  · exact Target.load_store (by omega)

section Contract
variable (hS : Contract T S)
include hS

theorem Inv.nocMalloc_eq (hi : Inv T S h free live) (hn : n ≠ 0) :
    ((∀ d ∈ free, chunkSizeForData T n ≤ d.size → chunkSizeForData T n + (2 ^ 32 - 1) ≤ d.size) ∧
      ∀ S : Sbrk ε, nocMalloc T S n h = some (fromSbrk T S (chunkSizeForData T n) h)) ∨
    ∃ pre c post, free = pre ++ c :: post ∧ BestFit (chunkSizeForData T n) pre c post ∧
      c.size - chunkSizeForData T n < 2 ^ 32 - 1 ∧ ∀ S : Sbrk ε, nocMalloc T S n h =
        some (c.start + T.ptrBytes, allocate T (chunkSizeForData T n) h pre c post) :=
  Malloc.nocMalloc_eq hi.list (hi.fit_free hS) (hi.length_free hS)
    (fun d hd => (hi.sized d (List.mem_append_left live hd)).size) hn

/-- No chunk is free for the request. -/
theorem nocMalloc_sbrk (hi : Inv T S h free live) (hr : Request T n)
    (hfull : ∀ d ∈ free, chunkSizeForData T n ≤ d.size →
      chunkSizeForData T n + (2 ^ 32 - 1) ≤ d.size)
    (hrun : nocMalloc T S n h = some (fromSbrk T S (chunkSizeForData T n) h)) :
    (∃ h', nocMalloc T S n h = some (0, h') ∧ Refused T S h h') ∨
    ∃ h' free' c, nocMalloc T S n h = some (c.start + T.ptrBytes, h') ∧
      Allocated T S (chunkSizeForData T n) h free live h' free' c := by
  have hw := T.ptrBytes_bounds
  have hmin := hr.min_size
  have hlt := hr.size_lt
  have hdvd := (dvd_chunkSizeForData T n)
  rw [hrun, fromSbrk]
  have hcases := alignedSbrk_cases hS hi.end_le (chunkSizeForData T n)
  generalize alignedSbrk T S (chunkSizeForData T n) h = r at hcases ⊢
  obtain ⟨p, h1⟩ := r
  dsimp only at hcases ⊢
  rcases hcases with ⟨hp, href⟩ | ⟨hp, hg⟩
  · rw [if_pos hp]
    exact Or.inl ⟨h1, rfl, href⟩
  · rw [if_neg hp]
    have hsized : Sized T ⟨p, chunkSizeForData T n⟩ := ⟨hg.align, hdvd, hmin⟩
    obtain ⟨h2, h3⟩ := hi.granted hg hsized hlt
    have hdata := chunkToData_eq (c := ⟨p, chunkSizeForData T n⟩) hS h2 (by simp)
    simp only at hdata
    rw [hdata]
    refine Or.inr ⟨_, free, ⟨p, chunkSizeForData T n⟩, rfl, h2, fun d hd => h3 d (by simp [hd]),
      Or.inl ⟨rfl, fun d hd hsd => ?_⟩⟩
    have := hfull d hd hsd
    unfold mallocMinSize; omega

/-- A chunk is free for the request: the best fit is taken whole, or split and its front is. -/
theorem nocMalloc_fit {pre post : List Span} (hi : Inv T S h free live) (hr : Request T n)
    (hfree : free = pre ++ c :: post) (hbest : BestFit (chunkSizeForData T n) pre c post)
    (hrun : nocMalloc T S n h =
      some (c.start + T.ptrBytes, allocate T (chunkSizeForData T n) h pre c post)) :
    ∃ h' free' m, nocMalloc T S n h = some (c.start + T.ptrBytes, h') ∧
      Allocated T S (chunkSizeForData T n) h free live h' free' ⟨c.start, m⟩ := by
  have hfits := hbest.fits
  have hle := hbest.le
  rw [← hfree] at hle
  have hi' := hfree ▸ hi
  have hsized := hi'.sized c (by simp)
  have hkept : ∀ {h' : Heap ε}, Frame (pre ++ c :: post) h h' → Kept live h h' := fun hfr =>
    hi'.kept [] (by rwa [List.append_nil])
  rw [hrun, allocate]
  by_cases hrest : c.size - chunkSizeForData T n < mallocMinSize T
  · rw [if_pos hrest]
    obtain ⟨h1, h2⟩ := hi'.take hS
    refine ⟨_, _, c.size, rfl, h1, hkept h2, Or.inr ⟨hfits, by simp only; omega, ?_, hle⟩⟩
    exact ⟨c, by simp [hfree], rfl⟩
  · rw [if_neg hrest]
    have hdvd := dvd_chunkSizeForData T n
    have hn : Sized T ⟨c.start, chunkSizeForData T n⟩ := ⟨hsized.start, hdvd, hr.min_size⟩
    have he : Sized T ⟨c.start + chunkSizeForData T n, c.size - chunkSizeForData T n⟩ :=
      ⟨Nat.dvd_add hsized.start hdvd, Nat.dvd_sub hsized.size hdvd, by simp only; omega⟩
    obtain ⟨h1, h2⟩ := hi'.takeFront hS rfl (by omega) hn he
    refine ⟨_, _, chunkSizeForData T n, rfl, h1, hkept h2, Or.inl ⟨rfl, fun d hd hsd => ?_⟩⟩
    have := hle d hd hsd
    omega

/-- **`noc_malloc`** on a request that it can serve. -/
theorem nocMalloc_cases (hi : Inv T S h free live) (hr : Request T n) :
    (∃ h', nocMalloc T S n h = some (0, h') ∧ Refused T S h h') ∨
    ∃ h' free' c, nocMalloc T S n h = some (c.start + T.ptrBytes, h') ∧
      Allocated T S (chunkSizeForData T n) h free live h' free' c := by
  rcases hi.nocMalloc_eq hS hr.ne_zero with ⟨h1, h2⟩ | ⟨pre, c, post, h1, h2, -, h3⟩
  · exact nocMalloc_sbrk hS hi hr h1 (h2 S)
  · obtain ⟨h', free', m, h4, h5⟩ := nocMalloc_fit hS hi hr h1 h2 (h3 S)
    exact Or.inr ⟨h', free', ⟨c.start, m⟩, h4, h5⟩

end Contract

end Noc.Malloc
