import Noc.Malloc.Defs

/-! # The free list in memory

`HeadList h v l`: the head of `h` and the nodes in memory spell out the list `l`, and the link after
its last node holds `v`; the free list of a heap is `HeadList h 0 l`. A list is edited at the link
after a front part `pre`, which `linkAfter pre` names:

* `HeadList.splice`: writing that link replaces everything behind it;
* `HeadList.insert`, `HeadList.remove`, `HeadList.resize`: one node more, one less, one with another
  size;
* `HeadList.mergeRight`: the right merge of `noc_free` is `consJoin`.

The walks of the source are followed by `freeLoop_cases` (where `noc_free` stops, in terms of
`insertJoin`) and `chunksFrom_eq`, `memFreeLoop_eq`. -/

namespace Noc.Malloc

open Noc.Lib.Bytes Noc.Lib.Spans Noc.Lib.Spans.Span Noc.Targets

variable {ε : Type} {T : Target}

/-- A span that can be a chunk: not at `NULL`, room for a `struct free_chunk`, no wrapping. -/
structure Fit (T : Target) (c : Span) : Prop where
  pos : 0 < c.start
  min : 2 * T.ptrBytes ≤ c.size
  lt : c.stop < T.space

theorem Fit.size_pos {c : Span} (hc : Fit T c) : 0 < c.size := by
  have h1 := hc.min
  have h2 := T.ptrBytes_bounds
  omega

/-- Two chunks that meet join to one that is a chunk again. -/
theorem Fit.join {c d : Span} (hc : Fit T c) (hd : Fit T d) (h : c.stop = d.start) :
    Fit T (c.join d) where
  pos := hc.pos
  min := by
    have := hc.min
    rw [join_size]; omega
  lt := by
    rw [join_stop h]
    exact hd.lt

/-- The sizes of two chunks that meet add up without wrapping. -/
theorem Fit.add_size_lt {c d : Span} (hd : Fit T d) (h : c.stop = d.start) :
    c.size + d.size < T.space := by
  have := hd.lt
  unfold stop at *; omega

theorem Fit.add_size {c d : Span} (hd : Fit T d) (h : c.stop = d.start) :
    T.add c.size d.size = c.size + d.size :=
  Target.add_of_lt (hd.add_size_lt h)

/-- Chunks in order are fewer than there are addresses. -/
theorem length_lt_space {l : List Span} (hl : Separated l) (hf : ∀ d ∈ l, Fit T d) :
    l.length < T.space := by
  have hspace := T.space_bounds
  have := hl.length_le (b := 1) (e := T.space) fun d hd => by
    have h1 := (hf d hd).pos
    have h2 := (hf d hd).lt
    have h3 := (hf d hd).size_pos
    unfold stop at h2; omega
  omega

/-- The address of the first span, `v` if there is none. -/
def headOr (v : ℕ) : List Span → ℕ
  | [] => v
  | c :: _ => c.start

/-- The spans of `l` are nodes in `m`, linked in order, the last one to `v`. -/
def Nodes (T : Target) (m : Mem) (v : ℕ) : List Span → Prop
  | [] => True
  | c :: l => T.load m c.start = c.size ∧ T.load m (c.start + T.ptrBytes) = headOr v l ∧
      Nodes T m v l

@[simp] theorem headOr_nil (v : ℕ) : headOr v [] = v := rfl

@[simp] theorem headOr_cons (v : ℕ) (c : Span) (l : List Span) : headOr v (c :: l) = c.start := rfl

/-- The list from the head on is `l`, and the link behind it holds `v`. -/
def HeadList (T : Target) (h : Heap ε) (v : ℕ) (l : List Span) : Prop :=
  h.head = headOr v l ∧ Nodes T h.mem v l

/-- The link behind the list `l`. -/
def linkAfter (l : List Span) : Link :=
  match l.getLast? with
  | none => .head
  | some c => .next c.start

@[simp] theorem linkAfter_nil : linkAfter [] = .head := rfl

@[simp] theorem linkAfter_concat (l : List Span) (c : Span) :
    linkAfter (l ++ [c]) = .next c.start := by
  unfold linkAfter; rw [List.getLast?_concat]

theorem headOr_append (v : ℕ) (l l' : List Span) : headOr v (l ++ l') = headOr (headOr v l') l := by
  cases l <;> rfl

theorem nodes_append {m : Mem} {v : ℕ} {l' : List Span} : ∀ {l : List Span},
    Nodes T m v (l ++ l') ↔ Nodes T m (headOr v l') l ∧ Nodes T m v l'
  | [] => by simp [Nodes]
  | c :: l => by
    rw [List.cons_append, Nodes, Nodes, nodes_append, headOr_append, and_assoc, and_assoc]

theorem headList_append {h : Heap ε} {v : ℕ} {l l' : List Span} :
    HeadList T h v (l ++ l') ↔ HeadList T h (headOr v l') l ∧ Nodes T h.mem v l' := by
  unfold HeadList
  rw [headOr_append, nodes_append, and_assoc]

/-- Nodes depend on the first two words of each span only. -/
theorem Nodes.congr {m m' : Mem} {v : ℕ} : ∀ {l : List Span}, Nodes T m v l →
    (∀ c ∈ l, ∀ a, c.start ≤ a → a < c.start + 2 * T.ptrBytes → m' a = m a) → Nodes T m' v l
  | [], _, _ => trivial
  | c :: l, ⟨h1, h2, h3⟩, hm => by
    have hc := hm c (by simp)
    refine ⟨?_, ?_, h3.congr fun d hd => hm d (by simp [hd])⟩
    · rw [Target.load_congr fun a ha hb => hc a ha (by omega)]; exact h1
    · rw [Target.load_congr fun a ha hb => hc a (by omega) (by omega)]; exact h2

theorem HeadList.congr {h h' : Heap ε} {v : ℕ} {l : List Span} (hl : HeadList T h v l)
    (hh : h'.head = h.head)
    (hm : ∀ c ∈ l, ∀ a, c.start ≤ a → a < c.start + 2 * T.ptrBytes → h'.mem a = h.mem a) :
    HeadList T h' v l :=
  ⟨hh.trans hl.1, hl.2.congr hm⟩

/-- A node's size and link. -/
theorem Nodes.at {m : Mem} {v : ℕ} {post : List Span} {c : Span} (pre : List Span)
    (h : Nodes T m v (pre ++ c :: post)) :
    T.load m c.start = c.size ∧ T.load m (c.start + T.ptrBytes) = headOr v post :=
  have h' := (nodes_append.mp h).2
  ⟨h'.1, h'.2.1⟩

theorem Fit.next {c : Span} (hc : Fit T c) : T.add c.start T.ptrBytes = c.start + T.ptrBytes := by
  have h1 := hc.min
  have h2 := hc.lt
  have h3 := T.ptrBytes_bounds
  unfold stop at h2
  exact Target.add_of_lt (by omega)

/-! ### Heap updates -/

section Fields
variable (h : Heap ε) (k : Link) (c n v : ℕ)

@[simp] theorem setSize_head : (h.setSize T c n).head = h.head := rfl
@[simp] theorem setSize_sbrkStart : (h.setSize T c n).sbrkStart = h.sbrkStart := rfl
@[simp] theorem setSize_sbrkEnd : (h.setSize T c n).sbrkEnd = h.sbrkEnd := rfl
@[simp] theorem setSize_env : (h.setSize T c n).env = h.env := rfl
@[simp] theorem setLink_next_head : (h.setLink T (.next c) v).head = h.head := rfl
@[simp] theorem setLink_sbrkStart : (h.setLink T k v).sbrkStart = h.sbrkStart := by cases k <;> rfl
@[simp] theorem setLink_sbrkEnd : (h.setLink T k v).sbrkEnd = h.sbrkEnd := by cases k <;> rfl
@[simp] theorem setLink_env : (h.setLink T k v).env = h.env := by cases k <;> rfl

end Fields

theorem setSize_mem_of_notMem {h : Heap ε} {c n a : ℕ} (ha : a < c ∨ c + T.ptrBytes ≤ a) :
    (h.setSize T c n).mem a = h.mem a := Target.store_of_notMem ha

theorem setLink_next_mem_of_notMem {h : Heap ε} {c : Span} {v a : ℕ} (hc : Fit T c)
    (ha : a < c.start + T.ptrBytes ∨ c.start + 2 * T.ptrBytes ≤ a) :
    (h.setLink T (.next c.start) v).mem a = h.mem a := by
  unfold Heap.setLink
  refine Target.store_of_notMem ?_
  rw [hc.next]; omega

/-- Writing the link behind a list changes only bytes of the list. -/
theorem setLink_after_mem {h : Heap ε} {l : List Span} {v a : ℕ} (hf : ∀ c ∈ l, Fit T c)
    (ha : ¬ Covered l a) : (h.setLink T (linkAfter l) v).mem a = h.mem a := by
  rcases List.eq_nil_or_concat l with rfl | ⟨l, c, rfl⟩
  · rfl
  · rw [List.concat_eq_append] at hf ha ⊢
    have hc := hf c (by simp)
    have hmin := hc.min
    rw [linkAfter_concat]
    refine setLink_next_mem_of_notMem hc ?_
    by_contra hcon
    exact ha ⟨c, by simp, by omega, by unfold stop; omega⟩

/-- The link behind a list holds its last value. -/
theorem HeadList.link_after {h : Heap ε} {v : ℕ} {l : List Span} (hl : HeadList T h v l)
    (hf : ∀ c ∈ l, Fit T c) : h.link T (linkAfter l) = v := by
  rcases List.eq_nil_or_concat l with rfl | ⟨l, c, rfl⟩
  · exact hl.1
  · rw [List.concat_eq_append] at hl hf ⊢
    rw [linkAfter_concat]
    show T.load h.mem (T.add c.start T.ptrBytes) = v
    rw [(hf c (by simp)).next]
    exact (Nodes.at _ hl.2).2

/-- Writing the link behind a list of disjoint spans sets its last value. -/
theorem HeadList.setLink {h : Heap ε} {u v : ℕ} {l : List Span} (hl : HeadList T h u l)
    (hf : ∀ c ∈ l, Fit T c) (hd : l.Pairwise Disj) (hv : v < T.space) :
    HeadList T (h.setLink T (linkAfter l) v) v l := by
  rcases List.eq_nil_or_concat l with rfl | ⟨l, c, rfl⟩
  · exact ⟨rfl, trivial⟩
  · have hc := hf c (by simp)
    have hcmin := hc.min
    rw [List.concat_eq_append] at hl hd hf ⊢
    rw [linkAfter_concat]
    obtain ⟨hpre, hsize, hnext, -⟩ := headList_append.mp hl
    obtain ⟨hd1, -, hd2⟩ := List.pairwise_append.mp hd
    refine headList_append.mpr ⟨hpre.congr rfl fun d hdl a h1 h2 => ?_, ?_, ?_, trivial⟩
    · have hdis := hd2 d hdl c (by simp)
      have hdmin := (hf d (by simp [hdl])).min
      refine setLink_next_mem_of_notMem hc ?_
      unfold Disj stop at hdis; omega
    · show T.load (T.store h.mem (T.add c.start T.ptrBytes) v) c.start = c.size
      rw [hc.next, Target.load_store_of_disj (by omega)]
      exact hsize
    · show T.load (T.store h.mem (T.add c.start T.ptrBytes) v) (c.start + T.ptrBytes) = v
      rw [hc.next, Target.load_store hv]

theorem headOr_lt {v : ℕ} {l : List Span} (hf : ∀ c ∈ l, Fit T c) (hv : v < T.space) :
    headOr v l < T.space := by
  cases l with
  | nil => exact hv
  | cons c l =>
    have := (hf c (by simp)).lt
    unfold stop at this
    show c.start < _; omega

/-- `h'` differs from `h` at most in the head of the list and in bytes covered by `l`. -/
structure Frame (l : List Span) (h h' : Heap ε) : Prop where
  mem : ∀ a, ¬ Covered l a → h'.mem a = h.mem a
  sbrkStart : h'.sbrkStart = h.sbrkStart
  sbrkEnd : h'.sbrkEnd = h.sbrkEnd
  env : h'.env = h.env
  errno : h'.errno = h.errno

namespace Frame
variable {l l' : List Span} {h h' h'' : Heap ε}

theorem refl (l : List Span) (h : Heap ε) : Frame l h h := ⟨fun _ _ => rfl, rfl, rfl, rfl, rfl⟩

theorem trans (h1 : Frame l h h') (h2 : Frame l h' h'') : Frame l h h'' where
  mem a ha := (h2.mem a ha).trans (h1.mem a ha)
  sbrkStart := h2.sbrkStart.trans h1.sbrkStart
  sbrkEnd := h2.sbrkEnd.trans h1.sbrkEnd
  env := h2.env.trans h1.env
  errno := h2.errno.trans h1.errno

theorem mono (hl : ∀ a, Covered l a → Covered l' a) (h1 : Frame l h h') : Frame l' h h' :=
  { h1 with mem := fun a ha => h1.mem a fun hc => ha (hl a hc) }

/-- A disjoint span keeps its bytes. -/
theorem bytes (h1 : Frame l h h') {d : Span} (hd : ∀ c ∈ l, c.Disj d) {a : ℕ} (ha : d.start ≤ a)
    (hb : a < d.stop) : h'.mem a = h.mem a :=
  h1.mem a (not_covered_of_disj hd ha hb)

theorem setSize {c : Span} {n : ℕ} (hc : T.ptrBytes ≤ c.size) :
    Frame [c] h (h.setSize T c.start n) := by
  refine ⟨fun a ha => setSize_mem_of_notMem ?_, rfl, rfl, rfl, rfl⟩
  simp only [covered_cons, not_covered_nil, or_false, stop] at ha
  omega

theorem setLink_next {c : Span} {v : ℕ} (hc : Fit T c) :
    Frame [c] h (h.setLink T (.next c.start) v) := by
  have hmin := hc.min
  refine ⟨fun a ha => setLink_next_mem_of_notMem hc ?_, rfl, rfl, rfl, rfl⟩
  simp only [covered_cons, not_covered_nil, or_false, stop] at ha
  omega

theorem setLink_after {v : ℕ} (hf : ∀ c ∈ l, Fit T c) :
    Frame l h (h.setLink T (linkAfter l) v) := by
  refine ⟨fun a ha => setLink_after_mem hf ha, ?_, ?_, ?_, ?_⟩ <;> cases linkAfter l <;> rfl

/-- A disjoint chunk keeps its header. -/
theorem size_eq (h1 : Frame l h h') {d : Span} (hd : ∀ c ∈ l, c.Disj d)
    (hmin : T.ptrBytes ≤ d.size) : h'.size T d.start = h.size T d.start :=
  Target.load_congr fun a ha hb => h1.bytes hd ha (by unfold stop; omega)

/-- Disjoint nodes stay a list. -/
theorem nodes (h1 : Frame l h h') {v : ℕ} {l' : List Span} (hl : Nodes T h.mem v l')
    (hf : ∀ d ∈ l', Fit T d) (hd : ∀ d ∈ l', ∀ c ∈ l, c.Disj d) : Nodes T h'.mem v l' :=
  hl.congr fun d hdl a ha hb => by
    have hmin := (hf d hdl).min
    exact h1.bytes (hd d hdl) ha (by unfold stop; omega)

/-- **The frame rule of the list**: its nodes are disjoint from what is written, and so it stays. -/
theorem headList (h1 : Frame l h h') {v : ℕ} {l' : List Span} (hl : HeadList T h v l')
    (hh : h'.head = h.head) (hf : ∀ d ∈ l', Fit T d) (hd : ∀ d ∈ l', ∀ c ∈ l, c.Disj d) :
    HeadList T h' v l' :=
  ⟨hh.trans hl.1, h1.nodes hl.2 hf hd⟩

end Frame

/-! ### Edits of the list -/

section Edit
variable {h : Heap ε} {pre post : List Span} {c : Span}

/-- **Writing the link behind `pre`** replaces what follows it by the nodes of `post`. -/
theorem HeadList.splice {u v : ℕ} (hl : HeadList T h u pre) (hp : Nodes T h.mem v post)
    (hf : ∀ d ∈ pre ++ post, Fit T d) (hd : (pre ++ post).Pairwise Disj) (hv : v < T.space) :
    HeadList T (h.setLink T (linkAfter pre) (headOr v post)) v (pre ++ post) := by
  obtain ⟨hd1, -, hd2⟩ := List.pairwise_append.mp hd
  have hfpre : ∀ d ∈ pre, Fit T d := fun d hd => hf d (by simp [hd])
  have hfpost : ∀ d ∈ post, Fit T d := fun d hd => hf d (by simp [hd])
  refine headList_append.mpr ⟨hl.setLink hfpre hd1 (headOr_lt hfpost hv), ?_⟩
  exact (Frame.setLink_after hfpre).nodes hp hfpost fun d hdp x hx => hd2 x hx d hdp

/-- A new node between `pre` and `post`, whatever followed `pre` before. -/
theorem HeadList.insert {u : ℕ} (hpre : HeadList T h u pre) (hpost : Nodes T h.mem 0 post)
    (hs : h.size T c.start = c.size) (hf : ∀ d ∈ pre ++ c :: post, Fit T d)
    (hd : (pre ++ c :: post).Pairwise Disj) :
    HeadList T ((h.setLink T (.next c.start) (headOr 0 post)).setLink T (linkAfter pre) c.start) 0
      (pre ++ c :: post) := by
  have hc := hf c (by simp)
  have hspace := T.space_bounds
  obtain ⟨-, hd1, hd2⟩ := List.pairwise_append.mp hd
  have hd1 := (List.pairwise_cons.mp hd1).1
  -- the link of `c` is written inside `c`, away from all nodes
  have hfr : Frame [c] h (h.setLink T (.next c.start) (headOr 0 post)) := Frame.setLink_next hc
  have hfpost : ∀ d ∈ post, Fit T d := fun d hd => hf d (by simp [hd])
  have hpre' : HeadList T (h.setLink T (.next c.start) (headOr 0 post)) u pre :=
    hfr.headList hpre rfl (fun d hdp => hf d (by simp [hdp])) fun d hdp =>
      List.forall_mem_singleton.mpr (hd2 d hdp c (by simp)).symm
  have hnodes : Nodes T (h.setLink T (.next c.start) (headOr 0 post)).mem 0 (c :: post) := by
    refine ⟨?_, ?_, ?_⟩
    · refine Eq.trans (Target.load_congr fun a h1 h2 => ?_) hs
      exact setLink_next_mem_of_notMem hc (by omega)
    · show T.load (T.store h.mem (T.add c.start T.ptrBytes) _) _ = _
      rw [hc.next, Target.load_store (headOr_lt hfpost (by omega))]
    · exact hfr.nodes hpost hfpost fun d hdp => List.forall_mem_singleton.mpr (hd1 d hdp)
  exact HeadList.splice hpre' hnodes hf hd (by omega)

/-- A node taken out. -/
theorem HeadList.remove (hl : HeadList T h 0 (pre ++ c :: post))
    (hf : ∀ d ∈ pre ++ c :: post, Fit T d) (hd : (pre ++ c :: post).Pairwise Disj) :
    HeadList T (h.setLink T (linkAfter pre) (headOr 0 post)) 0 (pre ++ post) := by
  have hspace := T.space_bounds
  obtain ⟨hpre, hpost⟩ := headList_append.mp hl
  have hsub := sublist_middle pre post c
  exact hpre.splice hpost.2.2 (fun d hd => hf d (hsub.subset hd)) (hd.sublist hsub) (by omega)

/-- A node with another size. -/
theorem HeadList.resize {n : ℕ} (hl : HeadList T h 0 (pre ++ c :: post)) (hn : n < T.space)
    (hf : ∀ d ∈ pre ++ c :: post, Fit T d) (hd : (pre ++ c :: post).Pairwise Disj) :
    HeadList T (h.setSize T c.start n) 0 (pre ++ ⟨c.start, n⟩ :: post) := by
  have hc := hf c (by simp)
  have hcmin := hc.min
  obtain ⟨hpre, -, hnext, hpost⟩ := headList_append.mp hl
  obtain ⟨-, hd1, hd2⟩ := List.pairwise_append.mp hd
  have hd1 := (List.pairwise_cons.mp hd1).1
  have hfr : Frame [c] h (h.setSize T c.start n) := Frame.setSize (by omega)
  refine headList_append.mpr ⟨?_, ?_, ?_, ?_⟩
  · exact hfr.headList hpre rfl (fun d hdp => hf d (by simp [hdp])) fun d hdp =>
      List.forall_mem_singleton.mpr (hd2 d hdp c (by simp)).symm
  · exact Target.load_store hn
  · refine Eq.trans (Target.load_store_of_disj ?_) hnext
    right; exact le_rfl
  · exact hfr.nodes hpost (fun d hdp => hf d (by simp [hdp])) fun d hdp =>
      List.forall_mem_singleton.mpr (hd1 d hdp)

theorem chunkEnd_eq (hc : Fit T c) (hs : h.size T c.start = c.size) :
    chunkEnd T h c.start = c.stop := by
  unfold chunkEnd
  rw [hs]
  exact Target.add_of_lt hc.lt

/-- **The right merge of `noc_free`.** -/
theorem HeadList.mergeRight (hl : HeadList T h 0 (pre ++ c :: post))
    (hf : ∀ d ∈ pre ++ c :: post, Fit T d) (hd : (pre ++ c :: post).Pairwise Disj) :
    HeadList T (mergeRight T h c.start (headOr 0 post)) 0 (pre ++ consJoin c post) ∧
      Frame [c] h (mergeRight T h c.start (headOr 0 post)) := by
  have hc := hf c (by simp)
  have hcmin := hc.min
  have hcsize : h.size T c.start = c.size := (Nodes.at _ hl.2).1
  unfold Noc.Malloc.mergeRight
  rw [chunkEnd_eq hc hcsize]
  cases post with
  | nil =>
    have hne : c.stop ≠ headOr 0 [] := by
      have := hc.pos
      show c.stop ≠ 0
      unfold stop; omega
    rw [if_neg hne]
    exact ⟨hl, Frame.refl _ _⟩
  | cons n post =>
    rw [consJoin, headOr_cons]
    by_cases hcn : c.stop = n.start
    swap
    · rw [if_neg hcn, if_neg hcn]
      exact ⟨hl, Frame.refl _ _⟩
    have hn := hf n (by simp)
    have hnsize : h.size T n.start = n.size :=
      (Nodes.at (pre ++ [c]) (by simpa using hl.2)).1
    have hnnext : T.load h.mem (n.start + T.ptrBytes) = headOr 0 post :=
      (Nodes.at (pre ++ [c]) (by simpa using hl.2)).2
    rw [if_pos hcn, if_pos hcn]
    -- the chunk takes both sizes, then its link skips the neighbour
    have h1 : HeadList T (h.setSize T c.start (c.size + n.size)) 0
        (pre ++ c.join n :: n :: post) :=
      hl.resize (hn.add_size_lt hcn) hf hd
    have hlink : (h.setSize T c.start (c.size + n.size)).link T (.next n.start) =
        headOr 0 post := by
      show T.load _ (T.add n.start T.ptrBytes) = _
      rw [hn.next]
      refine Eq.trans (Target.load_store_of_disj ?_) hnnext
      unfold stop at *; omega
    have hjoin : Fit T (c.join n) := hc.join hn hcn
    show HeadList T ((h.setSize T c.start (T.add (h.size T c.start) (h.size T n.start))).setLink T
      (.next c.start) ((h.setSize T c.start _).link T (.next n.start))) 0 _ ∧
      Frame [c] h ((h.setSize T c.start (T.add (h.size T c.start) (h.size T n.start))).setLink T
      (.next c.start) ((h.setSize T c.start _).link T (.next n.start)))
    rw [hcsize, hnsize, hn.add_size hcn, hlink]
    refine ⟨?_, (Frame.setSize (by omega)).trans (Frame.setLink_next hc)⟩
    obtain ⟨hpre, hrest⟩ := headList_append.mp h1
    have hpre' : HeadList T (h.setSize T c.start (c.size + n.size)) n.start (pre ++ [c.join n]) :=
      headList_append.mpr ⟨hpre, hrest.1, hrest.2.1, trivial⟩
    have hsub := pairwise_disj_join hcn (fun x hx => (hf x ?_).size_pos) hd
    have h2 := hpre'.splice hrest.2.2.2.2 (fun d hdp => ?_) (by simpa using hsub)
      (by have := T.space_bounds; omega)
    · rw [linkAfter_concat, List.append_assoc] at h2
      exact h2
    · simp only [List.mem_append, List.mem_cons, List.not_mem_nil, or_false] at hdp
      rcases hdp with (hdp | rfl) | hdp
      · exact hf d (by simp [hdp])
      · exact hjoin
      · exact hf d (by simp [hdp])
    · rcases List.mem_append.mp hx with hx | hx <;> simp [hx]

end Edit

/-! ### Walks -/

section Walk
variable {h : Heap ε}

/-- The link behind a front part leads to what follows. -/
theorem HeadList.link_eq {pre post : List Span} (hl : HeadList T h 0 (pre ++ post))
    (hf : ∀ d ∈ pre ++ post, Fit T d) : h.link T (linkAfter pre) = headOr 0 post :=
  (headList_append.mp hl).1.link_after fun d hd => hf d (by simp [hd])

theorem HeadList.size_eq {pre post : List Span} {c : Span}
    (hl : HeadList T h 0 (pre ++ c :: post)) :
    h.size T c.start = c.size := (Nodes.at _ hl.2).1

theorem HeadList.next_eq {pre post : List Span} {c : Span} (hl : HeadList T h 0 (pre ++ c :: post))
    (hc : Fit T c) : h.link T (.next c.start) = headOr 0 post := by
  show T.load h.mem (T.add c.start T.ptrBytes) = _
  rw [hc.next]
  exact (Nodes.at _ hl.2).2

theorem chunksFrom_eq : ∀ {fuel : ℕ} (pre post : List Span), HeadList T h 0 (pre ++ post) →
    (∀ d ∈ pre ++ post, Fit T d) → post.length < fuel →
      chunksFrom T h fuel (linkAfter pre) = some post
  | fuel + 1, pre, [], hl, hf, _ => by
    rw [chunksFrom, hl.link_eq hf]; rfl
  | fuel + 1, pre, c :: post, hl, hf, hlen => by
    have hpos := (hf c (by simp)).pos
    have ih := chunksFrom_eq (pre ++ [c]) post (by simpa using hl)
      (by simpa using hf) (by simpa using hlen)
    rw [linkAfter_concat] at ih
    rw [chunksFrom, hl.link_eq hf, headOr_cons, if_neg (by omega), ih, hl.size_eq]
    rfl

/-- **The walk over the free list finds its chunks.** -/
theorem HeadList.freeChunks_eq {l : List Span} (hl : HeadList T h 0 l) (hf : ∀ d ∈ l, Fit T d)
    (hlen : l.length < T.space) : freeChunks T h = some l :=
  chunksFrom_eq [] l hl hf hlen

theorem memFreeLoop_eq : ∀ {fuel : ℕ} (count : ℕ) (pre post : List Span),
    HeadList T h 0 (pre ++ post) → (∀ d ∈ pre ++ post, Fit T d) → post.length < fuel →
      count + total post < T.space →
      memFreeLoop T h fuel (headOr 0 post) count = some (count + total post)
  | _ + 1, _, _, [], _, _, _, _ => by simp [memFreeLoop, total]
  | fuel + 1, count, pre, c :: post, hl, hf, hlen, hsum => by
    have hpos := (hf c (by simp)).pos
    have htot : total (c :: post) = c.size + total post := by simp [total]
    have ih := memFreeLoop_eq (count + c.size) (pre ++ [c]) post (by simpa using hl)
      (by simpa using hf) (by simpa using hlen) (by omega)
    rw [memFreeLoop, headOr_cons, if_neg (by omega), hl.next_eq (hf c (by simp)), hl.size_eq,
      Target.add_of_lt (by omega), ih, htot, Nat.add_assoc]

/-- **Where the walk of `noc_free` stops**, in terms of `insertJoin`: at the chunk to merge with on
the left, or at the link where the freed chunk goes. -/
theorem freeLoop_cases {c : Span} : ∀ {fuel : ℕ} (pre post : List Span),
    HeadList T h 0 (pre ++ post) → (∀ d ∈ pre ++ post, Fit T d) → post.length < fuel →
      (∃ lo p hi, post = lo ++ p :: hi ∧ p.stop = c.start ∧
        freeLoop T h c.start fuel (linkAfter pre) = some (.left p.start) ∧
        insertJoin c post = lo ++ consJoin (p.join c) hi) ∨
      (∃ lo hi, post = lo ++ hi ∧
        freeLoop T h c.start fuel (linkAfter pre) =
          some (.insert (linkAfter (pre ++ lo)) (headOr 0 hi)) ∧
        insertJoin c post = lo ++ consJoin c hi)
  | fuel + 1, pre, [], hl, hf, _ => by
    right
    refine ⟨[], [], rfl, ?_, rfl⟩
    rw [freeLoop, hl.link_eq hf, List.append_nil]
    rfl
  | fuel + 1, pre, p :: post, hl, hf, hlen => by
    have hp := hf p (by simp)
    have hpos := hp.pos
    have hloop : freeLoop T h c.start (fuel + 1) (linkAfter pre) =
        if p.start < c.start then
          if p.stop = c.start then some (.left p.start)
          else freeLoop T h c.start fuel (.next p.start)
        else some (.insert (linkAfter pre) p.start) := by
      rw [freeLoop, hl.link_eq hf, headOr_cons, chunkEnd_eq hp hl.size_eq]
      by_cases hlt : p.start < c.start
      · rw [if_pos ⟨by omega, hlt⟩, if_pos hlt, if_neg (show ¬ c.start = p.start by omega)]
      · rw [if_neg (fun h => hlt h.2), if_neg hlt]
    rw [hloop, insertJoin]
    by_cases hlt : p.start < c.start
    swap
    · right
      rw [if_neg hlt, if_neg hlt]
      exact ⟨[], p :: post, rfl, by rw [List.append_nil]; rfl, rfl⟩
    rw [if_pos hlt, if_pos hlt]
    by_cases hadj : p.stop = c.start
    · left
      rw [if_pos hadj, if_pos hadj]
      exact ⟨[], p, post, rfl, hadj, rfl, rfl⟩
    · rw [if_neg hadj, if_neg hadj]
      have ih := freeLoop_cases (c := c) (pre ++ [p]) post
        (by simpa using hl) (by simpa using hf) (by simpa using hlen)
      rw [linkAfter_concat] at ih
      rcases ih with ⟨lo, q, hi, rfl, h1, h2, h3⟩ | ⟨lo, hi, rfl, h2, h3⟩
      · left
        exact ⟨p :: lo, q, hi, rfl, h1, h2, by rw [h3]; rfl⟩
      · right
        refine ⟨p :: lo, hi, rfl, ?_, by rw [h3]; rfl⟩
        rw [h2, List.append_assoc]
        rfl

end Walk

/-! ### `noc_free` -/

theorem chunkFromData_eq {c : Span} (hc : Fit T c) :
    chunkFromData T (c.start + T.ptrBytes) = c.start := by
  have h1 := hc.min
  have h2 := hc.lt
  unfold stop at h2
  unfold chunkFromData
  rw [Target.sub_of_le (by omega) (by omega), Nat.add_sub_cancel]

/-- **`noc_free` inserts the chunk** into a separated list it is disjoint from, joined with its
neighbours, and touches only the bytes of the chunk and of free chunks. -/
theorem nocFree_eq {h : Heap ε} {l : List Span} {c : Span} (hl : HeadList T h 0 l)
    (hf : ∀ d ∈ c :: l, Fit T d) (hsep : Separated l) (hdis : ∀ d ∈ l, d.Disj c)
    (hs : h.size T c.start = c.size) (hlo : h.sbrkStart ≤ c.start) (hhi : c.stop ≤ h.sbrkEnd) :
    ∃ h', nocFree T (c.start + T.ptrBytes) h = some h' ∧ HeadList T h' 0 (insertJoin c l) ∧
      Frame (c :: l) h h' := by
  obtain ⟨hc, hfl⟩ := List.forall_mem_cons.mp hf
  have hcmin := hc.min
  have hw := T.ptrBytes_bounds
  have hspace := T.space_bounds
  have hlen := length_lt_space hsep hfl
  -- the store of `NULL` into the freed chunk is invisible to the list
  have hfr1 : Frame [c] h (h.setLink T (.next c.start) 0) := Frame.setLink_next hc
  have hl1 : HeadList T (h.setLink T (.next c.start) 0) 0 l :=
    hfr1.headList hl rfl hfl fun d hd => List.forall_mem_singleton.mpr (hdis d hd).symm
  have hs1 : (h.setLink T (.next c.start) 0).size T c.start = c.size := by
    refine Eq.trans (Target.load_congr fun a h1 h2 => ?_) hs
    exact setLink_next_mem_of_notMem hc (by omega)
  have hsub : ∀ a, Covered [c] a → Covered (c :: l) a := fun a ha => by simp_all
  unfold nocFree
  rw [if_neg (by unfold stop at hhi; omega), chunkFromData_eq hc]
  dsimp only
  rw [chunkEnd_eq hc hs, if_neg (by omega)]
  generalize h.setLink T (.next c.start) 0 = h1 at hl1 hfr1 hs1
  rcases freeLoop_cases (c := c) [] l hl1 hfl hlen with
    ⟨lo, p, hi, rfl, hadj, hloop, hins⟩ | ⟨lo, hi, rfl, hloop, hins⟩
  · -- left merge: the free chunk `p` takes the size of `c`
    rw [linkAfter_nil] at hloop
    rw [hloop, hins]
    dsimp only
    have hp := hfl p (by simp)
    have hps := hl1.size_eq
    have hjoin : Fit T (p.join c) := hp.join hc hadj
    rw [hps, hs1, hc.add_size hadj]
    have hl2 : HeadList T (h1.setSize T p.start (p.size + c.size)) 0 (lo ++ p.join c :: hi) :=
      hl1.resize (hc.add_size_lt hadj) hfl hsep.disj
    have hpos : ∀ x ∈ lo ++ hi, 0 < x.size := fun x hx => (hfl x (by
      rcases List.mem_append.mp hx with hx | hx <;> simp [hx])).size_pos
    have hd2 : (lo ++ p.join c :: hi).Pairwise Disj := by
      refine pairwise_disj_join hadj hpos ?_
      have hd1 : (lo ++ [p] ++ c :: hi).Pairwise Disj :=
        pairwise_disj_insert (by simpa using hsep.disj) (by simpa using hdis)
      simpa using hd1
    have hf2 : ∀ d ∈ lo ++ p.join c :: hi, Fit T d :=
      forall_mem_insert hjoin fun d hd => hfl d (by
        rcases List.mem_append.mp hd with hd | hd <;> simp [hd])
    have hnext : (h1.setSize T p.start (p.size + c.size)).link T (.next p.start) = headOr 0 hi :=
      hl2.next_eq hjoin
    rw [hnext]
    obtain ⟨h3, h4⟩ := hl2.mergeRight hf2 hd2
    refine ⟨_, rfl, h3, (hfr1.mono hsub).trans (Frame.trans ?_ (h4.mono ?_))⟩
    · refine (Frame.setSize (c := p) (by have := hp.min; omega)).mono fun a ha => ?_
      simp only [covered_cons, covered_append, not_covered_nil, or_false] at ha ⊢
      tauto
    · intro a ha
      rw [covered_cons, covered_join hadj] at ha
      simp only [covered_cons, covered_append, not_covered_nil, or_false] at ha ⊢
      tauto
  · -- no chunk ends at `c`: a new node between `lo` and `hi`
    rw [linkAfter_nil] at hloop
    rw [hloop, hins, List.nil_append]
    dsimp only
    have hf2 : ∀ d ∈ lo ++ c :: hi, Fit T d := forall_mem_insert hc hfl
    have hd2 : (lo ++ c :: hi).Pairwise Disj := pairwise_disj_insert hsep.disj hdis
    obtain ⟨hl3, hl4⟩ := headList_append.mp hl1
    have hl2 := hl3.insert hl4 hs1 hf2 hd2
    obtain ⟨h3, h4⟩ := hl2.mergeRight hf2 hd2
    have h5 : Frame [c] h1 (h1.setLink T (.next c.start) (headOr 0 hi)) := Frame.setLink_next hc
    have h6 := Frame.setLink_after (h := h1.setLink T (.next c.start) (headOr 0 hi))
      (v := c.start) fun d hd => hfl d (List.mem_append_left hi hd)
    refine ⟨_, rfl, h3, (((hfr1.trans h5).mono hsub).trans (h6.mono fun a ha => ?_)).trans
      (h4.mono hsub)⟩
    rw [covered_cons, covered_append]; tauto

end Noc.Malloc
