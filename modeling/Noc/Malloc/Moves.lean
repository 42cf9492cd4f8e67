import Noc.Malloc.Invariant

/-! # Moves that keep the heap invariant

One lemma for each way the allocator rearranges chunks: an allocated chunk is freed (`Inv.release`)
or split (`Inv.split`); a free chunk is allocated whole (`Inv.take`) or its front is
(`Inv.takeFront`); an allocated chunk swallows the free chunk before it (`Inv.joinLeft`) or behind
it (`Inv.joinRight`); and a client writes to its block (`Inv.write`). -/

namespace Noc.Malloc

open Noc.Lib.Bytes Noc.Lib.Spans Noc.Lib.Spans.Span Noc.Targets Noc.Unistd
open Noc.Memcpy

variable {ε : Type} {T : Target} {S : Sbrk ε} {h h' : Heap ε}
variable {free rest pre post : List Span} {c d : Span}

/-- The bytes of all spans in `l` are the same. -/
def Kept (l : List Span) (h h' : Heap ε) : Prop :=
  ∀ d ∈ l, ∀ a, d.start ≤ a → a < d.stop → h'.mem a = h.mem a

theorem Kept.trans {l : List Span} {h'' : Heap ε} (h1 : Kept l h h') (h2 : Kept l h' h'') :
    Kept l h h'' := fun d hd a ha hb => (h2 d hd a ha hb).trans (h1 d hd a ha hb)

/-! ### Allocated nodes -/

section Edit
variable (hl : HeadList T h 0 (pre ++ c :: post)) (hf : ∀ d ∈ pre ++ c :: post, Fit T d)
variable (hd : (pre ++ c :: post).Pairwise Disj)
include hl hf hd

/-- A node taken out, with a new header. -/
theorem HeadList.take (n : ℕ) :
    HeadList T ((h.setLink T (linkAfter pre) (headOr 0 post)).setSize T c.start n) 0 (pre ++ post) ∧
      Frame (pre ++ c :: post) h
        ((h.setLink T (linkAfter pre) (headOr 0 post)).setSize T c.start n) := by
  have hw := T.ptrBytes_bounds
  have hcmin := (hf c (by simp)).min
  have hother := disj_of_middle hd
  have hfr1 : Frame pre h (h.setLink T (linkAfter pre) (headOr 0 post)) :=
    Frame.setLink_after fun d hd => hf d (by simp [hd])
  have hfr2 : Frame [c] (h.setLink T (linkAfter pre) (headOr 0 post))
      ((h.setLink T (linkAfter pre) (headOr 0 post)).setSize T c.start n) :=
    Frame.setSize (by omega)
  have hsub := sublist_middle pre post c
  refine ⟨hfr2.headList (hl.remove hf hd) rfl (fun x hx => hf x (hsub.subset hx)) fun x hx =>
    List.forall_mem_singleton.mpr (hother x hx).symm, (hfr1.mono fun a ha => ?_).trans
    (hfr2.mono fun a ha => ?_)⟩
  · rw [covered_append]; exact Or.inl ha
  · rw [covered_append, covered_cons]; simp_all

/-- A node whose front is taken out, with a header of its own: the rest takes its place. -/
theorem HeadList.takeFront {n extra o : ℕ} (ho : o = c.start + n) (hsize : c.size = n + extra)
    (hn : T.ptrBytes ≤ n) (he : 2 * T.ptrBytes ≤ extra) :
    HeadList T ((((h.setSize T o extra).setLink T (.next o) (headOr 0 post)).setLink T
        (linkAfter pre) o).setSize T c.start n) 0 (pre ++ ⟨o, extra⟩ :: post) ∧
      Frame (pre ++ c :: post) h ((((h.setSize T o extra).setLink T (.next o)
        (headOr 0 post)).setLink T (linkAfter pre) o).setSize T c.start n) := by
  have hw := T.ptrBytes_bounds
  have hc := hf c (by simp)
  have hcpos := hc.pos
  have hclt := hc.lt
  unfold stop at hclt
  obtain ⟨hd', hnfree⟩ := pairwise_disj_split hd hsize
  rw [← ho] at hd' hnfree
  have hofit : Fit T ⟨o, extra⟩ :=
    ⟨by simp only; omega, he, by simp only [stop_mk]; omega⟩
  have hsub : ∀ x ∈ pre ++ post, x ∈ pre ++ c :: post := fun x hx =>
    (sublist_middle pre post c).subset hx
  have hothero := disj_of_middle hd'
  have hf' : ∀ x ∈ pre ++ ⟨o, extra⟩ :: post, Fit T x :=
    forall_mem_insert hofit fun x hx => hf x (hsub x hx)
  -- the three writes before the last, then the header of the front
  have hfr1 : Frame [⟨o, extra⟩] h (h.setSize T o extra) :=
    Frame.setSize (T := T) (c := ⟨o, extra⟩) (by simp only; omega)
  have hnode : ∀ {v : ℕ} {l : List Span}, Nodes T h.mem v l → (∀ x ∈ l, x ∈ pre ++ post) →
      Nodes T (h.setSize T o extra).mem v l := fun hl hx =>
    hfr1.nodes hl (fun x hxl => hf x (hsub x (hx x hxl))) fun x hxl =>
      List.forall_mem_singleton.mpr (hothero x (hx x hxl)).symm
  obtain ⟨hpre, hpost⟩ := headList_append.mp hl
  have hl3 := HeadList.insert (h := h.setSize T o extra) (c := ⟨o, extra⟩)
    (u := headOr 0 (c :: post)) ⟨hpre.1, hnode hpre.2 fun x hx => by simp [hx]⟩
    (hnode hpost.2.2 fun x hx => by simp [hx]) (Target.load_store (by omega)) hf' hd'
  have hfr2 : Frame [⟨o, extra⟩] (h.setSize T o extra)
      ((h.setSize T o extra).setLink T (.next o) (headOr 0 post)) := Frame.setLink_next hofit
  have hfr3 : Frame pre ((h.setSize T o extra).setLink T (.next o) (headOr 0 post))
      (((h.setSize T o extra).setLink T (.next o) (headOr 0 post)).setLink T (linkAfter pre) o) :=
    Frame.setLink_after fun d hd => hf d (by simp [hd])
  simp only at hl3
  generalize ((h.setSize T o extra).setLink T (.next o) (headOr 0 post)) = h2 at hl3 hfr2 hfr3 ⊢
  generalize h2.setLink T (linkAfter pre) o = h3 at hl3 hfr3 ⊢
  have hfr4 : Frame [⟨c.start, n⟩] h3 (h3.setSize T c.start n) :=
    Frame.setSize (T := T) (c := ⟨c.start, n⟩) hn
  refine ⟨hfr4.headList hl3 rfl hf' fun x hx => List.forall_mem_singleton.mpr (hnfree x hx).symm,
    (((hfr1.trans hfr2).mono fun a ha => ?_).trans
    (hfr3.mono fun a ha => ?_)).trans (hfr4.mono fun a ha => ?_)⟩
  · simp only [covered_cons, not_covered_nil, or_false, covered_append, stop] at ha ⊢
    omega
  · rw [covered_append]; exact Or.inl ha
  · simp only [covered_cons, not_covered_nil, or_false, covered_append, stop] at ha ⊢
    omega

end Edit

namespace Inv

/-- What stays inside the free chunks and the chunks `old` keeps the other allocated chunks. -/
theorem kept (old : List Span) (hi : Inv T S h free (old ++ rest))
    (hfr : Frame (free ++ old) h h') : Kept rest h h' := by
  refine fun d hd a ha hb => hfr.bytes (d := d) (fun x hx => ?_) ha hb
  rcases List.mem_append.mp hx with hx | hx
  · exact hi.free_live x hx d (by simp [hd])
  · exact (List.pairwise_append.mp hi.live_disj).2.2 x hx d hd

/-- The first allocated chunk is disjoint from the free ones. -/
theorem free_disj (hi : Inv T S h free (c :: rest)) : ∀ x ∈ free, x.Disj c :=
  fun x hx => hi.free_live x hx c (by simp)

/-- The first allocated chunk is disjoint from the others. -/
theorem disj_rest (hi : Inv T S h free (c :: rest)) : ∀ d ∈ rest, c.Disj d :=
  (List.pairwise_cons.mp hi.live_disj).1

/-- To free the first allocated chunk keeps the others. -/
theorem kept_rest (hi : Inv T S h free (c :: rest)) (hfr : Frame (c :: free) h h') :
    Kept rest h h' := by
  refine fun d hd a ha hb => hfr.bytes (d := d) (fun x hx => ?_) ha hb
  rcases List.mem_cons.mp hx with rfl | hx
  · exact hi.disj_rest d hd
  · exact hi.free_live x hx d (by simp [hd])

section Contract
variable (hS : Contract T S)
include hS

/-- **Freeing** an allocated chunk. -/
theorem release (hi : Inv T S h free (c :: rest)) :
    ∃ h', nocFree T (c.start + T.ptrBytes) h = some h' ∧ Inv T S h' (insertJoin c free) rest ∧
      Frame (c :: free) h h' := by
  have hc : c ∈ free ++ c :: rest := by simp
  have hfit : ∀ x ∈ c :: free, Fit T x :=
    List.forall_mem_cons.mpr ⟨hi.fit hS hc, hi.fit_free hS⟩
  have hcin := hi.inside c hc
  obtain ⟨h', h1, h2, h3⟩ := nocFree_eq hi.list hfit hi.separated hi.free_disj
    (hi.header c (by simp)) hcin.lo hcin.hi
  have hsized : ∀ x ∈ insertJoin c free ++ [], Sized T x := by
    rw [List.append_nil]
    exact forall_insertJoin (fun x y hx hy _ => hx.join hy) (hi.sized c hc)
      fun x hx => hi.sized x (by simp [hx])
  refine ⟨h', h1, ?_, h3⟩
  refine hi.change [c] [] ?_ (fun a => ?_) h2 ?_ (by simp) hsized
    List.Pairwise.nil (by simp)
  · refine h3.mono fun a ha => ?_
    rw [covered_cons] at ha
    rw [covered_append, covered_cons]; tauto
  · rw [List.append_nil, covered_insertJoin, covered_append, covered_cons]
    simp only [not_covered_nil, or_false]; tauto
  · exact separated_insertJoin (hi.fit hS hc).size_pos hi.separated hi.free_disj
      fun x hx => (hi.fit_free hS x hx).size_pos

/-- **Splitting** an allocated chunk into two. -/
theorem split (hi : Inv T S h free (c :: rest)) {a b : ℕ} (hab : c.size = a + b)
    (ha : Sized T ⟨c.start, a⟩) (hb : Sized T ⟨c.start + a, b⟩) :
    Inv T S ((h.setSize T c.start a).setSize T (c.start + a) b) free
        (⟨c.start + a, b⟩ :: ⟨c.start, a⟩ :: rest) ∧
      Frame [c] h ((h.setSize T c.start a).setSize T (c.start + a) b) := by
  have hw := T.ptrBytes_bounds
  have hlt := (hi.fit hS (show c ∈ free ++ c :: rest by simp)).lt
  have hamin := ha.min
  have hbmin := hb.min
  unfold mallocMinSize at hamin hbmin
  simp only at hamin hbmin
  unfold stop at hlt
  have hfr : Frame [c] h ((h.setSize T c.start a).setSize T (c.start + a) b) := by
    refine (Frame.setSize (T := T) (n := a) (by omega)).trans ?_
    refine (Frame.setSize (T := T) (c := ⟨c.start + a, b⟩) (by simp only; omega)).mono
      fun x hx => ?_
    simp only [covered_cons, not_covered_nil, or_false, stop] at hx ⊢
    omega
  have hlist : HeadList T ((h.setSize T c.start a).setSize T (c.start + a) b) 0 free :=
    hfr.headList hi.list rfl (hi.fit_free hS) fun x hx =>
      List.forall_mem_singleton.mpr (hi.free_disj x hx).symm
  refine ⟨?_, hfr⟩
  refine hi.change [c] [⟨c.start + a, b⟩, ⟨c.start, a⟩]
    (hfr.mono fun x hx => by rw [covered_append]; exact Or.inr hx) (fun x => ?_)
    hlist hi.separated ?_ ?_ ?_ ?_
  · simp only [covered_append, covered_cons, not_covered_nil, or_false, stop]
    refine or_congr_right ?_
    omega
  · refine List.forall_mem_cons.mpr ⟨?_, List.forall_mem_singleton.mpr ?_⟩
    · exact Target.load_store (by omega)
    · refine (Target.load_store_of_disj ?_).trans (Target.load_store (by omega))
      simp only; omega
  · intro x hx
    simp only [List.mem_append, List.mem_cons, List.not_mem_nil, or_false] at hx
    rcases hx with hx | rfl | rfl
    · exact hi.sized x (by simp [hx])
    · exact hb
    · exact ha
  · simp [Disj, stop]
  · intro x hx y hy
    have hxc := hi.free_disj x hx
    simp only [List.mem_cons, List.not_mem_nil, or_false] at hy
    rcases hy with rfl | rfl
    · simp only [Disj, stop] at hxc ⊢; omega
    · simp only [Disj, stop] at hxc ⊢; omega

/-- **Allocating** a whole free chunk. -/
theorem take (hi : Inv T S h (pre ++ c :: post) rest) :
    Inv T S ((h.setLink T (linkAfter pre) (headOr 0 post)).setSize T c.start c.size) (pre ++ post)
        (c :: rest) ∧
      Frame (pre ++ c :: post) h
        ((h.setLink T (linkAfter pre) (headOr 0 post)).setSize T c.start c.size) := by
  have hfit := hi.fit_free hS
  have hclt := (hfit c (by simp)).lt
  unfold stop at hclt
  have hdisj := hi.separated.disj
  obtain ⟨hlist, hfr⟩ := hi.list.take hfit hdisj c.size
  refine ⟨?_, hfr⟩
  refine hi.change [] [c] (by rwa [List.append_nil]) (fun a => ?_)
    hlist (hi.separated.sublist (sublist_middle pre post c)) ?_ ?_ (by simp) ?_
  · rw [covered_append, covered_cons, List.append_nil, covered_append_cons]
    simp only [not_covered_nil, or_false]
    exact or_comm
  · exact List.forall_mem_singleton.mpr (Target.load_store (by omega))
  · intro x hx
    refine hi.sized x ?_
    simp only [List.mem_append, List.mem_cons, List.not_mem_nil, or_false] at hx ⊢
    tauto
  · intro x hx y hy
    rw [List.mem_singleton.mp hy]
    exact disj_of_middle hdisj x hx

/-- **Allocating the front** of a free chunk, whose rest `o` takes its place in the list. -/
theorem takeFront (hi : Inv T S h (pre ++ c :: post) rest) {n extra o : ℕ} (ho : o = c.start + n)
    (hsize : c.size = n + extra) (hn : Sized T ⟨c.start, n⟩) (he : Sized T ⟨o, extra⟩) :
    Inv T S ((((h.setSize T o extra).setLink T (.next o) (headOr 0 post)).setLink T
        (linkAfter pre) o).setSize T c.start n) (pre ++ ⟨o, extra⟩ :: post) (⟨c.start, n⟩ :: rest) ∧
      Frame (pre ++ c :: post) h ((((h.setSize T o extra).setLink T (.next o)
        (headOr 0 post)).setLink T (linkAfter pre) o).setSize T c.start n) := by
  have hw := T.ptrBytes_bounds
  have hfit := hi.fit_free hS
  have hclt := (hfit c (by simp)).lt
  have hnmin := hn.min
  unfold mallocMinSize at hnmin
  unfold stop at hclt
  obtain ⟨hlist, hfr⟩ := hi.list.takeFront hfit hi.separated.disj ho hsize
    (by simp only at hnmin; omega) he.min
  have hnfree := (pairwise_disj_split hi.separated.disj hsize).2
  rw [← ho] at hnfree
  refine ⟨?_, hfr⟩
  refine hi.change [] [⟨c.start, n⟩] (by rwa [List.append_nil]) (fun a => ?_)
    hlist ?_ ?_ ?_ (by simp) ?_
  · have hac : (o ≤ a ∧ a < o + extra) ∨ (c.start ≤ a ∧ a < c.start + n) ↔
        c.start ≤ a ∧ a < c.start + c.size := by omega
    rw [covered_append, covered_append_cons, covered_cons, List.append_nil, covered_append_cons]
    simp only [not_covered_nil, or_false, stop]
    rw [← hac, or_right_comm]
  · obtain ⟨h4, h5, h6⟩ := List.pairwise_append.mp hi.separated
    obtain ⟨h7, h8⟩ := List.pairwise_cons.mp h5
    refine List.pairwise_append.mpr ⟨h4, List.pairwise_cons.mpr ⟨fun x hx => ?_, h8⟩,
      fun x hx y hy => ?_⟩
    · have := h7 x hx
      simp only [stop] at this ⊢; omega
    · rcases List.mem_cons.mp hy with rfl | hy
      · have := h6 x hx c (by simp)
        simp only; omega
      · exact h6 x hx y (by simp [hy])
  · exact List.forall_mem_singleton.mpr (Target.load_store (by omega))
  · intro x hx
    rcases List.mem_append.mp hx with hx | hx
    · exact forall_mem_insert (P := Sized T) he (fun y hy =>
        hi.sized y (List.mem_append_left _ ((sublist_middle pre post c).subset hy))) x hx
    · rw [List.mem_singleton.mp hx]; exact hn
  · intro x hx y hy
    rw [List.mem_singleton.mp hy]
    exact hnfree x hx

/-- **Swallowing a free chunk**: `d` leaves the list and becomes a part of the allocated chunk `e`,
with `c`; besides the list only these two are written. -/
theorem swallow (hi : Inv T S h (pre ++ d :: post) (c :: rest)) {h₁ : Heap ε} {e : Span}
    (hh₁ : h₁ = h.setLink T (linkAfter pre) (headOr 0 post)) (hfr : Frame [c, d] h₁ h')
    (hhead : h'.head = h₁.head)
    (he : ∀ a, (e.start ≤ a ∧ a < e.stop) ↔
      (d.start ≤ a ∧ a < d.stop) ∨ (c.start ≤ a ∧ a < c.stop))
    (hs : Sized T e) (hsize : h'.size T e.start = e.size) :
    Inv T S h' (pre ++ post) (e :: rest) ∧ Frame (pre ++ d :: post ++ [c]) h h' := by
  have hfit := hi.fit_free hS
  have hdisj := hi.separated.disj
  have hsub := sublist_middle pre post d
  have hfr1 : Frame pre h h₁ := by
    rw [hh₁]
    exact Frame.setLink_after fun x hx => hfit x (by simp [hx])
  have hl1 : HeadList T h₁ 0 (pre ++ post) := by
    rw [hh₁]
    exact hi.list.remove hfit hdisj
  have hfr' : Frame (pre ++ d :: post ++ [c]) h h' := by
    refine (hfr1.mono fun a ha => ?_).trans (hfr.mono fun a ha => ?_)
    · simp only [covered_append]; tauto
    · simp only [covered_append, covered_cons, not_covered_nil, or_false] at ha ⊢; tauto
  -- the other free chunks are disjoint from both
  have hother : ∀ x ∈ pre ++ post, ∀ y ∈ [c, d], y.Disj x := by
    intro x hx y hy
    simp only [List.mem_cons, List.not_mem_nil, or_false] at hy
    rcases hy with rfl | rfl
    · exact (hi.free_disj x (hsub.subset hx)).symm
    · exact (disj_of_middle hdisj x hx).symm
  refine ⟨hi.change [c] [e] hfr' (fun a => (covered_middle [] (he a)).symm) ?_
    (hi.separated.sublist hsub) (List.forall_mem_singleton.mpr hsize) ?_ (by simp) ?_, hfr'⟩
  · exact hfr.headList hl1 hhead (fun x hx => hfit x (hsub.subset hx)) hother
  · intro x hx
    rcases List.mem_append.mp hx with hx | hx
    · exact hi.sized x (List.mem_append_left _ (hsub.subset hx))
    · rw [List.mem_singleton.mp hx]
      exact hs
  · intro x hx y hy
    rw [List.mem_singleton.mp hy]
    refine (disj_of_covered hs.pos (hfit x (hsub.subset hx)).size_pos (fun a h1 h2 => ?_)
      (hother x hx)).symm
    rw [covered_cons, covered_cons]
    have := (he a).mp ⟨h1, h2⟩
    tauto

/-- **Swallowing the free chunk `d` that ends where the allocated chunk starts**: the data moves
down behind the header of `d`. -/
theorem joinLeft (hi : Inv T S h (pre ++ d :: post) (c :: rest)) (hdc : d.stop = c.start) {m : Mem}
    (hm : memmove T (h.setLink T (linkAfter pre) (headOr 0 post)).mem (d.start + T.ptrBytes)
      (c.start + T.ptrBytes) (c.size - T.ptrBytes) = some m)
    (hh' : h' = { h.setLink T (linkAfter pre) (headOr 0 post) with
      mem := T.store m d.start (c.size + d.size) }) :
    Inv T S h' (pre ++ post) (d.join c :: rest) ∧ Frame (pre ++ d :: post ++ [c]) h h' ∧
      ∀ i < c.size - T.ptrBytes,
        h'.mem (d.start + T.ptrBytes + i) = h.mem (c.start + T.ptrBytes + i) := by
  have hw := T.ptrBytes_bounds
  have hfit := hi.fit_free hS
  have hdmin := (hfit d (by simp)).min
  have hc := hi.fit hS (show c ∈ (pre ++ d :: post) ++ c :: rest by simp)
  have hcmin := hc.min
  have hclt := hc.lt
  have hcovered : ∀ a, _ := fun a => covered_join (a := a) hdc
  unfold stop at hdc hclt
  have hfr1 : Frame pre h (h.setLink T (linkAfter pre) (headOr 0 post)) :=
    Frame.setLink_after fun x hx => hfit x (by simp [hx])
  obtain ⟨h₁, hh₁⟩ : ∃ h₁, h₁ = h.setLink T (linkAfter pre) (headOr 0 post) := ⟨_, rfl⟩
  rw [← hh₁] at hm hh' hfr1
  have hcopy : m =
      h₁.mem.copy (d.start + T.ptrBytes) (c.start + T.ptrBytes) (c.size - T.ptrBytes) := by
    rw [memmove_eq_copy_of_le (by omega) (by omega)] at hm
    exact (Option.some.inj hm).symm
  -- behind the link over `d`, the data and the size of `d` are written
  have hfr2 : Frame [c, d] h₁ h' := by
    refine ⟨fun a ha => ?_, by rw [hh'], by rw [hh'], by rw [hh'], by rw [hh']⟩
    simp only [covered_cons, not_covered_nil, or_false, stop] at ha
    rw [hh']
    refine (Target.store_of_notMem (by omega)).trans ?_
    rw [hcopy]
    exact Mem.copy_of_notMem (by omega)
  have hsize : h'.size T d.start = (d.join c).size := by
    rw [hh']
    refine (Target.load_store (by omega)).trans ?_
    rw [join_size, Nat.add_comm]
  obtain ⟨hinv, hfr⟩ := hi.swallow hS hh₁ hfr2 (by rw [hh']) hcovered
    ((hi.sized d (by simp)).join (hi.sized c (by simp))) hsize
  refine ⟨hinv, hfr, fun i hilt => ?_⟩
  rw [hh']
  refine (Target.store_of_notMem (by omega)).trans ?_
  rw [hcopy, Mem.copy_of_lt hilt]
  refine hfr1.bytes (d := c) (fun x hx => hi.free_disj x (by simp [hx])) (by omega) ?_
  unfold stop; omega

/-- **Swallowing the free chunk that starts where the allocated chunk ends**. -/
theorem joinRight (hi : Inv T S h (pre ++ d :: post) (c :: rest)) (hcd : c.stop = d.start)
    {h₁ : Heap ε}
    (hh₁ : h₁ = h.setLink T (linkAfter pre) (headOr 0 post))
    (hh' : h' = ((h₁.setSize T c.start (c.size + d.size)).setSize T d.start 0).setLink T
      (.next d.start) 0) :
    Inv T S h' (pre ++ post) (c.join d :: rest) ∧ Frame (pre ++ d :: post ++ [c]) h h' ∧
      ∀ a, c.start + T.ptrBytes ≤ a → a < c.stop → h'.mem a = h.mem a := by
  have hw := T.ptrBytes_bounds
  have hfit := hi.fit_free hS
  have hd := hfit d (by simp)
  have hcmin := (hi.fit hS (show c ∈ (pre ++ d :: post) ++ c :: rest by simp)).min
  have hdmin := hd.min
  have hdlt := hd.lt
  have hcovered : ∀ a, _ := fun a => (covered_join (a := a) hcd).trans or_comm
  unfold stop at hcd hdlt
  have hfr1 : Frame pre h h₁ := by
    rw [hh₁]
    exact Frame.setLink_after fun x hx => hfit x (by simp [hx])
  have hfr2 : Frame [c] h₁ (h₁.setSize T c.start (c.size + d.size)) := Frame.setSize (by omega)
  have hfr3 : Frame [d] (h₁.setSize T c.start (c.size + d.size)) h' := by
    rw [hh']
    exact (Frame.setSize (by omega)).trans (Frame.setLink_next hd)
  have hdc : ∀ x ∈ [d], x.Disj c := fun x hx => by
    rw [List.mem_singleton.mp hx]; right; exact hcd.le
  have hsize : h'.size T c.start = (c.join d).size := by
    refine (hfr3.size_eq hdc (by omega)).trans ?_
    exact Target.load_store (m := h₁.mem) (show c.size + d.size < T.space by omega)
  have hfr23 : Frame [c, d] h₁ h' := by
    refine (hfr2.mono fun a ha => ?_).trans (hfr3.mono fun a ha => ?_) <;>
      · simp only [covered_cons, not_covered_nil, or_false] at ha ⊢; tauto
  obtain ⟨hinv, hfr⟩ := hi.swallow hS hh₁ hfr23 (by rw [hh']; rfl) hcovered
    ((hi.sized c (by simp)).join (hi.sized d (by simp))) hsize
  refine ⟨hinv, hfr, fun a h1 h2 => ?_⟩
  rw [hfr3.bytes (d := c) hdc (by omega) h2]
  refine (setSize_mem_of_notMem (by omega)).trans ?_
  exact hfr1.bytes (d := c) (fun x hx => hi.free_disj x (by simp [hx])) (by omega) h2

end Contract

/-- **A write** to the data of allocated chunks, or outside all chunks. -/
theorem write (hi : Inv T S h free rest) {m : Mem} (hm : ∀ a, m a ≠ h.mem a →
    (∃ c ∈ rest, c.start + T.ptrBytes ≤ a ∧ a < c.stop) ∨ ¬ Covered (free ++ rest) a) :
    Inv T S { h with mem := m } free rest := by
  have hmin : ∀ c ∈ free ++ rest, 2 * T.ptrBytes ≤ c.size := fun c hc => (hi.sized c hc).min
  refine { hi with list := hi.list.congr rfl fun c hc a h1 h2 => ?_, header := fun c hc => ?_,
                   inside := fun c hc => ⟨(hi.inside c hc).lo, (hi.inside c hc).hi⟩
                   tiled := fun hx h0 => ⟨(hi.tiled hx h0).align, (hi.tiled hx h0).brk,
                     (hi.tiled hx h0).fill⟩ }
  · by_contra hne
    have hcmin := hmin c (by simp [hc])
    rcases hm a hne with ⟨d, hd, h3, h4⟩ | hcov
    · have := hi.free_live c hc d hd
      unfold Disj stop at this
      unfold stop at h4; omega
    · exact hcov ⟨c, by simp [hc], h1, by unfold stop; omega⟩
  · refine Eq.trans (Target.load_congr fun a h1 h2 => ?_) (hi.header c hc)
    by_contra hne
    have hcmin := hmin c (by simp [hc])
    rcases hm a hne with ⟨d, hd, h3, h4⟩ | hcov
    · by_cases hcd : c = d
      · subst hcd; omega
      · have := hi.live_disj.forall hc hd hcd
        unfold Disj stop at this
        unfold stop at h4; omega
    · exact hcov ⟨c, by simp [hc], h1, by unfold stop; omega⟩

end Inv

end Noc.Malloc
