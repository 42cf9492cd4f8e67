import Noc.Lib.Bump
import Noc.Malloc.Limits

/-! # The platform x86_64-pc-linux-gnu

The `sbrk` of `platform/x86_64-pc-linux-gnu.c` over the memory its linker script reserves, and the
allocator on top of it. The function returns the break as it is *after* the call, where `unistd.h`
and its own comment say the previous one.

`sbrk_contract_iff`: a run of calls keeps the contract exactly if no call moves the break; the
regions of a run that only grows are apart and inside the reserved memory exactly if each is at most
as long as the next and there is still room for the last one behind the break; the blocks of a run
of `malloc` exactly if each request fits into the chunk of the next one and the last one behind the
break. -/

namespace Noc.Platform

open Noc.Lib.Bytes Noc.Lib.Spans Noc.Lib.Spans.Span Noc.Lib.Bump
open Noc.Targets Noc.Targets.Target Noc.Unistd Noc.Malloc

/-! ### The linker script -/

/-- `ORIGIN(RAM)` -/
def ramOrigin : ℕ := 0x20000000

/-- `LENGTH(RAM)` -/
def ramLength : ℕ := 0x10000000

/-- `_brk_end` -/
def brkEnd : ℕ := ramLength + ramOrigin

/-- What the linker decides: `_brk_start`, the end of the section `.bss`, which lies in `RAM` and is
aligned to 8. -/
structure Layout where
  brkStart : ℕ
  origin_le : ramOrigin ≤ brkStart
  le_brkEnd : brkStart ≤ brkEnd
  aligned : 8 ∣ brkStart

/-- The variable `brk_off`. -/
@[ext] structure Layout.Break (L : Layout) where
  off : ℕ
  start_le : L.brkStart ≤ off
  le_end : off ≤ brkEnd

/-- The break when the program starts. -/
def Layout.start (L : Layout) : L.Break := ⟨L.brkStart, le_rfl, L.le_brkEnd⟩

/-- A new break is accepted. -/
def Layout.Accepts (L : Layout) (newBrk : ℤ) : Prop := newBrk ≤ brkEnd ∧ L.brkStart ≤ newBrk

instance (L : Layout) (newBrk : ℤ) : Decidable (L.Accepts newBrk) :=
  inferInstanceAs (Decidable (_ ∧ _))

/-- The break that an accepted value makes. -/
def Layout.Accepts.toBreak {L : Layout} {newBrk : ℤ} (h : L.Accepts newBrk) : L.Break where
  off := newBrk.toNat
  start_le := by unfold Layout.Accepts at h; omega
  le_end := by unfold Layout.Accepts at h; omega

/-- `sbrk` -/
def sbrk (L : Layout) : Sbrk L.Break where
  call brkOff incr :=
    let newBrk := ((brkOff.off : ℤ) + incr).bmod (2 ^ 64)
    if h : L.Accepts newBrk then (newBrk.toNat, h.toBreak) else (x8664.sbrkFailure, brkOff)
  brk brkOff := brkOff.off

variable {L : Layout} {e : L.Break} {i : ℤ}

/-- The increments that `intptr_t` has. -/
def Intptr (i : ℤ) : Prop := -2 ^ 63 ≤ i ∧ i < 2 ^ 63

/-- A break that leaves the range of `intptr_t` wraps to one that is refused. -/
theorem accepts_bmod_iff (hi : Intptr i) :
    L.Accepts (((e.off : ℤ) + i).bmod (2 ^ 64)) ↔ L.Accepts (e.off + i) := by
  obtain ⟨h1, h2⟩ := hi
  have hb := e.le_end
  unfold Layout.Accepts
  unfold brkEnd ramLength ramOrigin at *
  by_cases h : (e.off : ℤ) + i < 2 ^ 63
  · rw [Int.bmod_eq_of_le (by omega) (by omega)]
  · rw [← Int.sub_bmod_right, Int.bmod_eq_of_le (by omega) (by omega)]
    omega

/-- A call that is accepted returns the break it leaves. -/
theorem sbrk_accepted (h : L.Accepts (e.off + i)) :
    (sbrk L).call e i = (((e.off : ℤ) + i).toNat, h.toBreak) := by
  have hmod : ((e.off : ℤ) + i).bmod (2 ^ 64) = e.off + i := by
    unfold Layout.Accepts brkEnd ramLength ramOrigin at h
    exact Int.bmod_eq_of_le (by omega) (by omega)
  unfold sbrk
  simp only [hmod, dif_pos h]

/-- A call that is not accepted leaves the break. -/
theorem sbrk_refused (hi : Intptr i) (h : ¬ L.Accepts (e.off + i)) :
    (sbrk L).call e i = (x8664.sbrkFailure, e) := by
  rw [← accepts_bmod_iff hi] at h
  exact dif_neg h

theorem ne_sbrkFailure {a : ℕ} (h : a ≤ brkEnd) : a ≠ x8664.sbrkFailure := by
  have hfail : x8664.sbrkFailure = 2 ^ 64 - 1 := rfl
  unfold brkEnd ramLength ramOrigin at h
  omega

/-! ### Runs of calls -/

/-- A call: the break before it, its argument, its result and the break after it. -/
structure Call where
  before : ℕ
  incr : ℤ
  result : ℕ
  after : ℕ

/-- The run of the calls `sbrk(i)` for each `i` in turn. -/
def calls {ε : Type} (S : Sbrk ε) : ε → List ℤ → List Call
  | _, [] => []
  | e, i :: is =>
    let r := S.call e i
    ⟨S.brk e, i, r.1, S.brk r.2⟩ :: calls S r.2 is

/-- What `unistd.h` says of a call: it fails and leaves the break, or it returns the break as it was
and adds the increment. -/
def Call.Meets (c : Call) : Prop :=
  (c.result = x8664.sbrkFailure ∧ c.after = c.before) ∨
    (c.result = c.before ∧ (c.after : ℤ) = c.before + c.incr)

/-- The regions that the successful calls hand out, those without addresses left out. -/
def regions (cs : List Call) : List Span :=
  (cs.filter fun c => c.result ≠ x8664.sbrkFailure ∧ c.incr ≠ 0).map
    fun c => ⟨c.result, c.incr.toNat⟩

/-- The list of spans lies in the memory that the linker reserves, no address in two of them. -/
def Apart (L : Layout) (l : List Span) : Prop :=
  l.Pairwise Disj ∧ ∀ s ∈ l, L.brkStart ≤ s.start ∧ s.stop ≤ brkEnd

/-- One call keeps the contract unless it moves the break. -/
theorem call_meets_iff (hi : Intptr i) :
    Call.Meets ⟨e.off, i, ((sbrk L).call e i).1, (sbrk L).brk ((sbrk L).call e i).2⟩ ↔
      (i = 0 ∨ ¬ L.Accepts (e.off + i)) := by
  unfold Call.Meets
  dsimp only
  by_cases h : L.Accepts (e.off + i)
  · have hsmall := ne_sbrkFailure h.toBreak.le_end
    rw [sbrk_accepted h, or_iff_left (not_not.mpr h)]
    dsimp only [sbrk, Layout.Accepts.toBreak] at hsmall ⊢
    unfold Layout.Accepts at h
    rw [or_iff_right fun hc => hsmall hc.1]
    omega
  · rw [sbrk_refused hi h]
    exact ⟨fun _ => Or.inr h, fun _ => Or.inl ⟨rfl, rfl⟩⟩

/-- **A run keeps the contract exactly if no call moves the break.** -/
theorem calls_meet_iff : ∀ {is : List ℤ}, (∀ i ∈ is, Intptr i) →
    ((∀ c ∈ calls (sbrk L) e is, c.Meets) ↔ ∀ i ∈ is, i = 0 ∨ ¬ L.Accepts (e.off + i))
  | [], _ => by simp [calls]
  | i :: is, his => by
    have hi := his i List.mem_cons_self
    rw [calls, List.forall_mem_cons, List.forall_mem_cons]
    refine Iff.trans (and_congr_left' (call_meets_iff hi)) (and_congr_right fun h => ?_)
    -- the break is where it was
    have hstay : ((sbrk L).call e i).2 = e := by
      rcases h with rfl | h
      · have h0 : L.Accepts (e.off + 0) := by
          have h1 := e.start_le
          have h2 := e.le_end
          unfold Layout.Accepts
          omega
        rw [sbrk_accepted h0]
        exact Layout.Break.ext (by simp [Layout.Accepts.toBreak])
      · rw [sbrk_refused hi h]
    rw [hstay]
    exact calls_meet_iff fun j hj => his j (List.mem_cons_of_mem _ hj)

/-! ### Runs that grow -/

section Grow
variable {n : ℕ}

theorem sbrk_fits (h : e.off + n ≤ brkEnd) :
    ∃ e', (sbrk L).call e n = (e.off + n, e') ∧ e'.off = e.off + n := by
  have hb := e.start_le
  have hacc : L.Accepts ((e.off : ℤ) + n) := by unfold Layout.Accepts; omega
  exact ⟨_, sbrk_accepted hacc, rfl⟩

theorem sbrk_full (hn : n ≤ x8664.intptrMax) (h : brkEnd < e.off + n) :
    (sbrk L).call e n = (x8664.sbrkFailure, e) := by
  have hmax : x8664.intptrMax = 2 ^ 63 - 1 := rfl
  refine sbrk_refused ⟨by omega, by omega⟩ ?_
  unfold Layout.Accepts
  omega

/-- The allocator's contract holds only of a platform without memory for the heap. -/
theorem contract_iff : Contract x8664 (sbrk L) ↔ L.brkStart = brkEnd := by
  constructor
  · intro hS
    by_contra hne
    have hlt : L.brkStart < brkEnd := lt_of_le_of_ne L.le_brkEnd hne
    obtain ⟨e', hcall, he'⟩ := sbrk_fits (e := L.start) (n := 1) hlt
    have hcases := hS.call_cases L.start 1 (by decide)
    rw [hcall] at hcases
    rcases hcases with ⟨h, -⟩ | ⟨-, -, h⟩
    · exact ne_sbrkFailure hlt h
    · have : e'.off = L.start.off + 1 + 1 := h
      omega
  · intro heq
    have hoff : ∀ e : L.Break, e.off = brkEnd := fun e => le_antisymm e.le_end (heq ▸ e.start_le)
    refine ⟨fun e => ?_, fun e n hn => ?_⟩
    · have hne := ne_sbrkFailure e.le_end
      have h1 : x8664.sbrkFailure = 2 ^ 64 - 1 := rfl
      have h2 : e.off ≤ 2 ^ 30 := e.le_end.trans (by decide)
      show e.off < _
      omega
    · rcases Nat.eq_zero_or_pos n with rfl | hpos
      · obtain ⟨e', hcall, he'⟩ := sbrk_fits (e := e) (n := 0) (hoff e).le
        rw [hcall]
        refine Or.inr ⟨?_, le_rfl, he'⟩
        show 0 < e.off + 0
        rw [hoff e]; decide
      · rw [sbrk_full hn (by have := hoff e; omega)]
        exact Or.inl ⟨rfl, le_rfl⟩

/-- The regions of a run whose increments are not negative: each starts at its end. -/
theorem regions_eq {ns : List ℕ} (hns : ∀ n ∈ ns, n ≤ x8664.intptrMax) :
    regions (calls (sbrk L) e (ns.map (↑))) =
      spansAfter id id 0 e.off (fitting id (brkEnd - e.off) (ns.filter (· ≠ 0))) := by
  induction ns generalizing e with
  | nil => rfl
  | cons n ns ih =>
    have ih := fun e => ih (e := e) fun m hm => hns m (List.mem_cons_of_mem _ hm)
    have hb := e.le_end
    rw [List.map_cons, calls]
    unfold regions at *
    by_cases hfit : e.off + n ≤ brkEnd
    · obtain ⟨e', hcall, he'⟩ := sbrk_fits hfit
      rw [hcall]
      by_cases h0 : n = 0
      · subst h0
        rw [List.filter_cons_of_neg (by simp), List.filter_cons_of_neg (by simp), ih, he']
        rfl
      · rw [List.filter_cons_of_pos (by simp [ne_sbrkFailure hfit, h0]),
          List.filter_cons_of_pos (by simp [h0]), fitting_cons_of_le (by simp only [id]; omega),
          List.map_cons, ih, he', spansAfter, id, Nat.sub_add_eq]
        rfl
    · rw [sbrk_full (hns n List.mem_cons_self) (by omega),
        List.filter_cons_of_neg (by simp), List.filter_cons_of_pos (by simp; omega),
        fitting_cons_of_lt (by simp only [id]; omega), ih]

/-- Spans laid out from the break are apart in the reserved memory. -/
theorem apart_spansAfter_iff {α : Type} {cost len : α → ℕ} {off : ℕ} {xs : List α}
    (hlen : ∀ x ∈ xs, 0 < len x) : Apart L (spansAfter cost len off e.off xs) ↔
      xs.IsChain (fun x y => len x ≤ cost y) ∧
        ∀ x ∈ xs.getLast?, e.off + (xs.map cost).sum + off + len x ≤ brkEnd := by
  rw [← spansAfter_apart_iff hlen]
  refine and_congr_right' (forall₂_congr fun s hs => and_iff_right ?_)
  have h1 := e.start_le
  have h2 := le_start_of_mem hs
  omega

/-- **A growing run**: its regions are apart exactly if each is at most as long as the next one and
there is room for the last one behind the break. -/
theorem regions_apart_iff {ns : List ℕ} (hns : ∀ n ∈ ns, n ≤ x8664.intptrMax) :
    Apart L (regions (calls (sbrk L) e (ns.map (↑)))) ↔
      let gs := fitting id (brkEnd - e.off) (ns.filter (· ≠ 0))
      gs.IsChain (· ≤ ·) ∧ ∀ n ∈ gs.getLast?, e.off + gs.sum + n ≤ brkEnd := by
  dsimp only
  have hpos : ∀ n ∈ fitting id (brkEnd - e.off) (ns.filter (· ≠ 0)), 0 < id n := by
    intro n hn
    have := List.mem_filter.mp (mem_of_mem_fitting hn)
    exact Nat.pos_of_ne_zero (by simpa using this.2)
  rw [regions_eq hns, apart_spansAfter_iff hpos, List.map_id]
  rfl

end Grow

/-! ### Runs of `malloc` -/

/-- The allocator when the program starts. -/
def initHeap (L : Layout) (mem : Mem) : Heap L.Break := ⟨mem, 0, 0, 0, 0, L.start⟩

/-- The blocks that `malloc(n)` returns for each `n` in turn, `NULL` left out. -/
def mallocs (L : Layout) : Heap L.Break → List ℕ → Option (List Span)
  | _, [] => some []
  | h, n :: ns =>
    match nocMalloc x8664 (sbrk L) n h with
    | none => none
    | some (ptr, h) =>
      (mallocs L h ns).map fun blocks => if ptr ≠ 0 then ⟨ptr, n⟩ :: blocks else blocks

section Malloc
variable {h : Heap L.Break} {n : ℕ}

/-- With no free chunk and an aligned break, `aligned_sbrk` is a call of `sbrk`. -/
theorem alignedSbrk_bump (hal : 8 ∣ h.env.off) (hn : 8 ∣ n) :
    ∃ h', h'.head = h.head ∧ 8 ∣ h'.env.off ∧
      if h.env.off + n ≤ brkEnd then
        alignedSbrk x8664 (sbrk L) n h = (h.env.off + n, h') ∧ h'.env.off = h.env.off + n
      else alignedSbrk x8664 (sbrk L) n h = (x8664.sbrkFailure, h') ∧ h'.env = h.env := by
  have hmax : x8664.intptrMax = 2 ^ 63 - 1 := rfl
  have hspace : x8664.space = 2 ^ 64 := rfl
  by_cases hfit : h.env.off + n ≤ brkEnd
  · obtain ⟨e', hcall, he'⟩ := sbrk_fits hfit
    have hle : h.env.off + n ≤ 2 ^ 30 := hfit.trans (by unfold brkEnd ramLength ramOrigin; omega)
    have hd : 8 ∣ h.env.off + n := Nat.dvd_add hal hn
    have hsbrk := alignedSbrk_aligned (by omega) hcall (ne_sbrkFailure hfit) (by omega) hd
    refine ⟨(alignedSbrk x8664 (sbrk L) n h).2, ?_⟩
    rw [hsbrk, if_pos hfit]
    exact ⟨rfl, he' ▸ hd, rfl, he'⟩
  · by_cases hn : n ≤ x8664.intptrMax
    · refine ⟨{ h with errno := ENOMEM }, rfl, hal, ?_⟩
      rw [if_neg hfit]
      exact ⟨alignedSbrk_fail hn (sbrk_full hn (by omega)), rfl⟩
    · refine ⟨h, rfl, hal, ?_⟩
      rw [if_neg hfit, alignedSbrk, if_pos (by omega)]
      exact ⟨rfl, rfl⟩

/-- With no free chunk and an aligned break, `malloc` is a call of `sbrk`. -/
theorem nocMalloc_bump (hhead : h.head = 0) (hal : 8 ∣ h.env.off) (hn0 : n ≠ 0) :
    ∃ ptr h', nocMalloc x8664 (sbrk L) n h = some (ptr, h') ∧ h'.head = 0 ∧ 8 ∣ h'.env.off ∧
      if h.env.off + chunkSizeForData x8664 n ≤ brkEnd then
        ptr = h.env.off + chunkSizeForData x8664 n + 8 ∧
          h'.env.off = h.env.off + chunkSizeForData x8664 n
      else ptr = 0 ∧ h'.env = h.env := by
  have hdvd : 8 ∣ chunkSizeForData x8664 n := dvd_chunkSizeForData x8664 n
  have hlist : HeadList x8664 h 0 [] := ⟨hhead, trivial⟩
  have hspace : x8664.space = 2 ^ 64 := rfl
  have hw : x8664.ptrBytes = 8 := rfl
  have hcases := nocMalloc_eq hlist (by simp) (by rw [hspace]; decide) (by simp) hn0
  obtain ⟨-, hrun⟩ := hcases.resolve_right (by rintro ⟨pre, c, post, h, -⟩; simp at h)
  obtain ⟨h', hhead', hal', hsbrk⟩ := alignedSbrk_bump hal hdvd
  rw [hrun (sbrk L), fromSbrk]
  by_cases hfit : h.env.off + chunkSizeForData x8664 n ≤ brkEnd
  · rw [if_pos hfit] at hsbrk
    have hptr : chunkToData x8664 (h.env.off + chunkSizeForData x8664 n) =
        h.env.off + chunkSizeForData x8664 n + 8 := by
      unfold brkEnd ramLength ramOrigin at hfit
      exact Target.add_of_lt (by omega)
    rw [hsbrk.1, if_neg (ne_sbrkFailure hfit)]
    simp only [if_pos hfit]
    exact ⟨_, _, rfl, hhead'.trans hhead, hal', hptr, hsbrk.2⟩
  · rw [if_neg hfit] at hsbrk
    rw [hsbrk.1, if_pos rfl]
    simp only [if_neg hfit]
    exact ⟨_, _, rfl, hhead'.trans hhead, hal', rfl, hsbrk.2⟩

/-- The blocks of a run of `malloc` that starts with no free chunk. -/
theorem mallocs_eq : ∀ {ns : List ℕ} {h : Heap L.Break}, (∀ n ∈ ns, n < x8664.space) →
    h.head = 0 → 8 ∣ h.env.off →
    mallocs L h ns = some (spansAfter (chunkSizeForData x8664) id 8 h.env.off
      (fitting (chunkSizeForData x8664) (brkEnd - h.env.off) (ns.filter (· ≠ 0)))) := by
  intro ns
  induction ns with
  | nil => exact fun _ _ _ => rfl
  | cons n ns ih =>
    intro h hns hhead hal
    have hn := hns n List.mem_cons_self
    have hrest : ∀ m ∈ ns, m < x8664.space := fun m hm => hns m (List.mem_cons_of_mem _ hm)
    have hb := h.env.le_end
    rw [mallocs]
    by_cases h0 : n = 0
    · subst h0
      rw [nocMalloc, if_pos rfl, List.filter_cons_of_neg (by simp)]
      dsimp only
      rw [ih hrest hhead hal]
      rfl
    · obtain ⟨ptr, h', hmalloc, hhead', hal', hcases⟩ := nocMalloc_bump hhead hal h0
      rw [hmalloc, List.filter_cons_of_pos (by simp [h0])]
      dsimp only
      rw [ih hrest hhead' hal']
      by_cases hfit : h.env.off + chunkSizeForData x8664 n ≤ brkEnd
      · rw [if_pos hfit] at hcases
        obtain ⟨rfl, henv⟩ := hcases
        rw [fitting_cons_of_le (by omega), spansAfter, henv, Nat.sub_add_eq, Option.map_some,
          if_pos (Nat.succ_ne_zero _)]
        rfl
      · rw [if_neg hfit] at hcases
        obtain ⟨rfl, henv⟩ := hcases
        rw [fitting_cons_of_lt (by omega), henv]
        rfl

/-- **A run of `malloc`**: every call returns, and the blocks are apart exactly if each request fits
into the chunk of the next one and the last one behind the break. -/
theorem mallocs_apart_iff {ns : List ℕ} (hns : ∀ n ∈ ns, n < x8664.space) (mem : Mem) :
    ∃ blocks, mallocs L (initHeap L mem) ns = some blocks ∧ (Apart L blocks ↔
      let gs := fitting (chunkSizeForData x8664) (brkEnd - L.brkStart) (ns.filter (· ≠ 0))
      gs.IsChain (fun n m => n ≤ chunkSizeForData x8664 m) ∧ ∀ n ∈ gs.getLast?,
        L.brkStart + (gs.map (chunkSizeForData x8664)).sum + 8 + n ≤ brkEnd) := by
  have hpos : ∀ n ∈ fitting (chunkSizeForData x8664) (brkEnd - L.brkStart) (ns.filter (· ≠ 0)),
      0 < id n := by
    intro n hn
    have := List.mem_filter.mp (mem_of_mem_fitting hn)
    exact Nat.pos_of_ne_zero (by simpa using this.2)
  exact ⟨_, mallocs_eq hns rfl L.aligned, apart_spansAfter_iff (e := L.start) hpos⟩

end Malloc

/-! ### The contract -/

/-- **When the platform meets the contract.** In a run of `sbrk` every call does what `unistd.h`
says exactly if each increment is 0 or refused. In a run that only grows, the regions handed out are
apart and in the reserved memory exactly if those that fit do not get shorter and the last one fits
once more behind the break. In a run of `malloc` so are the blocks exactly if each request that is
served fits into the chunk of the next one, and the last one behind the break. -/
theorem sbrk_contract_iff (L : Layout) (e : L.Break) (mem : Mem) (is : List ℤ) (ns sizes : List ℕ)
    (his : ∀ i ∈ is, Intptr i) (hns : ∀ n ∈ ns, n ≤ x8664.intptrMax)
    (hsizes : ∀ n ∈ sizes, n < x8664.space) :
    ((∀ c ∈ calls (sbrk L) e is, c.Meets) ↔ ∀ i ∈ is, i = 0 ∨ ¬ L.Accepts (e.off + i)) ∧
    (Apart L (regions (calls (sbrk L) e (ns.map (↑)))) ↔
      let gs := fitting id (brkEnd - e.off) (ns.filter (· ≠ 0))
      gs.IsChain (· ≤ ·) ∧ ∀ n ∈ gs.getLast?, e.off + gs.sum + n ≤ brkEnd) ∧
    ∃ blocks, mallocs L (initHeap L mem) sizes = some blocks ∧ (Apart L blocks ↔
      let gs := fitting (chunkSizeForData x8664) (brkEnd - L.brkStart) (sizes.filter (· ≠ 0))
      gs.IsChain (fun n m => n ≤ chunkSizeForData x8664 m) ∧ ∀ n ∈ gs.getLast?,
        L.brkStart + (gs.map (chunkSizeForData x8664)).sum + 8 + n ≤ brkEnd) :=
  ⟨calls_meet_iff his, regions_apart_iff hns, mallocs_apart_iff hsizes mem⟩

/-- A program without data: the heap takes all of `RAM`. -/
def bareLayout : Layout := ⟨ramOrigin, le_rfl, by decide, by decide⟩

theorem sbrk_contract_iff_bare :
    (∀ c ∈ calls (sbrk bareLayout) bareLayout.start [0, -8], c.Meets) ∧
    Apart bareLayout (regions (calls (sbrk bareLayout) bareLayout.start ([16, 32].map (↑)))) ∧
    ∃ blocks, mallocs bareLayout (initHeap bareLayout fun _ => 0) [8, 24] = some blocks ∧
      Apart bareLayout blocks := by
  obtain ⟨h1, h2, blocks, h3, h4⟩ := sbrk_contract_iff bareLayout bareLayout.start (fun _ => 0)
    [0, -8] [16, 32] [8, 24] (by simp [Intptr]) (by decide) (by decide)
  exact ⟨h1.mpr (by decide), h2.mpr (by decide), blocks, h3, h4.mpr (by decide)⟩

/-- `sbrk(16)` returns the end of its region; the region of a shorter call after it overlaps with
it, and so does the block of `malloc(8)` with that of `malloc(100)`. -/
theorem sbrk_returns_end :
    ¬ (∀ c ∈ calls (sbrk bareLayout) bareLayout.start [16], c.Meets) ∧
    ¬ Apart bareLayout (regions (calls (sbrk bareLayout) bareLayout.start ([16, 8].map (↑)))) ∧
    mallocs bareLayout (initHeap bareLayout fun _ => 0) [100, 8] =
      some [⟨0x20000078, 100⟩, ⟨0x20000088, 8⟩] ∧
    ¬ Apart bareLayout [⟨0x20000078, 100⟩, ⟨0x20000088, 8⟩] := by
  refine ⟨?_, ?_, ?_, ?_⟩
  · rw [calls_meet_iff (by simp [Intptr])]
    decide
  · rw [regions_apart_iff (by decide)]
    decide
  · rw [mallocs_eq (by decide) rfl bareLayout.aligned]
    decide
  · rintro ⟨h, -⟩
    revert h
    decide

end Noc.Platform
