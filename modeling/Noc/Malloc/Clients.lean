import Noc.Lib.Objects
import Noc.Malloc.Blocks

/-! # What clients see

A client of the allocator knows objects: what it wrote to a block is there until it frees the block,
a `realloc` keeps it up to the smaller of both sizes, and blocks do not overlap. `ClientRun` runs
the heap and a store of objects side by side; the client may do what the store allows it to
(`Legal`), and is told no more than the results of its calls. `objects_held`: the heap has the bytes
of all objects in every such run, and every call returns.

A `realloc` that fails loses the object if a free chunk ends where its chunk starts. -/

namespace Noc.Malloc

open Noc.Lib.Bytes Noc.Lib.Spans Noc.Lib.Spans.Span Noc.Targets Noc.Unistd
open Noc.Lib.Objects Noc.Lib.Objects.Store

variable {ε : Type}

section Defs
variable (T : Target) (S : Sbrk ε)

/-- The step for a call of a client. -/
def stepOf (w : World ε) : Call UInt8 → Op
  | .malloc n => .malloc n
  | .free p => .free p
  | .realloc p n => .realloc p n
  | .write p i b => .write (Function.update w.heap.mem (p + i) b)

/-- What the client is told. -/
def World.result (w : World ε) (call : Call UInt8) : Option ℕ := w.returned T S (stepOf w call)

/-- Clients free, resize and write their own objects, and ask for sizes that can be served. -/
def Legal (σ : Store UInt8) : Call UInt8 → Prop
  | .malloc n => n = 0 ∨ Request T n
  | .free p => (σ p).isSome
  | .realloc p n => (σ p).isSome ∧ (n = 0 ∨ Request T n)
  | .write p i _ => ∃ o, σ p = some o ∧ i < o.length

/-- The objects after a call that returned `r`. -/
def after (w : World ε) (σ : Store UInt8) (r : ℕ) : Call UInt8 → Store UInt8
  | .realloc p n =>
    if n ≠ 0 ∧ r = 0 ∧ leftNeighbour T w.heap p ≠ none then σ.drop p else σ.step r (.realloc p n)
  | call => σ.step r call

/-- The heap and the objects, from the zero-initialised state on; in between, the program may write
outside the heap. -/
inductive ClientRun : World ε → Store UInt8 → Prop where
  | init (mem : Mem) (errno : ℕ) (env : ε) : ClientRun (World.init mem errno env) Store.empty
  | step {w w' : World ε} {σ : Store UInt8} {call : Call UInt8} {r : ℕ} (hw : ClientRun w σ)
      (hl : Legal T σ call) (hr : w.result T S call = some r)
      (hs : w.step T S (stepOf w call) = some w') : ClientRun w' (after T w σ r call)
  | other {w : World ε} {σ : Store UInt8} {mem : Mem} {free : List Span} (hw : ClientRun w σ)
      (hf : freeChunks T w.heap = some free)
      (hm : ∀ a, mem a ≠ w.heap.mem a → ¬ Covered (free ++ w.chunks T) a) :
      ClientRun { w with heap := { w.heap with mem := mem } } σ

/-- The objects are in the blocks of the pointers `live`, with their bytes. -/
structure Represents (h : Heap ε) (live : List ℕ) (σ : Store UInt8) : Prop where
  live : ∀ p, (σ p).isSome ↔ p ∈ live
  room : ∀ p o, σ p = some o → 0 < o.length ∧ o.length + T.ptrBytes ≤ (chunkOf T h p).size
  held : σ.Held h.mem

/-- The block of `p` and its data are the same. -/
structure Undisturbed (h h' : Heap ε) (p : ℕ) : Prop where
  chunk : chunkOf T h' p = chunkOf T h p
  bytes : ∀ i, i + T.ptrBytes < (chunkOf T h p).size → h'.mem (p + i) = h.mem (p + i)

end Defs

variable {T : Target} {S : Sbrk ε} {w w' : World ε} {h h' : Heap ε} {σ σ' : Store UInt8}
variable {free free' chunks rest : List Span} {c d : Span} {live live' : List ℕ}
variable {o : List (Option UInt8)} {p n r : ℕ} {call : Call UInt8}

namespace Represents

/-- Objects whose blocks are not disturbed. -/
theorem mono (hr : Represents T h live σ) (hsub : ∀ p o, σ' p = some o → σ p = some o)
    (hlive : ∀ p, (σ' p).isSome ↔ p ∈ live') (hu : ∀ p ∈ live', Undisturbed T h h' p) :
    Represents T h' live' σ' := by
  have hmem : ∀ {p o}, σ' p = some o → p ∈ live' := fun hp => (hlive _).mp (by rw [hp]; rfl)
  refine ⟨hlive, fun p o hp => ?_, hr.held.mono hsub fun p o hp i hi => ?_⟩
  · rw [(hu p (hmem hp)).chunk]
    exact hr.room p o (hsub p o hp)
  · have := (hr.room p o (hsub p o hp)).2
    exact (hu p (hmem hp)).bytes i (by omega)

/-- One object more, or another one. -/
theorem put (hr : Represents T h live σ) (h0 : 0 < o.length)
    (hroom : o.length + T.ptrBytes ≤ (chunkOf T h p).size)
    (hbytes : ∀ i b, o[i]? = some (some b) → h.mem (p + i) = b)
    (hlive : ∀ q, q ∈ live' ↔ q = p ∨ q ∈ live) : Represents T h live' (σ.put p o) := by
  refine ⟨fun q => ?_, fun q o' hq => ?_, hr.held.put hbytes⟩
  · rw [hlive]
    by_cases hq : q = p
    · rw [hq, put_self]
      simp
    · rw [put_of_ne hq, hr.live]
      exact (or_iff_right hq).symm
  · rcases of_put hq with ⟨rfl, rfl⟩ | ⟨-, hq⟩
    · exact ⟨h0, hroom⟩
    · exact hr.room q o' hq

/-- Without the object `p`. -/
theorem drop (hr : Represents T h live σ) (hlive : ∀ q, q ∈ live' ↔ q ≠ p ∧ q ∈ live)
    (hu : ∀ q ∈ live', Undisturbed T h h' q) : Represents T h' live' (σ.drop p) := by
  refine hr.mono (fun q o hq => (of_drop hq).2) (fun q => ?_) hu
  rw [hlive]
  by_cases hq : q = p
  · rw [hq, drop_self]
    simp
  · rw [drop_of_ne hq, hr.live]
    exact (and_iff_right hq).symm

end Represents

/-! ### Blocks -/

/-- A chunk that an operation does not touch is not disturbed. -/
theorem Kept.undisturbed (hS : Contract T S) (hk : Kept rest h h') (old new : List Span)
    (hi : Inv T S h free (old ++ rest)) (hi' : Inv T S h' free' (new ++ rest)) (hd : d ∈ rest) :
    Undisturbed T h h' (dataOf T d) := by
  have h1 := hi.chunkOf_dataOf hS (c := d) (by simp [hd])
  have h2 := hi'.chunkOf_dataOf hS (c := d) (by simp [hd])
  refine ⟨h2.trans h1.symm, fun i hilt => ?_⟩
  rw [h1] at hilt
  unfold dataOf
  exact hk d hd _ (by omega) (by unfold stop; omega)

namespace World.Ok

/-- The pointers that are left when `ptr` is taken away. -/
theorem mem_erase (hS : Contract T S) (ho : w.Ok T S free chunks) (ptr q : ℕ) :
    q ∈ w.live.erase ptr ↔ q ≠ ptr ∧ q ∈ w.live :=
  (List.nodup_append.mp (ho.nodup hS)).1.mem_erase_iff

/-- The block of a pointer. -/
theorem exists_chunk (hS : Contract T S) (ho : w.Ok T S free chunks) (hp : p ∈ w.live) :
    ∃ c ∈ chunks, dataOf T c = p ∧ chunkOf T w.heap p = c := by
  obtain ⟨c, hc, rfl⟩ := List.mem_map.mp (ho.ptrs.subset (List.mem_append_left _ hp))
  exact ⟨c, hc, rfl, ho.inv.chunkOf_dataOf hS hc⟩

end World.Ok

/-- **Objects in blocks do not overlap.** -/
theorem Represents.apart (hS : Contract T S) (hr : Represents T w.heap w.live σ)
    (ho : w.Ok T S free chunks) : σ.Apart := by
  have hchunk : ∀ {p o}, σ p = some o → ∃ c ∈ chunks, dataOf T c = p ∧ chunkOf T w.heap p = c :=
    fun hp => ho.exists_chunk hS ((hr.live _).mp (by rw [hp]; rfl))
  constructor
  · intro p o hp
    obtain ⟨c, hc, rfl, -⟩ := hchunk hp
    have hpos := (ho.inv.fit_live hS c hc).pos
    exact ⟨by unfold dataOf; omega, (hr.room _ o hp).1⟩
  · intro p o q o' hp hq hne
    obtain ⟨c, hc, rfl, hcc⟩ := hchunk hp
    obtain ⟨d, hd, rfl, hdd⟩ := hchunk hq
    have h1 := (hr.room _ o hp).2
    have h2 := (hr.room _ o' hq).2
    have hcd := ho.inv.live_disj.forall hc hd fun h => hne (by rw [h])
    rw [hcc] at h1
    rw [hdd] at h2
    unfold Disj stop at hcd
    unfold dataOf; omega

/-! ### One call -/

section Contract
variable (hS : Contract T S)
include hS

theorem legal_allowed (ho : w.Ok T S free chunks) (hr : Represents T w.heap w.live σ)
    (hl : Legal T σ call) : w.Allowed T (stepOf w call) := by
  cases call with
  | malloc n => exact hl
  | free p => exact (hr.live p).mp hl
  | realloc p n => exact ⟨(hr.live p).mp hl.1, hl.2⟩
  | write p i b =>
    obtain ⟨o, hp, hi⟩ := hl
    intro a ha
    have hmem := (hr.live p).mp (by rw [hp]; rfl)
    obtain ⟨c, -, rfl, hcc⟩ := ho.exists_chunk hS hmem
    have hroom := (hr.room _ o hp).2
    have hai : a = dataOf T c + i := by
      by_contra hne
      exact ha (Function.update_of_ne hne b w.heap.mem)
    rw [hcc] at hroom
    refine Or.inl ⟨c, List.mem_map.mpr ⟨dataOf T c, List.mem_append_left _ hmem, hcc⟩, ?_⟩
    rw [hai]
    unfold dataOf stop; omega

/-- `malloc` for the client. -/
theorem represents_malloc (ho : w.Ok T S free chunks) (hr : Represents T w.heap w.live σ)
    (hn : n = 0 ∨ Request T n) : ∃ r w', w.result T S (.malloc n) = some r ∧
      w.step T S (.malloc n) = some w' ∧
      Represents T w'.heap w'.live (σ.step r (.malloc n)) := by
  rcases hn with rfl | hn
  · have hrun : nocMalloc T S 0 w.heap = some (0, w.heap) := by
      rw [nocMalloc, if_pos rfl]
    rw [World.result, stepOf, World.returned, World.step, hrun]
    exact ⟨0, _, rfl, rfl, hr⟩
  rcases nocMalloc_cases hS ho.inv hn with ⟨h', h1, h2⟩ | ⟨h', free', c, h1, h2⟩
  · rw [World.result, stepOf, World.returned, World.step, h1]
    refine ⟨0, _, rfl, rfl, hr.mono (fun _ _ h => h) hr.live fun p _ => ⟨?_, fun i _ => ?_⟩⟩
    · unfold chunkOf Heap.size
      dsimp only
      rw [h2.mem]
    · dsimp only
      rw [h2.mem]
  · have hpos := (h2.inv.fit_live hS c (by simp)).pos
    have hne : c.start + T.ptrBytes ≠ 0 := by omega
    have hsize := hn.le_size.trans h2.size.le
    rw [World.result, stepOf, World.returned, World.step, h1]
    refine ⟨_, _, rfl, rfl, ?_⟩
    dsimp only
    rw [if_neg hne, Store.step, if_neg hne]
    have hsame : Represents T h' w.live σ := by
      refine hr.mono (fun _ _ h => h) hr.live fun p hp => ?_
      obtain ⟨d, hd, rfl, -⟩ := ho.exists_chunk hS hp
      exact h2.kept.undisturbed hS [] [c] ho.inv h2.inv hd
    refine hsame.put ?_ ?_ (fun i b hb => ?_) fun q => List.mem_cons
    · rw [List.length_replicate]
      have := hn.ne_zero
      omega
    · have hchunk : chunkOf T h' (c.start + T.ptrBytes) = c :=
        h2.inv.chunkOf_dataOf hS (c := c) (by simp)
      rw [List.length_replicate, hchunk]
      exact hsize
    · rw [List.getElem?_replicate] at hb
      split_ifs at hb
      cases hb

/-- `free` for the client. -/
theorem represents_free (ho : w.Ok T S free chunks) (hr : Represents T w.heap w.live σ)
    (hp : p ∈ w.live) : ∃ h', nocFree T p w.heap = some h' ∧
      Represents T h' (w.live.erase p) (σ.drop p) := by
  obtain ⟨c, rest, rfl, -, hi, hperm⟩ := ho.split hS hp
  obtain ⟨h', h1, h2, h3⟩ := hi.release hS
  refine ⟨h', h1, hr.drop (ho.mem_erase hS _) fun q hq => ?_⟩
  obtain ⟨d, hd, rfl⟩ := List.mem_map.mp (hperm.subset (List.mem_append_left _ hq))
  exact (hi.kept_rest h3).undisturbed hS [c] [] hi h2 hd

/-- `realloc` to a size that is not 0, for the client. -/
theorem represents_realloc (ho : w.Ok T S free chunks) (hr : Represents T w.heap w.live σ)
    (hp : p ∈ w.live) (hn : Request T n) : ∃ r w', w.result T S (.realloc p n) = some r ∧
      w.step T S (.realloc p n) = some w' ∧
      Represents T w'.heap w'.live (after T w σ r (.realloc p n)) := by
  obtain ⟨c, rest, rfl, hcc, hi, hperm⟩ := ho.split hS hp
  obtain ⟨o, ho'⟩ := Option.isSome_iff_exists.mp ((hr.live _).mpr hp)
  obtain ⟨ho0, horoom⟩ := hr.room _ o ho'
  rw [hcc] at horoom
  have hn0 := hn.ne_zero
  have hothers : ∀ {h' : Heap ε} {free' : List Span} {c' : Span}, Inv T S h' free' (c' :: rest) →
      Kept rest w.heap h' → Represents T h' (w.live.erase (dataOf T c)) (σ.drop (dataOf T c)) := by
    intro h' free' c' hi' hk
    refine hr.drop (ho.mem_erase hS _) fun q hq => ?_
    obtain ⟨d, hd, rfl⟩ := List.mem_map.mp (hperm.subset (List.mem_append_left _ hq))
    exact hk.undisturbed hS [c] [c'] hi hi' hd
  rcases nocRealloc_cases hS hi hn with ⟨h', free', c', h1, hm⟩ | ⟨h', free', c', h1, hm⟩
  · have h1 : nocRealloc T S (dataOf T c) n w.heap = some (0, h') := h1
    have hrest := hothers hm.inv hm.kept
    rw [World.result, stepOf, World.returned, World.step, h1]
    refine ⟨0, _, rfl, rfl, ?_⟩
    dsimp only
    rw [if_neg hn0, if_neg (by simp), after]
    rcases hm.leftNeighbour_cases hS hi with ⟨h3, h4⟩ | ⟨d, -, h3, -, -⟩
    · -- the block has at most grown
      have hptr : dataOf T c' = dataOf T c := by unfold dataOf; rw [h4]
      have hchunk := hm.inv.chunkOf_dataOf hS (c := c') (by simp)
      rw [hptr] at hchunk
      rw [h3, if_neg (by simp), Store.step, if_neg hn0, if_pos rfl]
      have hle := hm.le
      have hput : (σ.drop (dataOf T c)).put (dataOf T c) o = σ := by
        funext q
        by_cases hq : q = dataOf T c
        · rw [hq, put_self, ho']
        · rw [put_of_ne hq, drop_of_ne hq]
      rw [← hput]
      refine hrest.put ho0 (by rw [hchunk]; omega) (fun i b hb => ?_) fun q => ?_
      · have hilt : i < o.length := (List.getElem?_eq_some_iff.mp hb).1
        have hdata := hm.data i (by omega)
        rw [h4] at hdata
        exact hdata.trans (hr.held _ o ho' i b hb)
      · rw [ho.mem_erase hS]
        have : q = dataOf T c → q ∈ w.live := fun hq => hq ▸ hp
        tauto
    · rw [h3, if_pos ⟨hn0, rfl, by simp⟩]
      exact hrest
  · have h1 : nocRealloc T S (dataOf T c) n w.heap = some (dataOf T c', h') := h1
    have hpos := (hm.inv.fit_live hS c' (by simp)).pos
    have hne : dataOf T c' ≠ 0 := by unfold dataOf; omega
    have hchunk := hm.inv.chunkOf_dataOf hS (c := c') (by simp)
    have hsize := hn.le_size.trans hm.size
    rw [World.result, stepOf, World.returned, World.step, h1]
    refine ⟨_, _, rfl, rfl, ?_⟩
    dsimp only
    rw [if_neg hn0, if_pos hne, after, if_neg (by simp [hne]), Store.step, if_neg hn0, if_neg hne,
      ho', Option.getD_some]
    refine (hothers hm.inv hm.kept).put ?_ ?_ (fun i b hb => ?_) fun q => List.mem_cons
    · rw [length_resize]
      omega
    · rw [length_resize, hchunk]
      exact hsize
    · obtain ⟨hin, hb⟩ := getElem?_resize hb
      have hilt : i < o.length := (List.getElem?_eq_some_iff.mp hb).1
      rw [← hr.held _ o ho' i b hb]
      exact hm.data i (by omega) hin

/-- **A call of a client** returns, and the heap has the objects after it. -/
theorem represents_step (ho : w.Ok T S free chunks) (hr : Represents T w.heap w.live σ)
    (hl : Legal T σ call) : ∃ r w', w.result T S call = some r ∧
      w.step T S (stepOf w call) = some w' ∧ Represents T w'.heap w'.live (after T w σ r call) := by
  cases call with
  | malloc n => exact represents_malloc hS ho hr hl
  | free p =>
    obtain ⟨h', h1, h2⟩ := represents_free hS ho hr ((hr.live p).mp hl)
    rw [World.result, stepOf, World.returned, World.step, h1]
    exact ⟨0, _, rfl, rfl, h2⟩
  | realloc p n =>
    obtain ⟨hsome, hn⟩ := hl
    have hp := (hr.live p).mp hsome
    rcases hn with rfl | hn
    · obtain ⟨h', h1, h2⟩ := represents_free hS ho hr hp
      obtain ⟨c, hc, rfl, -⟩ := ho.exists_chunk hS hp
      have hpos := (ho.inv.fit_live hS c hc).pos
      have hrun : nocRealloc T S (dataOf T c) 0 w.heap = some (0, h') := by
        rw [nocRealloc, if_neg (by unfold dataOf; omega), if_pos rfl, h1]
        rfl
      rw [World.result, stepOf, World.returned, World.step, hrun]
      exact ⟨0, _, rfl, rfl, h2⟩
    · exact represents_realloc hS ho hr hp hn
  | write p i b =>
    have hallowed := legal_allowed hS ho hr hl
    obtain ⟨o, hp, hi⟩ := hl
    have hroom := hr.room p o hp
    have hmem := (hr.live p).mp (by rw [hp]; rfl)
    have hafter : after T w σ 0 (.write p i b) = σ.put p (o.set i (some b)) := by
      show σ.put p (((σ p).getD []).set i (some b)) = _
      rw [hp, Option.getD_some]
    -- the headers stay
    have hi' := ho.allowed_write hS hallowed
    have hchunk : ∀ q ∈ w.live, chunkOf T { w.heap with
        mem := Function.update w.heap.mem (p + i) b } q = chunkOf T w.heap q := by
      intro q hq
      obtain ⟨c, hc, rfl, hcc⟩ := ho.exists_chunk hS hq
      rw [hcc]
      exact hi'.chunkOf_dataOf hS hc
    refine ⟨0, _, rfl, rfl, ?_⟩
    rw [hafter]
    refine ⟨fun q => ?_, fun q o' hq => ?_, hr.held.set (hr.apart hS ho) hp hi⟩
    · by_cases hqp : q = p
      · rw [hqp, put_self]
        exact iff_of_true rfl hmem
      · rw [put_of_ne hqp]
        exact hr.live q
    · rcases of_put hq with ⟨rfl, rfl⟩ | ⟨-, hq⟩
      · rw [List.length_set]
        exact (hchunk q hmem).symm ▸ hroom
      · have hq' := (hr.live q).mp (by rw [hq]; rfl)
        exact (hchunk q hq').symm ▸ hr.room q o' hq

/-! ### Runs -/

/-- **The heap has the objects** in every run of its clients. -/
theorem ClientRun.represents (hr : ClientRun T S w σ) :
    Reachable T S w ∧ Represents T w.heap w.live σ := by
  induction hr with
  | init mem errno env =>
    refine ⟨.init mem errno env, fun p => ?_, fun p o hp => ?_, held_empty _⟩
    · exact iff_of_false (by simp [Store.empty]) List.not_mem_nil
    · cases hp
  | step hw hl hres hs ih =>
    obtain ⟨hreach, hrep⟩ := ih
    obtain ⟨free, chunks, ho⟩ := hreach.ok hS
    obtain ⟨r, w', h1, h2, h3⟩ := represents_step hS ho hrep hl
    rw [hres] at h1
    rw [hs] at h2
    obtain rfl := Option.some.inj h1
    obtain rfl := Option.some.inj h2
    exact ⟨hreach.step _ (legal_allowed hS ho hrep hl) hs, h3⟩
  | @other w σ mem free hw hf hm ih =>
    obtain ⟨hreach, hrep⟩ := ih
    obtain ⟨free', chunks, ho⟩ := hreach.ok hS
    have hallowed : w.Allowed T (.write mem) := fun a ha => Or.inr ⟨free, hf, hm a ha⟩
    have hi' := ho.allowed_write hS hallowed
    refine ⟨hreach.step _ hallowed rfl, hrep.mono (fun _ _ h => h) hrep.live fun p hp => ?_⟩
    obtain ⟨c, hc, rfl, hcc⟩ := ho.exists_chunk hS hp
    refine ⟨(hi'.chunkOf_dataOf hS hc).trans hcc.symm, fun i hilt => ?_⟩
    by_contra hne
    rw [hcc] at hilt
    refine hm _ hne ((covered_append).mpr (Or.inr ⟨c, ?_, ?_, ?_⟩))
    · exact (ho.chunks_perm hS).mem_iff.mpr hc
    · unfold dataOf; omega
    · unfold dataOf stop; omega

/-- What becomes of the object of a `realloc` that fails: it is lost exactly if its block is. -/
theorem failed_realloc (ho : w.Ok T S free chunks) (hp : p ∈ w.live) (hn : Request T n)
    (hr : w.result T S (.realloc p n) = some 0) (hs : w.step T S (.realloc p n) = some w') :
    (KeepsBlock T w p w'.heap ↔ leftNeighbour T w.heap p = none) ∧
      after T w σ 0 (.realloc p n) =
        if leftNeighbour T w.heap p = none then σ else σ.drop p := by
  have hn0 := hn.ne_zero
  constructor
  · obtain ⟨new, h1⟩ := World.step_realloc hs
    rw [World.result, stepOf, World.returned, h1] at hr
    obtain rfl : new = 0 := Option.some.inj hr
    exact ho.keepsBlock_iff hS hp hn h1
  · rw [after]
    by_cases hleft : leftNeighbour T w.heap p = none
    · rw [if_neg (by simp [hleft]), if_pos hleft, Store.step, if_neg hn0, if_pos rfl]
    · rw [if_pos ⟨hn0, rfl, hleft⟩, if_neg hleft]

/-- **What a client sees**: in every run, objects do not overlap, start at aligned addresses and
have the bytes that were written to them or that `realloc` kept; there is one for each pointer;
every call that the client may make returns; and a `realloc` that fails loses the object exactly if
a free chunk ends where its chunk starts, and then the block is not the client's any more. -/
theorem objects_held (hr : ClientRun T S w σ) : σ.Apart ∧ σ.Held w.heap.mem ∧
    (∀ p, (σ p).isSome ↔ p ∈ w.live) ∧ (∀ p ∈ w.live, T.mallocAlign ∣ p) ∧
    (∀ call, Legal T σ call → ∃ r w', w.result T S call = some r ∧
      w.step T S (stepOf w call) = some w' ∧ ClientRun T S w' (after T w σ r call)) ∧
    ∀ p n w', (σ p).isSome → Request T n → w.result T S (.realloc p n) = some 0 →
      w.step T S (.realloc p n) = some w' →
      (KeepsBlock T w p w'.heap ↔ leftNeighbour T w.heap p = none) ∧
        after T w σ 0 (.realloc p n) =
          if leftNeighbour T w.heap p = none then σ else σ.drop p := by
  obtain ⟨hreach, hrep⟩ := hr.represents hS
  obtain ⟨free, chunks, ho⟩ := hreach.ok hS
  refine ⟨hrep.apart hS ho, hrep.held, hrep.live, fun p hp => ?_, fun call hl => ?_,
    fun p n w' hp hn hres hs => failed_realloc hS ho ((hrep.live p).mp hp) hn hres hs⟩
  · obtain ⟨c, hc, rfl, -⟩ := ho.exists_chunk hS hp
    exact Nat.dvd_add (ho.inv.sized c (by simp [hc])).start T.align_dvd
  · obtain ⟨r, w', h1, h2, -⟩ := represents_step hS ho hrep hl
    exact ⟨r, w', h1, h2, hr.step hl h1 h2⟩

end Contract

/-- A call with a result makes a step. -/
theorem ClientRun.next (hw : ClientRun T S w σ) (hl : Legal T σ call)
    (hr : w.result T S call = some r) :
    ClientRun T S (w.next T S (stepOf w call)) (after T w σ r call) := by
  refine hw.step hl hr (World.step_next ?_)
  have hsome : (w.returned T S (stepOf w call)).isSome := by
    rw [← World.result, hr]
    rfl
  cases call with
  | write p i b => rfl
  | _ => simpa [stepOf, World.step, World.returned] using hsome

/-- The world with two blocks after the fourth byte of the second one is written and the first one
is freed. -/
def writtenWorld : World (Break .x8664) :=
  (twoBlocks.next .x8664 (arena .x8664 8192) (stepOf twoBlocks (.write 4136 3 7))).next .x8664
    (arena .x8664 8192) (.free 4104)

/-- The objects in two blocks. -/
def twoObjects : Store UInt8 :=
  (Store.empty.put 4104 (List.replicate 24 none)).put 4136 (List.replicate 24 none)

/-- The object that is left. -/
def writtenObject : List (Option UInt8) := (List.replicate 24 none).set 3 (some 7)

theorem writtenWorld_run : ClientRun .x8664 (arena .x8664 8192) writtenWorld
    ((twoObjects.put 4136 writtenObject).drop 4104) := by
  have hlegal : ∀ σ, Legal .x8664 σ (.malloc 24) := fun σ => Or.inr ⟨by decide, by decide⟩
  have h₁ : arenaWorld.result .x8664 (arena .x8664 8192) (.malloc 24) = some 4104 := by
    decide +kernel
  have h₂ : mallocWorld.result .x8664 (arena .x8664 8192) (.malloc 24) = some 4136 := by
    decide +kernel
  have htwo : ClientRun .x8664 (arena .x8664 8192) twoBlocks twoObjects :=
    ((ClientRun.init _ _ _).next (hlegal _) h₁).next (hlegal _) h₂
  have hwrite : Legal .x8664 twoObjects (.write 4136 3 7) := ⟨_, put_self, by decide⟩
  have hfree : Legal .x8664 (twoObjects.put 4136 writtenObject) (.free 4104) :=
    show ((twoObjects.put 4136 writtenObject) 4104).isSome by decide
  exact (htwo.next hwrite rfl).next (r := 0) hfree (by decide +kernel)

/-- The byte is there, until a `realloc` of the block fails: the freed block is in front of it. -/
theorem objects_held_failed : writtenWorld.heap.mem 4139 = 7 ∧ ∃ w',
    writtenWorld.step .x8664 (arena .x8664 8192) (.realloc 4136 20000) = some w' ∧
    ¬ KeepsBlock .x8664 writtenWorld 4136 w'.heap ∧
    after .x8664 writtenWorld ((twoObjects.put 4136 writtenObject).drop 4104) 0
      (.realloc 4136 20000) = ((twoObjects.put 4136 writtenObject).drop 4104).drop 4136 := by
  obtain ⟨-, hheld, -, -, -, hfailed⟩ :=
    objects_held (arena_contract .x8664 8192) writtenWorld_run
  have hobject : ((twoObjects.put 4136 writtenObject).drop 4104) 4136 = some writtenObject := by
    decide
  have hleft : leftNeighbour .x8664 writtenWorld.heap 4136 ≠ none := by decide +kernel
  have hstep : (writtenWorld.step .x8664 (arena .x8664 8192) (.realloc 4136 20000)).isSome := by
    decide +kernel
  obtain ⟨hkeep, hafter⟩ := hfailed 4136 20000 _ (by rw [hobject]; rfl) ⟨by decide, by decide⟩
    (by decide +kernel) (World.step_next hstep)
  exact ⟨hheld 4136 _ hobject 3 7 rfl, _, World.step_next hstep, fun hk => hleft (hkeep.mp hk),
    hafter.trans (if_neg hleft)⟩

end Noc.Malloc
