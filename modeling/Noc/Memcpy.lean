import Noc.Targets
import Mathlib.Tactic.Ring

/-! # `memcpy.c`

`memcpy`, `memset` and `memmove` as the source computes them: a head of single bytes up to a word
boundary, a body of words, a tail of bytes (on x86_64 `memcpy` is `rep movsb`, one byte loop). A
loop `while (d < head)` whose pointer moves by `k` runs `rounds k d head` times. `memcpy` is the
list of its assignments, carried out in turn, so that what it reads can be seen. The body of the
backward copy in `memmove` is a loop that may not end, so that `memmove` has an optional result.

* `memcpy_eq_copy`, `memset_eq_fill`, `memmove_eq_copy_of_le`: what they do to the memory
  (`memset_bytes`: byte by byte).
* `memcpy_accesses`: `memcpy` is a copy byte by byte, and what it reads and writes on the way is
  inside the two ranges.
* `memmove_eq_copy_iff`: `memmove` copies the block unless it goes backwards onto the last bytes of
  the address space, where it does not end. -/

namespace Noc.Memcpy

open Noc.Lib.Bytes Noc.Targets

/-- How often a pointer at `d` moves by `k` while it is below `stop`. -/
def rounds (k d stop : ℕ) : ℕ := (stop - d + (k - 1)) / k

/-- `x & ~mask` for `mask = sizeof(uintptr_t) - 1` -/
def wordFloor (T : Target) (x : ℕ) : ℕ := x / T.ptrBytes * T.ptrBytes

/-- An assignment `*d = *s` of an object of `size` bytes. -/
structure Move where
  dest : ℕ
  src : ℕ
  size : ℕ

/-- Carry out an assignment. -/
def Move.run (m : Mem) (mv : Move) : Mem := m.store mv.dest mv.size (m.load mv.src mv.size)

/-- `n` rounds of `*(d++) = *(s++)` on objects of `k` bytes. -/
def movesUp (k d s : ℕ) : ℕ → List Move
  | 0 => []
  | n + 1 => ⟨d, s, k⟩ :: movesUp k (d + k) (s + k) n

/-- `n` rounds of `*(--d) = *(--s)` on bytes. -/
def bytesDown (m : Mem) (d s : ℕ) : ℕ → Mem
  | 0 => m
  | n + 1 => bytesDown (m.set (d - 1) (m (s - 1))) (d - 1) (s - 1) n

/-- The loop `while (dw > body) *(--dw) = *(--sw)` on words: the memory and the two pointers. -/
def wordsDown (T : Target) (body : ℕ) : ℕ → Mem → ℕ → ℕ → Option (Mem × ℕ × ℕ)
  | 0, _, _, _ => none
  | fuel + 1, m, dw, sw =>
    if body < dw then
      let dw := T.sub dw T.ptrBytes
      let sw := T.sub sw T.ptrBytes
      wordsDown T body fuel (T.store m dw (T.load m sw)) dw sw
    else some (m, dw, sw)

/-- `n` rounds of `*(d++) = c` on bytes. -/
def bytesFill (m : Mem) (d : ℕ) (c : UInt8) : ℕ → Mem
  | 0 => m
  | n + 1 => bytesFill (m.set d c) (d + 1) c n

/-- `n` rounds of `*(dw++) = cccc` on words. -/
def wordsFill (T : Target) (m : Mem) (d cccc : ℕ) : ℕ → Mem
  | 0 => m
  | n + 1 => wordsFill T (T.store m d cccc) (d + T.ptrBytes) cccc n

/-- The assignments of `memcpy(dest, src, len)`, in turn. -/
def memcpyMoves (T : Target) (dest src len : ℕ) : List Move :=
  if T.archX8664 then movesUp 1 dest src len
  else
    let mask := T.ptrBytes - 1
    let tail := T.add dest len
    if dest = src ∨ len = 0 then []
    else
      let body := wordFloor T tail
      let first := wordFloor T (T.add dest mask)
      let head := if dest % T.ptrBytes = src % T.ptrBytes ∧ first ≤ tail then first else tail
      let n₁ := rounds 1 dest head
      let (d, s) := (dest + n₁, src + n₁)
      let n₂ := rounds T.ptrBytes d body
      let (d', s') := (d + n₂ * T.ptrBytes, s + n₂ * T.ptrBytes)
      movesUp 1 dest src n₁ ++ (movesUp T.ptrBytes d s n₂ ++ movesUp 1 d' s' (rounds 1 d' tail))

/-- `memcpy(dest, src, len)` -/
def memcpy (T : Target) (m : Mem) (dest src len : ℕ) : Mem :=
  (memcpyMoves T dest src len).foldl Move.run m

/-- `memset(dest, c, len)` -/
def memset (T : Target) (m : Mem) (dest : ℕ) (c : ℤ) (len : ℕ) : Mem :=
  let byte := UInt8.ofNat (c % 256).toNat
  let mask := T.ptrBytes - 1
  let tail := T.add dest len
  let body := wordFloor T tail
  let ones := if T.ptrBytes = 8 then 0x0101010101010101 else 0x01010101
  let cccc := (c % 256).toNat * ones
  let first := wordFloor T (T.add dest mask)
  let head := if first ≤ tail then first else tail
  let n₁ := rounds 1 dest head
  let m := bytesFill m dest byte n₁
  let d := dest + n₁
  let n₂ := rounds T.ptrBytes d body
  let m := wordsFill T m d cccc n₂
  let d := d + n₂ * T.ptrBytes
  bytesFill m d byte (rounds 1 d tail)

/-- `memmove(dest, src, len)`, if it ends. A pointer has no more than `T.space` values, so a loop
with that many rounds does not end. -/
def memmove (T : Target) (m : Mem) (dest src len : ℕ) : Option Mem :=
  if dest ≤ src ∨ T.add src len ≤ dest then some (memcpy T m dest src len)
  else
    let mask := T.ptrBytes - 1
    let d := T.add dest len
    let s := T.add src len
    let tail := dest
    let body := wordFloor T (T.add tail mask)
    let head :=
      if d % T.ptrBytes = s % T.ptrBytes ∧ wordFloor T d < tail then wordFloor T d else tail
    let n₁ := rounds 1 head d
    let m := bytesDown m d s n₁
    let (d, s) := (d - n₁, s - n₁)
    match wordsDown T body T.space m d s with
    | none => none
    | some (m, d, s) => some (bytesDown m d s (rounds 1 tail d))

variable {T : Target} {m : Mem}

/-! ### The loops -/

theorem Move.run_eq {d s k : ℕ} : Move.run m ⟨d, s, k⟩ = m.copy d s k := Mem.store_load

/-- A loop of assignments copies its range. -/
theorem movesUp_run {k : ℕ} : ∀ {m : Mem} {d s n : ℕ}, (d ≤ s ∨ s + n * k ≤ d) →
    (movesUp k d s n).foldl Move.run m = m.copy d s (n * k)
  | m, d, s, 0, _ => by rw [Nat.zero_mul]; exact Mem.copy_zero.symm
  | m, d, s, n + 1, h => by
    have hn : (n + 1) * k = k + n * k := by ring
    rw [movesUp, List.foldl_cons, movesUp_run (by omega), Move.run_eq, Mem.copy_add (by omega), hn]

theorem bytesDown_eq {d s : ℕ} (h : s ≤ d) : ∀ {m : Mem} {n : ℕ},
    bytesDown m (d + n) (s + n) n = m.copy d s n
  | m, 0 => Mem.copy_zero.symm
  | m, n + 1 => by
    rw [bytesDown, ← Nat.add_assoc, ← Nat.add_assoc, Nat.add_sub_cancel, Nat.add_sub_cancel,
      bytesDown_eq h, Mem.set_eq_copy, Mem.copy_add_down h]

theorem bytesFill_eq {c : UInt8} : ∀ {m : Mem} {d n : ℕ}, bytesFill m d c n = m.fill d n c
  | m, d, 0 => Mem.fill_zero.symm
  | m, d, n + 1 => by
    rw [bytesFill, bytesFill_eq, show m.set d c = m.fill d 1 c from ?_, Mem.fill_add,
      Nat.add_comm 1]
    funext x
    unfold Mem.set Mem.fill
    split_ifs <;> first | rfl | omega

/-- The number of `k` bytes that are all 1. -/
def ones : ℕ → ℕ
  | 0 => 0
  | k + 1 => 256 * ones k + 1

/-- A multiple of it has the same byte at all places. -/
theorem byte_ones {c : ℕ} (hc : c < 256) : ∀ {k i : ℕ}, i < k → c * ones k / 256 ^ i % 256 = c
  | k + 1, 0, _ => by
    rw [ones, Nat.pow_zero, Nat.div_one, Nat.mul_add, Nat.mul_one, Nat.mul_left_comm,
      Nat.mul_add_mod, Nat.mod_eq_of_lt hc]
  | k + 1, i + 1, h => by
    rw [ones, Nat.pow_succ', ← Nat.div_div_eq_div_mul, Nat.mul_add, Nat.mul_one,
      Nat.mul_left_comm, Nat.mul_add_div (by decide), Nat.div_eq_of_lt hc, Nat.add_zero]
    exact byte_ones hc (Nat.lt_of_succ_lt_succ h)

/-- A word whose bytes are all `c`. -/
theorem store_ones {d c : ℕ} (hc : c < 256) :
    T.store m d (c * if T.ptrBytes = 8 then 0x0101010101010101 else 0x01010101) =
      m.fill d T.ptrBytes (UInt8.ofNat c) := by
  funext x
  unfold Target.store Mem.store Mem.fill
  split_ifs with h h8
  · refine UInt8.toNat_inj.mp ?_
    rw [UInt8.toNat_ofNat', UInt8.toNat_ofNat', Nat.mod_eq_of_lt (a := c) hc]
    exact byte_ones (k := 8) hc (by omega)
  · have h4 := T.ptr_cases.resolve_right h8
    refine UInt8.toNat_inj.mp ?_
    rw [UInt8.toNat_ofNat', UInt8.toNat_ofNat', Nat.mod_eq_of_lt (a := c) hc]
    exact byte_ones (k := 4) hc (by omega)
  · rfl

theorem wordsFill_eq {c : ℕ} (hc : c < 256) : ∀ {m : Mem} {d n : ℕ},
    wordsFill T m d (c * if T.ptrBytes = 8 then 0x0101010101010101 else 0x01010101) n =
      m.fill d (n * T.ptrBytes) (UInt8.ofNat c)
  | m, d, 0 => by rw [Nat.zero_mul]; exact Mem.fill_zero.symm
  | m, d, n + 1 => by
    rw [wordsFill, wordsFill_eq hc, store_ones hc, Mem.fill_add]
    congr 1; ring

/-! ### The phases -/

theorem rounds_one (d stop : ℕ) : rounds 1 d stop = stop - d := by
  unfold rounds; rw [Nat.div_one]; omega

/-- The three phases cover the range once: the head stops at `tail` or at the first word boundary,
and the body at the last one. -/
theorem phases {dest len : ℕ} (h : dest + len < T.space) (p : Prop) [Decidable p] :
    let tail := T.add dest len
    let first := wordFloor T (T.add dest (T.ptrBytes - 1))
    let head := if p ∧ first ≤ tail then first else tail
    let n₁ := rounds 1 dest head
    let n₂ := rounds T.ptrBytes (dest + n₁) (wordFloor T tail)
    n₁ + (n₂ * T.ptrBytes + rounds 1 (dest + n₁ + n₂ * T.ptrBytes) tail) = len := by
  intro tail first head n₁ n₂
  have htail : tail = dest + len := Target.add_of_lt h
  -- near the top of memory `dest + mask` wraps to an address below the first word
  have hfirst : first = wordFloor T (dest + (T.ptrBytes - 1)) ∨
      (first = 0 ∧ T.space ≤ dest + (T.ptrBytes - 1)) := by
    rcases Nat.lt_or_ge (dest + (T.ptrBytes - 1)) T.space with hlt | hge
    · left; exact congrArg (wordFloor T) (Target.add_of_lt hlt)
    · right
      refine ⟨?_, hge⟩
      show T.add dest (T.ptrBytes - 1) / T.ptrBytes * T.ptrBytes = 0
      have hb := T.ptrBytes_bounds
      have hs := T.space_bounds
      have : T.add dest (T.ptrBytes - 1) < T.ptrBytes := by
        unfold Target.add
        rw [Nat.mod_eq_sub_mod hge, Nat.mod_eq_of_lt (by omega)]; omega
      rw [Nat.div_eq_of_lt this, Nat.zero_mul]
  have hhead : head = first ∧ first ≤ tail ∨ head = tail := by
    simp only [head]
    split_ifs with hp
    · left; exact ⟨rfl, hp.2⟩
    · right; rfl
  have hn1 : n₁ = head - dest := rounds_one _ _
  rw [rounds_one]
  simp only [n₂, rounds]
  unfold wordFloor at hfirst ⊢
  rcases T.ptr_cases with hw | hw <;> rcases T.space_cases with hs | hs <;>
    rw [hw] at hfirst ⊢ <;> rw [hs] at hfirst h <;> omega

/-- Head, body and tail of a forward copy. -/
theorem copy_phases {k d s n₁ n₂ n₃ len : ℕ} (hlen : n₁ + (n₂ * k + n₃) = len)
    (h : d ≤ s ∨ s + len ≤ d) :
    (movesUp 1 d s n₁ ++ (movesUp k (d + n₁) (s + n₁) n₂ ++
      movesUp 1 (d + n₁ + n₂ * k) (s + n₁ + n₂ * k) n₃)).foldl Move.run m = m.copy d s len := by
  rw [List.foldl_append, List.foldl_append, movesUp_run (by omega), movesUp_run (by omega),
    movesUp_run (by omega), Nat.mul_one, Nat.mul_one, Mem.copy_add (by omega),
    Mem.copy_add (by omega), hlen]

/-- Head, body and tail of a fill. -/
theorem fill_phases {d c n₁ n₂ n₃ len : ℕ} (hc : c < 256)
    (hlen : n₁ + (n₂ * T.ptrBytes + n₃) = len) :
    bytesFill (wordsFill T (bytesFill m d (UInt8.ofNat c) n₁) (d + n₁)
        (c * if T.ptrBytes = 8 then 0x0101010101010101 else 0x01010101) n₂)
      (d + n₁ + n₂ * T.ptrBytes) (UInt8.ofNat c) n₃ = m.fill d len (UInt8.ofNat c) := by
  rw [bytesFill_eq, wordsFill_eq hc, bytesFill_eq, Mem.fill_add, Mem.fill_add, hlen]

/-! ### What the functions do -/

/-- **`memcpy` copies the block**, also onto a lower overlapping range. -/
theorem memcpy_eq_copy {dest src len : ℕ} (hd : dest + len < T.space)
    (h : dest ≤ src ∨ src + len ≤ dest) : memcpy T m dest src len = m.copy dest src len := by
  unfold memcpy memcpyMoves
  split_ifs with hx h0
  · rw [movesUp_run (by omega), Nat.mul_one]
  · funext x
    rw [List.foldl_nil]
    rcases h0 with rfl | rfl
    · unfold Mem.copy
      split_ifs
      · congr 1; omega
      · rfl
    · rw [Mem.copy_zero]
  · exact copy_phases (phases hd (dest % T.ptrBytes = src % T.ptrBytes)) h

/-- **`memset` fills the range** with the low byte of `c`. -/
theorem memset_eq_fill {dest len : ℕ} {c : ℤ} (hd : dest + len < T.space) :
    memset T m dest c len = m.fill dest len (UInt8.ofNat (c % 256).toNat) := by
  have hc : (c % 256).toNat < 256 := by omega
  have hlen := phases hd True
  simp only [true_and] at hlen
  unfold memset
  exact fill_phases hc hlen

/-- **`memset` sets every byte of the range** to `c` as an `unsigned char`, and no other byte, for
every range and every alignment of it. -/
theorem memset_bytes (T : Target) (m : Mem) {dest len : ℕ} (c : ℤ) (hd : dest + len < T.space) :
    (∀ x, dest ≤ x → x < dest + len → ((memset T m dest c len x).toNat : ℤ) = c % 256) ∧
    ∀ x, (x < dest ∨ dest + len ≤ x) → memset T m dest c len x = m x := by
  rw [memset_eq_fill hd]
  refine ⟨fun x h1 h2 => ?_, fun x => Mem.fill_of_notMem⟩
  rw [Mem.fill_of_mem h1 h2, UInt8.toNat_ofNat']
  omega

theorem memset_bytes_negative :
    (∀ x, 4097 ≤ x → x < 4097 + 10 →
      ((memset .riscv32 (fun _ => 0) 4097 (-2) 10 x).toNat : ℤ) = -2 % 256) ∧
    ∀ x, (x < 4097 ∨ 4097 + 10 ≤ x) → memset .riscv32 (fun _ => 0) 4097 (-2) 10 x = 0 :=
  memset_bytes .riscv32 _ _ (by decide)

/-- **`memmove` to a lower address copies the block.** -/
theorem memmove_eq_copy_of_le {dest src len : ℕ} (hd : dest + len < T.space) (h : dest ≤ src) :
    memmove T m dest src len = some (m.copy dest src len) := by
  unfold memmove
  rw [if_pos (Or.inl h), memcpy_eq_copy hd (Or.inl h)]

/-! ### What `memcpy` reads and writes -/

/-- The copy byte by byte: `n` rounds of `*(d++) = *(s++)`. -/
def bytesUp (m : Mem) (d s : ℕ) : ℕ → Mem
  | 0 => m
  | n + 1 => bytesUp (m.set d (m s)) (d + 1) (s + 1) n

theorem bytesUp_eq : ∀ {m : Mem} {d s n : ℕ}, (d ≤ s ∨ s + n ≤ d) → bytesUp m d s n = m.copy d s n
  | m, d, s, 0, _ => Mem.copy_zero.symm
  | m, d, s, n + 1, h => by
    rw [bytesUp, bytesUp_eq (by omega), Mem.set_eq_copy, Mem.copy_add (by omega), Nat.add_comm 1]

/-- The assignment reads inside `[src, src + len)` and writes the same place of
`[dest, dest + len)`. -/
def Move.Inside (dest src len : ℕ) (mv : Move) : Prop :=
  ∃ i, mv.dest = dest + i ∧ mv.src = src + i ∧ i + mv.size ≤ len

theorem movesUp_inside {k dest src len : ℕ} : ∀ {i n : ℕ}, i + n * k ≤ len →
    ∀ mv ∈ movesUp k (dest + i) (src + i) n, mv.Inside dest src len
  | i, 0, _ => by simp [movesUp]
  | i, n + 1, h => by
    have hn : (n + 1) * k = k + n * k := by ring
    rw [movesUp, List.forall_mem_cons]
    refine ⟨⟨i, rfl, rfl, by show i + k ≤ len; omega⟩, ?_⟩
    rw [Nat.add_assoc, Nat.add_assoc]
    exact movesUp_inside (by omega)

/-- Head, body and tail of a forward copy. -/
theorem phases_inside {k d s n₁ n₂ n₃ len : ℕ} (hlen : n₁ + (n₂ * k + n₃) = len) :
    ∀ mv ∈ movesUp 1 d s n₁ ++ (movesUp k (d + n₁) (s + n₁) n₂ ++
      movesUp 1 (d + n₁ + n₂ * k) (s + n₁ + n₂ * k) n₃), mv.Inside d s len := by
  rw [List.forall_mem_append, List.forall_mem_append]
  refine ⟨movesUp_inside (i := 0) (by omega), movesUp_inside (by omega), ?_⟩
  rw [Nat.add_assoc, Nat.add_assoc]
  exact movesUp_inside (by omega)

theorem memcpyMoves_inside {dest src len : ℕ} (hd : dest + len < T.space) :
    ∀ mv ∈ memcpyMoves T dest src len, mv.Inside dest src len := by
  unfold memcpyMoves
  split_ifs
  · exact movesUp_inside (i := 0) (by omega)
  · simp
  · exact phases_inside (phases hd (dest % T.ptrBytes = src % T.ptrBytes))

/-- **`memcpy` is a copy byte by byte**: for every alignment, and ranges that are disjoint or with
the destination first, the memory afterwards is that of one byte assignment after the other, which
is a copy of the block; and no assignment reads outside the source or writes outside the
destination. -/
theorem memcpy_accesses (T : Target) (m : Mem) {dest src len : ℕ} (hd : dest + len < T.space)
    (h : dest ≤ src ∨ src + len ≤ dest) :
    memcpy T m dest src len = bytesUp m dest src len ∧
    memcpy T m dest src len = m.copy dest src len ∧
    memcpy T m dest src len = (memcpyMoves T dest src len).foldl Move.run m ∧
    ∀ mv ∈ memcpyMoves T dest src len, mv.Inside dest src len :=
  ⟨(memcpy_eq_copy hd h).trans (bytesUp_eq h).symm, memcpy_eq_copy hd h, rfl,
    memcpyMoves_inside hd⟩

theorem memcpy_accesses_words : memcpy .riscv32 (fun a => UInt8.ofNat a) 4098 8194 7 =
      bytesUp (fun a => UInt8.ofNat a) 4098 8194 7 ∧
    memcpy .riscv32 (fun a => UInt8.ofNat a) 4098 8194 7 =
      Mem.copy (fun a => UInt8.ofNat a) 4098 8194 7 ∧
    memcpy .riscv32 (fun a => UInt8.ofNat a) 4098 8194 7 =
      (memcpyMoves .riscv32 4098 8194 7).foldl Move.run (fun a => UInt8.ofNat a) ∧
    ∀ mv ∈ memcpyMoves .riscv32 4098 8194 7, mv.Inside 4098 8194 7 :=
  memcpy_accesses .riscv32 (fun a => UInt8.ofNat a) (by decide) (by decide)

/-! ### The backward copy -/

section Backward
variable {dest src len : ℕ}

/-- The head of a backward copy is all of it: with pointers that are equally aligned the ranges are
at least a word apart, and then there is a word boundary behind `dest`. -/
theorem head_eq_dest (h1 : src < dest) (h2 : dest < src + len) :
    ¬ ((dest + len) % T.ptrBytes = (src + len) % T.ptrBytes ∧ wordFloor T (dest + len) < dest) := by
  unfold wordFloor
  rcases T.ptr_cases with hw | hw <;> rw [hw] <;> omega

theorem wordsDown_stop {body fuel dw sw : ℕ} (h : dw ≤ body) (hfuel : 0 < fuel) :
    wordsDown T body fuel m dw sw = some (m, dw, sw) := by
  obtain ⟨k, rfl⟩ := Nat.exists_eq_add_of_le' hfuel
  rw [wordsDown, if_neg (not_lt.mpr h)]

/-- The boundary of the body is not below `dest`, unless it is computed as 0. -/
theorem le_body (h : dest + T.ptrBytes ≤ T.space) :
    dest ≤ wordFloor T (T.add dest (T.ptrBytes - 1)) := by
  have hw := T.ptrBytes_bounds
  rw [Target.add_of_lt (by omega)]
  unfold wordFloor
  rcases T.ptr_cases with h | h <;> rw [h] <;> omega

/-- A pointer that moves by words keeps its place within the word, also where it wraps. -/
theorem sub_mod_word {a : ℕ} : T.sub a T.ptrBytes % T.ptrBytes = a % T.ptrBytes := by
  have hw := T.ptrBytes_bounds
  have hs := T.space_bounds
  obtain ⟨k, hk⟩ := T.ptrBytes_dvd_space
  have hsub : T.space - T.ptrBytes = T.ptrBytes * (k - 1) := by
    rw [Nat.mul_sub_one, ← hk]
  rw [Target.sub, Nat.mod_mod_of_dvd _ T.ptrBytes_dvd_space, hsub, Nat.add_mul_mod_self_left]

/-- **The loop down to address 0 does not end** for a pointer that is not aligned. -/
theorem wordsDown_none : ∀ {fuel : ℕ} {m : Mem} {dw sw : ℕ}, dw % T.ptrBytes ≠ 0 →
    wordsDown T 0 fuel m dw sw = none
  | 0, _, _, _, _ => rfl
  | fuel + 1, m, dw, sw, h => by
    have hpos : 0 < dw := by
      rcases Nat.eq_zero_or_pos dw with rfl | hpos
      · exact absurd (Nat.zero_mod _) h
      · exact hpos
    rw [wordsDown, if_pos hpos]
    exact wordsDown_none (by rwa [sub_mod_word])

/-- The backward copy: all bytes in the head, and then the loop of the body. -/
theorem memmove_backward (hd : dest + len < T.space) (hs : src + len < T.space) (h1 : src < dest)
    (h2 : dest < src + len) : memmove T m dest src len =
      (wordsDown T (wordFloor T (T.add dest (T.ptrBytes - 1))) T.space (m.copy dest src len)
        dest src).map fun r => bytesDown r.1 r.2.1 r.2.2 (rounds 1 dest r.2.1) := by
  have hadd : T.add src len = src + len := Target.add_of_lt hs
  have hno : ¬ (dest ≤ src ∨ T.add src len ≤ dest) := by
    rw [hadd]
    omega
  unfold memmove
  rw [if_neg hno]
  dsimp only
  rw [hadd, Target.add_of_lt hd, if_neg (head_eq_dest h1 h2), rounds_one, Nat.add_sub_cancel_left,
    Nat.add_sub_cancel, Nat.add_sub_cancel, bytesDown_eq h1.le]
  cases wordsDown T (wordFloor T (T.add dest (T.ptrBytes - 1))) T.space (m.copy dest src len)
    dest src <;> rfl

/-- **When `memmove` moves the block**: for all ranges, overlapping or not, with whatever alignment,
exactly unless it has to copy backwards and there is no word boundary above `dest` in the address
space: there the boundary is computed as 0, and the loop of the body does not end. -/
theorem memmove_eq_copy_iff (T : Target) (m : Mem) {dest src len : ℕ} (hd : dest + len < T.space)
    (hs : src + len < T.space) : memmove T m dest src len = some (m.copy dest src len) ↔
      ¬ (src < dest ∧ dest < src + len ∧ T.space < dest + T.ptrBytes) := by
  have hw := T.ptrBytes_bounds
  have hspace := T.space_bounds
  by_cases hfwd : dest ≤ src ∨ src + len ≤ dest
  · refine iff_of_true ?_ (by omega)
    unfold memmove
    rw [Target.add_of_lt hs, if_pos hfwd, memcpy_eq_copy hd hfwd]
  obtain ⟨h1, h2⟩ := not_or.mp hfwd
  rw [memmove_backward hd hs (by omega) (by omega)]
  by_cases hwrap : T.space < dest + T.ptrBytes
  · refine iff_of_false ?_ fun h => h ⟨by omega, by omega, hwrap⟩
    have hbody : wordFloor T (T.add dest (T.ptrBytes - 1)) = 0 := by
      have hlt : T.add dest (T.ptrBytes - 1) < T.ptrBytes := by
        unfold Target.add
        rw [Nat.mod_eq_sub_mod (by omega), Nat.mod_eq_of_lt (by omega)]
        omega
      rw [wordFloor, Nat.div_eq_of_lt hlt, Nat.zero_mul]
    have hmod : dest % T.ptrBytes ≠ 0 := by
      rcases T.ptr_cases with h | h <;> rcases T.space_cases with h' | h' <;>
        rw [h] at hwrap ⊢ <;> rw [h'] at hwrap hd <;> omega
    rw [hbody, wordsDown_none hmod]
    exact Option.some_ne_none _ ∘ Eq.symm
  · refine iff_of_true ?_ (by omega)
    rw [wordsDown_stop (le_body (by omega)) (by omega), Option.map_some, rounds_one, Nat.sub_self]
    rfl

end Backward

theorem memmove_eq_copy_iff_overlap :
    memmove .riscv32 (fun a => UInt8.ofNat a) 4097 4096 6 =
      some (Mem.copy (fun a => UInt8.ofNat a) 4097 4096 6) :=
  (memmove_eq_copy_iff .riscv32 (fun a => UInt8.ofNat a) (by decide) (by decide)).mpr (by decide)

/-- Two bytes moved up by one, up to the last byte but one of the address space. -/
theorem memmove_top : memmove .riscv32 (fun _ => 0) 0xfffffffd 0xfffffffc 2 = none := by
  rw [memmove_backward (by decide) (by decide) (by decide) (by decide)]
  exact congrArg _ (wordsDown_none (by decide))

end Noc.Memcpy
