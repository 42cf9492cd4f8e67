import Noc.Memcpy

/-! # The backward copy of `memmove`

The assignments of `memmove` when it has to copy from the end, phase by phase
(`backwardPhases`). The head is meant to stop at the last word boundary of the destination, so that
the words below it are moved by the body (`WordPath`). But the test that selects this boundary asks
for `dest` to be above it, and then the head goes down to `dest` itself:

* `memmove_eq_phases`: the phases are what `memmove` does.
* `backwardPhases_bytes`: all of a block is moved by single bytes.
* `no_word_path`: no backward copy takes the path by words. -/

namespace Noc.Memcpy

open Noc.Lib.Bytes Noc.Targets

/-- The assignments of a loop whose pointers move down by `k`. -/
def movesDown (k d s : ℕ) : ℕ → List Move
  | 0 => []
  | n + 1 => ⟨d - k, s - k, k⟩ :: movesDown k (d - k) (s - k) n

/-- The assignments of the loop `while (dw > body) *(--dw) = *(--sw)`, and the two pointers behind
it. -/
def wordMovesDown (T : Target) (body : ℕ) : ℕ → ℕ → ℕ → Option (List Move × ℕ × ℕ)
  | 0, _, _ => none
  | fuel + 1, dw, sw =>
    if body < dw then
      let dw := T.sub dw T.ptrBytes
      let sw := T.sub sw T.ptrBytes
      (wordMovesDown T body fuel dw sw).map fun r => (⟨dw, sw, T.ptrBytes⟩ :: r.1, r.2)
    else some ([], dw, sw)

/-- The assignments of a backward copy, and where `d` is behind the head. -/
structure Phases where
  head : List Move
  stop : ℕ
  body : List Move
  tail : List Move

/-- The phases of `memmove(dest, src, len)` if it copies from the end, and if it ends. -/
def backwardPhases (T : Target) (dest src len : ℕ) : Option Phases :=
  let mask := T.ptrBytes - 1
  let d := T.add dest len
  let s := T.add src len
  let tail := dest
  let body := wordFloor T (T.add tail mask)
  let head :=
    if d % T.ptrBytes = s % T.ptrBytes ∧ wordFloor T d < tail then wordFloor T d else tail
  let n₁ := rounds 1 head d
  (wordMovesDown T body T.space (d - n₁) (s - n₁)).map fun (moves, d', s') =>
    ⟨movesDown 1 d s n₁, d - n₁, moves, movesDown 1 d' s' (rounds 1 tail d')⟩

variable {T : Target} {m : Mem} {dest src len : ℕ}

/-! ### The phases are what `memmove` does -/

theorem bytesDown_eq_moves : ∀ {m : Mem} {d s n : ℕ},
    bytesDown m d s n = (movesDown 1 d s n).foldl Move.run m
  | m, d, s, 0 => rfl
  | m, d, s, n + 1 => by
    rw [bytesDown, bytesDown_eq_moves, movesDown, List.foldl_cons, Mem.set_eq_copy,
      ← Mem.store_load]
    rfl

theorem wordsDown_eq_moves {body : ℕ} : ∀ {fuel : ℕ} {m : Mem} {dw sw : ℕ},
    wordsDown T body fuel m dw sw =
      (wordMovesDown T body fuel dw sw).map fun r => (r.1.foldl Move.run m, r.2)
  | 0, _, _, _ => rfl
  | fuel + 1, m, dw, sw => by
    rw [wordsDown, wordMovesDown]
    split_ifs
    · rw [wordsDown_eq_moves, Option.map_map]
      rfl
    · rfl

/-- The assignments of the phases are what a backward copy does. -/
theorem memmove_eq_phases (h : ¬ (dest ≤ src ∨ T.add src len ≤ dest)) :
    memmove T m dest src len =
      (backwardPhases T dest src len).map fun p =>
        (p.head ++ (p.body ++ p.tail)).foldl Move.run m := by
  unfold memmove backwardPhases
  rw [if_neg h]
  dsimp only
  rw [bytesDown_eq_moves, wordsDown_eq_moves, Option.map_map]
  cases wordMovesDown T (wordFloor T (T.add dest (T.ptrBytes - 1))) T.space _ _ with
  | none => rfl
  | some r =>
    simp only [Option.map_some, Function.comp_apply, List.foldl_append, bytesDown_eq_moves]

/-! ### The path by words -/

/-- The path that is meant: the head stops at the highest word boundary at or below the end, which
is not below `dest`; each aligned word inside the destination is moved by one assignment of the
body; and each byte below these words by one of the tail. -/
structure WordPath (T : Target) (dest src len : ℕ) (p : Phases) : Prop where
  stop : p.stop = wordFloor T (dest + len)
  le : dest ≤ p.stop
  words : ∀ x, T.ptrBytes ∣ x → dest ≤ x → x + T.ptrBytes ≤ dest + len →
    (p.body.filter fun mv => mv.dest = x) = [⟨x, src + (x - dest), T.ptrBytes⟩]
  rest : ∀ x, dest ≤ x → x < p.stop → x < wordFloor T (dest + (T.ptrBytes - 1)) →
    (p.tail.filter fun mv => mv.dest = x) = [⟨x, src + (x - dest), 1⟩]

theorem wordMovesDown_stop {body fuel dw sw : ℕ} (h : dw ≤ body) (hfuel : 0 < fuel) :
    wordMovesDown T body fuel dw sw = some ([], dw, sw) := by
  obtain ⟨k, rfl⟩ := Nat.exists_eq_add_of_le' hfuel
  rw [wordMovesDown, if_neg (not_lt.mpr h)]

/-- **A backward copy moves single bytes**, all of them in the head, whatever the alignment. -/
theorem backwardPhases_bytes (hd : dest + len < T.space) (hs : src + len < T.space)
    (h1 : src < dest) (h2 : dest < src + len) (h3 : dest + T.ptrBytes ≤ T.space) :
    backwardPhases T dest src len =
      some ⟨movesDown 1 (dest + len) (src + len) len, dest, [], []⟩ := by
  unfold backwardPhases
  dsimp only
  rw [Target.add_of_lt hd, Target.add_of_lt hs, if_neg (head_eq_dest h1 h2), rounds_one,
    Nat.add_sub_cancel_left, Nat.add_sub_cancel, wordMovesDown_stop (le_body h3) (by omega),
    Option.map_some]
  dsimp only
  rw [rounds_one, Nat.sub_self]
  rfl

/-- Where the head stops. -/
theorem stop_of_phases {p : Phases} (h : backwardPhases T dest src len = some p) :
    p.stop = T.add dest len - (T.add dest len -
      if T.add dest len % T.ptrBytes = T.add src len % T.ptrBytes ∧
        wordFloor T (T.add dest len) < dest then wordFloor T (T.add dest len) else dest) := by
  obtain ⟨r, -, rfl⟩ := Option.map_eq_some_iff.mp h
  dsimp only
  rw [rounds_one]

/-- **No backward copy takes the path by words**: for every call that copies from the end with
pointers that are equally aligned, the head does not stop at the last word boundary. -/
theorem no_word_path (T : Target) {dest src len : ℕ} (h : ¬ (dest ≤ src ∨ T.add src len ≤ dest))
    (hmod : dest % T.ptrBytes = src % T.ptrBytes) :
    ¬ ∃ p, backwardPhases T dest src len = some p ∧ WordPath T dest src len p := by
  rintro ⟨p, hp, hpath⟩
  have hstop := (stop_of_phases hp).symm.trans hpath.stop
  have hspace := T.space_bounds
  obtain ⟨h1, h2⟩ := not_or.mp h
  have hle : T.add src len ≤ src + len := Nat.mod_le _ _
  by_cases hend : dest + len < T.space
  · -- the destination is more than a word long
    rw [Target.add_of_lt hend, Target.add_of_lt (show src + len < T.space by omega),
      if_neg (head_eq_dest (by omega) (by omega))] at hstop
    unfold wordFloor at hstop
    rcases T.ptr_cases with hw | hw <;> rw [hw] at hstop hmod <;> omega
  · -- the end has wrapped, and no pointer is that high
    have hlt : T.add dest len < T.space := Nat.mod_lt _ (by omega)
    have hfloor : T.space ≤ wordFloor T (dest + len) := by
      obtain ⟨k, hk⟩ := T.ptrBytes_dvd_space
      have hw := T.ptrBytes_bounds
      have hk' : k ≤ (dest + len) / T.ptrBytes :=
        (Nat.le_div_iff_mul_le (by omega)).mpr (by rw [Nat.mul_comm, ← hk]; omega)
      unfold wordFloor
      rw [hk, Nat.mul_comm]
      exact Nat.mul_le_mul_right _ hk'
    omega

theorem no_word_path_riscv32 : ¬ ∃ p, backwardPhases .riscv32 4103 4099 9 = some p ∧
    WordPath .riscv32 4103 4099 9 p :=
  no_word_path .riscv32 (by decide) (by decide)

/-- Two words, moved up by one word: 16 assignments of a byte. -/
theorem words_moved_by_bytes : ∃ p, backwardPhases .x8664 4104 4096 16 = some p ∧
    p.stop = 4104 ∧ wordFloor .x8664 (4104 + 16) = 4120 ∧ p.head.length = 16 ∧ p.body = [] ∧
    ¬ WordPath .x8664 4104 4096 16 p := by
  refine ⟨_, backwardPhases_bytes (by decide) (by decide) (by decide) (by decide) (by decide), rfl,
    rfl, rfl, rfl, fun h => ?_⟩
  exact absurd h.stop (by decide)

end Noc.Memcpy
