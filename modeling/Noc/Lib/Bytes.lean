import Mathlib.Data.Nat.Init
import Mathlib.Data.Nat.Notation
import Mathlib.Tactic.Ring
import Mathlib.Tactic.SplitIfs

/-! # Byte memories

A memory is a function from addresses to bytes. A word of `k` bytes is stored with its low byte
first (`load`, `store`), a block is copied as if through a buffer (`copy`), and `fill` writes one
byte over a range. The lemmas say which bytes an operation writes and that it leaves the others
alone: two memories that agree on the bytes of a word hold the same word there (`load_congr`), a
store is read back (`load_store`), and disjoint words do not see it (`load_store_of_disj`). -/

namespace Noc.Lib.Bytes

/-- A memory: the byte at every address. -/
abbrev Mem : Type := ℕ → UInt8

namespace Mem

/-- The memory with the byte `b` at `a`. -/
def set (m : Mem) (a : ℕ) (b : UInt8) : Mem := fun x => if x = a then b else m x

/-- The number whose `k` bytes, low byte first, start at `a`. -/
def load (m : Mem) (a : ℕ) : ℕ → ℕ
  | 0 => 0
  | k + 1 => (m a).toNat + 256 * load m (a + 1) k

/-- The memory with the `k` low bytes of `v` at `a`, low byte first. -/
def store (m : Mem) (a k v : ℕ) : Mem :=
  fun x => if a ≤ x ∧ x < a + k then UInt8.ofNat (v / 256 ^ (x - a)) else m x

/-- The memory with the `n` bytes at `src` written to `dst`, as if through a buffer. -/
def copy (m : Mem) (dst src n : ℕ) : Mem :=
  fun x => if dst ≤ x ∧ x < dst + n then m (src + (x - dst)) else m x

/-- The memory with `n` bytes `b` from `dst`. -/
def fill (m : Mem) (dst n : ℕ) (b : UInt8) : Mem :=
  fun x => if dst ≤ x ∧ x < dst + n then b else m x

variable {m m' : Mem} {a b k n v : ℕ}

/-! ### Words -/

theorem load_lt (m : Mem) : ∀ a k, load m a k < 256 ^ k
  | _, 0 => by simp [load]
  | a, k + 1 => by
    have h1 := load_lt m (a + 1) k
    have h2 := (m a).toNat_lt
    have h3 : 256 ^ (k + 1) = 256 * 256 ^ k := by ring
    rw [load, h3]; omega

/-- The word at `a` depends on its `k` bytes only. -/
theorem load_congr : ∀ {a k : ℕ}, (∀ x, a ≤ x → x < a + k → m' x = m x) → load m' a k = load m a k
  | _, 0, _ => rfl
  | a, k + 1, h => by
    rw [load, load, h a (by omega) (by omega)]
    rw [load_congr (a := a + 1) (k := k) fun x h1 h2 => h x (by omega) (by omega)]

/-- A memory with the bytes of `v` at `a` holds `v` there. -/
theorem load_of_bytes : ∀ {a k v : ℕ},
    (∀ i < k, m (a + i) = UInt8.ofNat (v / 256 ^ i)) → load m a k = v % 256 ^ k
  | _, 0, _, _ => by rw [load, pow_zero, Nat.mod_one]
  | a, k + 1, v, h => by
    have h0 : (m a).toNat = v % 256 := by
      have := h 0 (by omega)
      rw [Nat.add_zero, pow_zero, Nat.div_one] at this
      rw [this]; rfl
    have ih : load m (a + 1) k = v / 256 % 256 ^ k := by
      refine load_of_bytes fun i hi => ?_
      rw [Nat.div_div_eq_div_mul, ← pow_succ', ← h (i + 1) (by omega)]
      congr 1; omega
    rw [load, h0, ih, pow_succ', Nat.mod_mul]

theorem load_store (hv : v < 256 ^ k) : load (store m a k v) a k = v := by
  rw [load_of_bytes (v := v) fun i hi => ?_, Nat.mod_eq_of_lt hv]
  unfold store
  rw [if_pos (by omega), Nat.add_sub_cancel_left]

theorem store_of_notMem {x : ℕ} (h : x < a ∨ a + k ≤ x) : store m a k v x = m x := by
  unfold store; rw [if_neg (by omega)]

theorem load_store_of_disj (h : b + n ≤ a ∨ a + k ≤ b) : load (store m a k v) b n = load m b n :=
  load_congr fun _ _ _ => store_of_notMem (by omega)

/-- Byte `i` of the word loaded at `a`. -/
theorem byte_load : ∀ {a k i : ℕ}, i < k → UInt8.ofNat (load m a k / 256 ^ i) = m (a + i)
  | a, k + 1, 0, _ => by
    rw [load, pow_zero, Nat.div_one]
    refine UInt8.toNat_inj.mp ?_
    rw [UInt8.toNat_ofNat', Nat.add_zero, show 2 ^ 8 = 256 from rfl, Nat.add_mul_mod_self_left]
    exact Nat.mod_eq_of_lt (m a).toNat_lt
  | a, k + 1, i + 1, h => by
    have h2 := (m a).toNat_lt
    rw [load, pow_succ', ← Nat.div_div_eq_div_mul,
      show ((m a).toNat + 256 * load m (a + 1) k) / 256 = load m (a + 1) k by omega,
      byte_load (by omega)]
    congr 1; omega

/-! ### Bytes -/

theorem set_self {b : UInt8} : set m a b a = b := if_pos rfl

theorem set_of_ne {b : UInt8} {x : ℕ} (h : x ≠ a) : set m a b x = m x := if_neg h

/-! ### Blocks -/

theorem copy_of_notMem {d s x : ℕ} (h : x < d ∨ d + n ≤ x) : copy m d s n x = m x := by
  unfold copy; rw [if_neg (by omega)]

theorem copy_of_lt {d s i : ℕ} (h : i < n) : copy m d s n (d + i) = m (s + i) := by
  unfold copy; rw [if_pos (by omega), Nat.add_sub_cancel_left]

/-- Writing back a word read elsewhere copies its bytes. -/
theorem store_load {d s : ℕ} : store m d k (load m s k) = copy m d s k := by
  funext x
  unfold store copy
  split_ifs with h
  · exact byte_load (by omega)
  · rfl

theorem set_eq_copy {d s : ℕ} : set m d (m s) = copy m d s 1 := by
  funext x
  unfold set copy
  by_cases hx : x = d
  · subst hx; simp
  · rw [if_neg hx, if_neg (by omega)]

theorem copy_self {d : ℕ} : copy m d d n = m := by
  funext x
  unfold copy
  split_ifs with h
  · rw [show d + (x - d) = x by omega]
  · rfl

theorem copy_zero {d s : ℕ} : copy m d s 0 = m := by
  funext x; exact copy_of_notMem (by omega)

/-- **Two forward copies make one** when the destination does not start inside the source. -/
theorem copy_add {d s n₁ n₂ : ℕ} (h : d ≤ s ∨ s + (n₁ + n₂) ≤ d) :
    copy (copy m d s n₁) (d + n₁) (s + n₁) n₂ = copy m d s (n₁ + n₂) := by
  funext x
  by_cases hx : d ≤ x ∧ x < d + (n₁ + n₂)
  swap; · rw [copy_of_notMem (by omega), copy_of_notMem (by omega), copy_of_notMem (by omega)]
  obtain ⟨i, rfl⟩ := Nat.exists_eq_add_of_le hx.1
  rw [copy_of_lt (show i < n₁ + n₂ by omega)]
  rcases Nat.lt_or_ge i n₁ with hi | hi
  · rw [copy_of_notMem (by omega), copy_of_lt hi]
  · rw [show d + i = d + n₁ + (i - n₁) by omega, copy_of_lt (by omega),
      copy_of_notMem (by omega)]
    congr 1; omega

/-- **Two backward copies make one** when the destination is not below the source: the second part
goes first. -/
theorem copy_add_down {d s n₁ n₂ : ℕ} (h : s ≤ d) :
    copy (copy m (d + n₁) (s + n₁) n₂) d s n₁ = copy m d s (n₁ + n₂) := by
  funext x
  by_cases hx : d ≤ x ∧ x < d + (n₁ + n₂)
  swap; · rw [copy_of_notMem (by omega), copy_of_notMem (by omega), copy_of_notMem (by omega)]
  obtain ⟨i, rfl⟩ := Nat.exists_eq_add_of_le hx.1
  rw [copy_of_lt (show i < n₁ + n₂ by omega)]
  rcases Nat.lt_or_ge i n₁ with hi | hi
  · rw [copy_of_lt hi, copy_of_notMem (by omega)]
  · rw [copy_of_notMem (by omega), show d + i = d + n₁ + (i - n₁) by omega, copy_of_lt (by omega)]
    congr 1; omega

theorem fill_zero {d : ℕ} {c : UInt8} : fill m d 0 c = m := by
  funext x; unfold fill; rw [if_neg (by omega)]

theorem fill_add {d n₁ n₂ : ℕ} {c : UInt8} :
    fill (fill m d n₁ c) (d + n₁) n₂ c = fill m d (n₁ + n₂) c := by
  funext x
  unfold fill
  split_ifs <;> first | rfl | omega

theorem fill_of_notMem {d x : ℕ} {c : UInt8} (h : x < d ∨ d + n ≤ x) : fill m d n c x = m x := by
  unfold fill; rw [if_neg (by omega)]

theorem fill_of_mem {d x : ℕ} {c : UInt8} (h1 : d ≤ x) (h2 : x < d + n) : fill m d n c x = c := by
  unfold fill; rw [if_pos ⟨h1, h2⟩]

end Mem

end Noc.Lib.Bytes
