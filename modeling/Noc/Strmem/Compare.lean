import Noc.Lib.Spans
import Noc.Strmem.Length

/-! # Comparisons

`memcmp`, `strcmp` and `strncmp` as the source computes them: a loop that goes on while the bytes
are equal and something else holds, and three answers for `NULL`. With `strzcpy`, which cuts a copy:

* `strcmp_eq`, `strncmp_eq`, `memcmp_eq`: on strings, each is the first difference of the strings or
  of their first characters (`diff`).
* `comparisons_agree`: so all three are the one lexicographic order of unsigned bytes. -/

namespace Noc.Strmem

open Noc.Lib.Bytes Noc.Lib.Spans Noc.Lib.Text Noc.Targets

/-! ### The functions of the source -/

/-- `do { c1 = *s1++; c2 = *s2++; } while (c1 == c2 && more)` and the result, if the loop ends;
`more` sees the character and `s1` behind it. A pointer has no more than `T.space` values, so that
many rounds are enough. -/
def compareLoop (T : Target) (m : Mem) (more : UInt8 → ℕ → Bool) : ℕ → ℕ → ℕ → Option ℤ
  | 0, _, _ => none
  | fuel + 1, s1, s2 =>
    let c1 := m s1
    let c2 := m s2
    let s1 := T.add s1 1
    let s2 := T.add s2 1
    if c1 = c2 ∧ more c1 s1 then compareLoop T m more fuel s1 s2 else some (c1.toNat - c2.toNat)

/-- The checks for `NULL` and the loop. -/
def compareStrings (T : Target) (m : Mem) (more : UInt8 → ℕ → Bool) (s1 s2 : ℕ) : Option ℤ :=
  if s1 = 0 then some (if s2 ≠ 0 then -(m s2).toNat else 0)
  else if s2 = 0 then some (m s1).toNat
  else compareLoop T m more T.space s1 s2

/-- `memcmp` -/
def memcmp (T : Target) (m : Mem) (s1 s2 len : ℕ) : Option ℤ :=
  if len = 0 then some 0
  else
    let len := min len (platformMaxAddr T - s1)
    let saEnd := T.add s1 len
    compareStrings T m (fun _ sa => sa < saEnd) s1 s2

/-- `strcmp` -/
def strcmp (T : Target) (m : Mem) (s1 s2 : ℕ) : Option ℤ :=
  compareStrings T m (fun c1 _ => c1 ≠ 0) s1 s2

/-- `strncmp` -/
def strncmp (T : Target) (m : Mem) (s1 s2 len : ℕ) : Option ℤ :=
  if len = 0 then some 0
  else
    let len := min len (platformMaxAddr T - s1)
    let s1End := T.add s1 len
    compareStrings T m (fun c1 s1 => c1 ≠ 0 ∧ s1 < s1End) s1 s2

/-- The loop of `strzcpy` with room for `n` characters, and the NUL. -/
def strzcpyLoop (T : Target) : ℕ → Mem → ℕ → ℕ → Mem
  | 0, m, d, _ => m.set d 0
  | n + 1, m, d, src =>
    if m src ≠ 0 then strzcpyLoop T n (m.set d (m src)) (T.add d 1) (T.add src 1) else m.set d 0

/-- `strzcpy` -/
def strzcpy (T : Target) (m : Mem) (dest src len : ℕ) : Mem :=
  if len = 0 then m else strzcpyLoop T (len - 1) m dest src

variable {T : Target} {m m' : Mem} {a b n p q : ℕ} {s t : List UInt8}

/-! ### The loop -/

/-- The loop over two strings: where both have the same character, it goes on up to the address
`e`, and it ends with the strings. -/
theorem compareLoop_eq {more : UInt8 → ℕ → Bool} {e z : ℕ} (hz : z < T.space)
    (hmore : ∀ c ≠ 0, ∀ x ≤ z, (more c x = true ↔ x < e)) (hnul : more 0 (T.add z 1) = false) :
    ∀ {fuel a b : ℕ} {s t : List UInt8}, TextAt m a s → TextAt m b t → a + s.length = z →
      b + t.length < T.space → a < e → s.length < fuel →
      compareLoop T m more fuel a b = some (diff (s.take (e - a)) (t.take (e - a)))
  | fuel + 1, a, b, s, t, hs, ht, hza, hb, he, hfuel => by
    obtain ⟨k, hk⟩ := Nat.exists_eq_add_of_lt he
    rw [show e - a = k + 1 by omega, compareLoop]
    by_cases hne : m a = m b
    swap
    · rw [if_neg fun h => hne h.1, diff_of_ne hs ht hne]
    rcases s with _ | ⟨c, s⟩
    · -- both strings end here
      obtain rfl : a = z := hza
      have h0 : m a = 0 := hs
      rcases t with _ | ⟨d, t⟩
      · rw [if_neg, ← hne, Int.sub_self]
        · rfl
        · rw [h0, hnul]
          exact fun h => Bool.false_ne_true h.2
      · exact absurd (ht.2.1.symm.trans (hne.symm.trans h0)) ht.1
    · obtain ⟨h0, hc, hs⟩ := hs
      rcases t with _ | ⟨d, t⟩
      · exact absurd (hc.symm.trans (hne.trans ht)) h0
      obtain ⟨-, hd, ht⟩ := ht
      rw [List.length_cons] at hza hb hfuel
      rw [Target.add_of_lt (by omega), Target.add_of_lt (by omega), hc, hd]
      obtain rfl : c = d := hc.symm.trans (hne.trans hd)
      rw [List.take_succ_cons, List.take_succ_cons, diff, if_pos rfl]
      by_cases hlast : a + 1 < e
      · rw [if_pos ⟨rfl, (hmore c h0 _ (by omega)).mpr hlast⟩,
          compareLoop_eq hz hmore hnul hs ht (by omega) (by omega) hlast (by omega),
          show e - (a + 1) = k by omega]
      · obtain rfl : k = 0 := by omega
        rw [if_neg fun h => hlast ((hmore c h0 _ (by omega)).mp h.2), Int.sub_self]
        rfl

/-! ### The functions on strings -/

/-- `p` is `NULL` for the empty string, or a pointer to the string `s`. -/
def Text (T : Target) (m : Mem) (p : ℕ) (s : List UInt8) : Prop :=
  p = 0 ∧ s = [] ∨ p ≠ 0 ∧ TextAt m p s ∧ p + s.length ≤ platformMaxAddr T

theorem Text.notMem (h : Text T m p s) : (0 : UInt8) ∉ s := by
  rcases h with ⟨-, rfl⟩ | ⟨-, h, -⟩
  · exact List.not_mem_nil
  · exact h.notMem

/-- A string in front of the last address. -/
def Below (T : Target) (m : Mem) (p : ℕ) (s : List UInt8) : Prop :=
  Text T m p s ∧ p + s.length < platformMaxAddr T

/-- A comparison of at most `k` characters. -/
theorem compareStrings_eq {more : UInt8 → ℕ → Bool} {k : ℕ} (ha : Text T m a s) (hb : Text T m b t)
    (hk : 0 < k) (hmore : ∀ c ≠ 0, ∀ x ≤ a + s.length, (more c x = true ↔ x < a + k))
    (hnul : more 0 (T.add (a + s.length) 1) = false) :
    compareStrings T m more a b = some (diff (s.take k) (t.take k)) := by
  have hspace := T.space_bounds
  unfold compareStrings
  rcases ha with ⟨rfl, rfl⟩ | ⟨ha0, hs, ha⟩
  · rw [if_pos rfl, diff_take (by simpa using hk)]
    rcases hb with ⟨rfl, rfl⟩ | ⟨hb0, ht, -⟩
    · rfl
    · rw [if_pos hb0, diff_nil ht]
  · rw [if_neg ha0]
    rcases hb with ⟨rfl, rfl⟩ | ⟨hb0, ht, hb⟩
    · rw [if_pos rfl, diff_take (by simpa using hk), diff_swap, diff_nil hs, Int.neg_neg]
    · unfold platformMaxAddr at ha hb
      rw [if_neg hb0, compareLoop_eq (by omega) hmore hnul hs ht rfl (by omega) (by omega)
        (by omega), Nat.add_sub_cancel_left]

/-- **`strcmp`** is the first difference. -/
theorem strcmp_eq (ha : Text T m a s) (hb : Text T m b t) :
    strcmp T m a b = some (diff s t) := by
  have hlt : min s.length t.length < s.length + 1 := by omega
  rw [strcmp, compareStrings_eq (k := s.length + 1) ha hb (Nat.succ_pos _)
    (fun c h0 x hx => ?_) rfl, diff_take hlt]
  rw [decide_eq_true_iff]
  exact iff_of_true h0 (by omega)

/-- **`strncmp`** is the first difference of the first `n` characters. -/
theorem strncmp_eq (ha : Below T m a s) (hb : Text T m b t) :
    strncmp T m a b n = some (diff (s.take n) (t.take n)) := by
  obtain ⟨ha, hlt⟩ := ha
  unfold strncmp
  split_ifs with h0
  · rw [h0]
    rfl
  have hend : T.add a (min n (platformMaxAddr T - a)) = a + min n (platformMaxAddr T - a) :=
    Target.add_of_lt (by
      have := T.space_bounds
      unfold platformMaxAddr at hlt ⊢
      omega)
  dsimp only
  rw [hend, compareStrings_eq (k := min n (platformMaxAddr T - a)) ha hb (by omega)
    (fun c hc x hx => ?_) rfl]
  · rcases Nat.le_total n (platformMaxAddr T - a) with hle | hle
    · rw [Nat.min_eq_left hle]
    · rw [Nat.min_eq_right hle, diff_take (by omega), diff_take (by omega)]
  · rw [decide_eq_true_iff]
    exact and_iff_right hc

/-- **`memcmp`** up to the NUL of the shorter string is the first difference. -/
theorem memcmp_eq (ha : Below T m a s) (hb : Text T m b t) :
    memcmp T m a b (min s.length t.length + 1) = some (diff s t) := by
  obtain ⟨ha, hlt⟩ := ha
  have hspace := T.space_bounds
  have hlen : min (min s.length t.length + 1) (platformMaxAddr T - a) =
      min s.length t.length + 1 := by omega
  unfold memcmp
  unfold platformMaxAddr at hlt
  rw [if_neg (Nat.succ_ne_zero _), hlen]
  dsimp only
  rw [Target.add_of_lt (by omega), compareStrings_eq (k := min s.length t.length + 1) ha hb
    (Nat.succ_pos _) (fun c hc x hx => decide_eq_true_iff) ?_, diff_take (Nat.lt_succ_self _)]
  rw [Target.add_of_lt (by omega)]
  exact decide_eq_false (by omega)

/-! ### Copies that are cut -/

/-- The loop leaves the text that is cut, and writes nothing else. -/
theorem strzcpyLoop_text : ∀ {n : ℕ} {m : Mem} {d src : ℕ} {s : List UInt8}, TextAt m src s →
    src + s.length ≤ platformMaxAddr T → d + (s.take n).length ≤ platformMaxAddr T →
    (⟨d, (s.take n).length + 1⟩ : Span).Disj ⟨src, s.length + 1⟩ →
    TextAt (strzcpyLoop T n m d src) d (s.take n) ∧
      ∀ x, (x < d ∨ d + (s.take n).length < x) → strzcpyLoop T n m d src x = m x
  | 0, m, d, src, s, _, _, _, _ => by
    rw [List.take_zero]
    refine ⟨Mem.set_self, fun x hx => Mem.set_of_ne ?_⟩
    rw [List.length_nil] at hx
    omega
  | n + 1, m, d, src, [], h, _, _, _ => by
    rw [strzcpyLoop, if_neg (not_not.mpr (show m src = 0 from h)), List.take_nil]
    refine ⟨Mem.set_self, fun x hx => Mem.set_of_ne ?_⟩
    rw [List.length_nil] at hx
    omega
  | n + 1, m, d, src, c :: s, ⟨h0, hc, h⟩, hsrc, hd, hdisj => by
    have hspace := T.space_bounds
    rw [List.take_succ_cons, List.length_cons] at hd hdisj ⊢
    rw [List.length_cons] at hsrc hdisj
    simp only [Span.Disj, Span.stop] at hdisj
    have hsrc1 : T.add src 1 = src + 1 :=
      Target.add_of_lt (by unfold platformMaxAddr at hsrc; omega)
    have hd1 : T.add d 1 = d + 1 := Target.add_of_lt (by unfold platformMaxAddr at hd; omega)
    rw [strzcpyLoop, hc, if_pos h0, hd1, hsrc1]
    have hs : TextAt (m.set d c) (src + 1) s := h.congr fun x h1 h2 => Mem.set_of_ne (by omega)
    obtain ⟨h1, h2⟩ := strzcpyLoop_text hs (by omega) (show d + 1 + (s.take n).length ≤ _ by omega)
      (by simp only [Span.Disj, Span.stop]; omega)
    refine ⟨⟨h0, (h2 d (Or.inl (Nat.lt_succ_self d))).trans Mem.set_self, h1⟩, fun x hx => ?_⟩
    rw [h2 x (by omega)]
    exact Mem.set_of_ne (by omega)

/-- There is room at `p`, outside the string `s` at `a`, for its copy cut to `n` characters. -/
structure Room (T : Target) (a : ℕ) (s : List UInt8) (n p : ℕ) : Prop where
  ne_null : p ≠ 0
  le : p + (s.take n).length ≤ platformMaxAddr T
  disj : (⟨p, (s.take n).length + 1⟩ : Span).Disj ⟨a, s.length + 1⟩

/-- **`strzcpy` with the capacity `n + 1`** leaves the string cut to `n` characters, and nothing
else is written. -/
theorem strzcpy_text (ha : Text T m a s) (ha0 : a ≠ 0) (hr : Room T a s n p) :
    Text T (strzcpy T m p a (n + 1)) p (s.take n) ∧
      ∀ x, (x < p ∨ p + (s.take n).length < x) → strzcpy T m p a (n + 1) x = m x := by
  obtain ⟨-, hs, hle⟩ := ha.resolve_left fun h => ha0 h.1
  rw [strzcpy, if_neg (Nat.succ_ne_zero n), Nat.add_sub_cancel]
  obtain ⟨h1, h2⟩ := strzcpyLoop_text hs hle hr.le hr.disj
  exact ⟨Or.inr ⟨hr.ne_null, h1, hr.le⟩, h2⟩

/-- A string outside the bytes that change. -/
theorem Text.frame {d : ℕ} (hb : Text T m b t) (heq : ∀ x, (x < p ∨ p + d < x) → m' x = m x)
    (hdisj : (⟨p, d + 1⟩ : Span).Disj ⟨b, t.length + 1⟩) : Text T m' b t := by
  refine hb.imp id fun ⟨h0, ht, hle⟩ => ⟨h0, ht.congr fun x h1 h2 => heq x ?_, hle⟩
  simp only [Span.Disj, Span.stop] at hdisj
  omega

/-! ### One order -/

/-- The sign of `strcmp` is the order of the strings. -/
def Orders (T : Target) (m : Mem) (a b : ℕ) (s t : List UInt8) : Prop :=
  ∃ r, strcmp T m a b = some r ∧ (r < 0 ↔ s < t) ∧ (r = 0 ↔ s = t) ∧ (0 < r ↔ t < s)

theorem orders (ha : Text T m a s) (hb : Text T m b t) : Orders T m a b s t := by
  have hswap := diff_swap s t
  have hlt := diff_neg_iff hb.notMem ha.notMem
  refine ⟨diff s t, strcmp_eq ha hb, diff_neg_iff ha.notMem hb.notMem,
    diff_eq_zero_iff ha.notMem hb.notMem, ?_⟩
  rw [← hlt, hswap]
  omega

/-- The three comparisons agree on the strings `s` at `a`, `t` at `b` and `u` at `c`. -/
structure Agree (T : Target) (m : Mem) (a b c : ℕ) (s t u : List UInt8) : Prop where
  /-- `strncmp` is `strcmp` of the strings cut to `n` characters, wherever these are stored -/
  cut : ∀ n ≤ T.sizeMax, ∀ m' p q, Text T m' p (s.take n) → Text T m' q (t.take n) →
    strncmp T m a b n = strcmp T m' p q
  /-- so it is for the copies that `strzcpy` makes with the capacity `n + 1` -/
  copies : a ≠ 0 → b ≠ 0 → ∀ n < T.sizeMax, ∀ p q, Room T a s n p → Room T b t n q →
    (⟨p, (s.take n).length + 1⟩ : Span).Disj ⟨b, t.length + 1⟩ →
    (⟨q, (t.take n).length + 1⟩ : Span).Disj ⟨p, (s.take n).length + 1⟩ →
    strncmp T m a b n = strcmp T (strzcpy T (strzcpy T m p a (n + 1)) q b (n + 1)) p q
  /-- `strcmp` is `memcmp` up to the NUL of the shorter string -/
  bytes : strcmp T m a b = memcmp T m a b (min s.length t.length + 1)
  order : Orders T m a b s t
  antisymm : ∃ r, strcmp T m a b = some r ∧ strcmp T m b a = some (-r)
  trans : ∃ r r' r'', strcmp T m a b = some r ∧ strcmp T m b c = some r' ∧
    strcmp T m a c = some r'' ∧ (r ≤ 0 → r' ≤ 0 → r'' ≤ 0) ∧ (r ≤ 0 → r' < 0 → r'' < 0) ∧
    (r < 0 → r' ≤ 0 → r'' < 0)

/-- **The comparisons are one order**, for all strings in front of the last address, with `NULL` for
the empty one: `strncmp` is `strcmp` of cut strings, `strcmp` is `memcmp`, and its sign is the
lexicographic order of the unsigned bytes. -/
theorem comparisons_agree (T : Target) (m : Mem) {a b c : ℕ} {s t u : List UInt8}
    (ha : Below T m a s) (hb : Below T m b t) (hc : Below T m c u) : Agree T m a b c s t u := by
  have hcut : ∀ n m' p q, Text T m' p (s.take n) → Text T m' q (t.take n) →
      strncmp T m a b n = strcmp T m' p q := by
    intro n m' p q hp hq
    rw [strncmp_eq ha hb.1, strcmp_eq hp hq]
  refine ⟨fun n _ => hcut n, ?_, ?_, orders ha.1 hb.1, ?_, ?_⟩
  · intro ha0 hb0 n _ p q hp hq hpb hqp
    obtain ⟨hp1, hp2⟩ := strzcpy_text ha.1 ha0 hp
    obtain ⟨hq1, hq2⟩ := strzcpy_text (hb.1.frame hp2 hpb) hb0 hq
    exact hcut n _ p q (hp1.frame hq2 hqp) hq1
  · rw [strcmp_eq ha.1 hb.1, memcmp_eq ha hb.1]
  · refine ⟨diff s t, strcmp_eq ha.1 hb.1, ?_⟩
    rw [strcmp_eq hb.1 ha.1, diff_swap]
  · exact ⟨diff s t, diff t u, diff s u, strcmp_eq ha.1 hb.1, strcmp_eq hb.1 hc.1,
      strcmp_eq ha.1 hc.1, diff_trans ha.1.notMem hb.1.notMem hc.1.notMem⟩

/-- A string of two characters, one of its second character, and `NULL`. -/
theorem comparisons_agree_bytes :
    Agree .riscv32 (fun x => if x = 4096 then 97 else if x = 4097 then 200 else 0) 4096 4097 0
      [97, 200] [200] [] := by
  have h200 : TextAt (fun x => if x = 4096 then 97 else if x = 4097 then 200 else 0) 4097 [200] :=
    ⟨by decide, rfl, rfl⟩
  exact comparisons_agree .riscv32 _
    ⟨Or.inr ⟨by decide, ⟨by decide, rfl, h200⟩, by decide⟩, by decide⟩
    ⟨Or.inr ⟨by decide, h200, by decide⟩, by decide⟩ ⟨Or.inl ⟨rfl, rfl⟩, by decide⟩

end Noc.Strmem
