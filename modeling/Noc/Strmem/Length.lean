import Noc.Lib.Text
import Noc.Strmem

/-! # The length of a string

`strlen`, in assembler for x86_64 and in C for the other targets, and `strnlen`, which goes through
`memchr`. With the addresses that `memchr` reads (`memchrReads`):

* `strlen_eq`: both versions of `strlen` find the NUL.
* `strnlen_iff`: `strnlen` is right unless the NUL is at `PLATFORM_MAX_ADDR`, where `memchr` does
  not look; it then returns `maxlen` even for a shorter string. -/

namespace Noc.Strmem

open Noc.Lib.Bytes Noc.Lib.Text Noc.Targets

/-! ### The functions of the source -/

/-- `while (*scan) scan++`: where `scan` stops, if it does. A pointer has no more than `T.space`
values, so that many rounds are enough. -/
def scanLoop (T : Target) (m : Mem) : ℕ → ℕ → Option ℕ
  | 0, _ => none
  | fuel + 1, scan => if m scan ≠ 0 then scanLoop T m fuel (T.add scan 1) else some scan

/-- The loop at the label `2` of the assembler version, where `rdi` is the string. -/
def raxLoop (T : Target) (m : Mem) (rdi : ℕ) : ℕ → ℕ → Option ℕ
  | 0, _ => none
  | fuel + 1, rax =>
    let rax := T.add rax 1
    if m (T.add rdi rax) ≠ 0 then raxLoop T m rdi fuel rax else some rax

/-- `strlen`, if it ends. -/
def strlen (T : Target) (m : Mem) (s : ℕ) : Option ℕ :=
  if T.archX8664 then if s = 0 then some 0 else raxLoop T m s T.space (T.sub 0 1)
  else if s = 0 then some 0
  else (scanLoop T m T.space s).map fun scan => T.sub scan s

/-- `strnlen` -/
def strnlen (T : Target) (m : Mem) (str maxlen : ℕ) : ℕ :=
  match memchr T m str 0 maxlen with
  | some p => T.sub p str
  | none => maxlen

/-- The addresses that the loop of `memchr` reads, in turn. -/
def memchrReads (T : Target) (m : Mem) (c : ℤ) (current : ℕ) : ℕ → List ℕ
  | 0 => []
  | n + 1 =>
    current :: if charInt T (m current) = c then [] else memchrReads T m c (current + 1) n

/-- The addresses that `strnlen` reads. -/
def strnlenReads (T : Target) (m : Mem) (str maxlen : ℕ) : List ℕ :=
  memchrReads T m 0 str (min maxlen (platformMaxAddr T - str))

variable {T : Target} {m : Mem} {c : ℤ} {a n s x maxlen : ℕ} {text : List UInt8}

/-! ### `strlen` -/

theorem scanLoop_eq : ∀ {fuel p : ℕ} {text : List UInt8}, TextAt m p text →
    p + text.length < T.space → text.length < fuel →
    scanLoop T m fuel p = some (p + text.length)
  | fuel + 1, p, [], h, _, _ => if_neg (not_not.mpr h)
  | fuel + 1, p, c :: text, ⟨h0, hc, h⟩, hlt, hfuel => by
    rw [List.length_cons] at hlt hfuel ⊢
    rw [scanLoop, hc, if_pos h0, Target.add_of_lt (by omega),
      scanLoop_eq h (by omega) (by omega), Nat.add_right_comm, Nat.add_assoc]

theorem raxLoop_eq : ∀ {fuel rax i : ℕ} {text : List UInt8}, T.add rax 1 = i →
    TextAt m (s + i) text → s + i + text.length < T.space → text.length < fuel →
    raxLoop T m s fuel rax = some (i + text.length)
  | fuel + 1, rax, i, [], hi, h, hlt, _ => by
    rw [raxLoop, hi, Target.add_of_lt (show s + i < T.space from hlt)]
    exact if_neg (not_not.mpr h)
  | fuel + 1, rax, i, c :: text, hi, ⟨h0, hc, h⟩, hlt, hfuel => by
    rw [List.length_cons] at hlt hfuel ⊢
    rw [raxLoop, hi, Target.add_of_lt (show s + i < T.space by omega), hc, if_pos h0,
      raxLoop_eq (Target.add_of_lt (by omega)) h (by omega) (by omega),
      Nat.add_right_comm, Nat.add_assoc]

/-- **`strlen` is the length of the string.** -/
theorem strlen_eq (h : TextAt m s text) (h0 : s ≠ 0) (hmax : s + text.length ≤ platformMaxAddr T) :
    strlen T m s = some text.length := by
  have hspace := T.space_bounds
  have hlt : s + text.length < T.space := by
    unfold platformMaxAddr at hmax
    omega
  unfold strlen
  split_ifs
  · have hrax : T.add (T.sub 0 1) 1 = 0 := by
      unfold Target.add Target.sub
      rw [Nat.zero_add, Nat.mod_eq_of_lt (show T.space - 1 < T.space by omega),
        Nat.sub_add_cancel (by omega), Nat.mod_self]
    rw [raxLoop_eq hrax h hlt (by omega), Nat.zero_add]
  · rw [scanLoop_eq h hlt (by omega), Option.map_some, Target.sub_of_le (by omega) hlt,
      Nat.add_sub_cancel_left]

/-! ### `strnlen` -/

/-- The answer of `memchr` is the first match among the bytes that it reads. -/
theorem memchrLoop_eq_find : ∀ {a n : ℕ}, memchrLoop T m c a n =
    (memchrReads T m c a n).find? fun x => charInt T (m x) = c
  | _, 0 => rfl
  | a, n + 1 => by
    rw [memchrLoop, memchrReads, List.find?_cons]
    by_cases h : charInt T (m a) = c
    · rw [if_pos h, decide_eq_true h]
    · rw [if_neg h, if_neg h, decide_eq_false h]
      exact memchrLoop_eq_find

/-- Only bytes in front of the first match are read, and that. -/
theorem memchrReads_cases : ∀ {a n : ℕ}, x ∈ memchrReads T m c a n →
    ∃ i < n, x = a + i ∧ ∀ j < i, charInt T (m (a + j)) ≠ c
  | _, 0, h => absurd h List.not_mem_nil
  | a, n + 1, h => by
    rw [memchrReads] at h
    rcases List.mem_cons.mp h with rfl | h
    · exact ⟨0, Nat.succ_pos n, rfl, fun j hj => absurd hj (Nat.not_lt_zero j)⟩
    split_ifs at h with hc
    · exact absurd h List.not_mem_nil
    obtain ⟨i, hi, rfl, hj⟩ := memchrReads_cases h
    refine ⟨i + 1, by omega, by omega, ?_⟩
    rintro (_ | j) hlt
    · exact hc
    · rw [Nat.add_comm j 1, ← Nat.add_assoc]
      exact hj j (by omega)

theorem charInt_eq_zero_iff {b : UInt8} : charInt T b = 0 ↔ b = 0 := by
  constructor
  · intro h
    rw [← toUChar_charInt (T := T) b, h]
    rfl
  · rintro rfl
    unfold charInt
    split_ifs <;> rfl

/-- `memchr` finds the NUL if it looks at that place. -/
theorem memchr_nul (h : TextAt m s text) (n : ℕ) : memchr T m s 0 n =
    if text.length < min n (platformMaxAddr T - s) then some (s + text.length) else none := by
  have hfirst := memchrLoop_first T m 0 s (min n (platformMaxAddr T - s))
  refine hfirst.unique ?_
  have hne : ∀ i < text.length, ¬ charInt T (m (s + i)) = 0 := fun i hi h0 =>
    h.ne_zero hi (charInt_eq_zero_iff.mp h0)
  split_ifs with hlen
  · exact ⟨text.length, hlen, rfl, charInt_eq_zero_iff.mpr h.nul, hne⟩
  · exact fun i hi => hne i (by omega)

theorem strnlen_eq (h : TextAt m s text) (hmax : s + text.length ≤ platformMaxAddr T) :
    strnlen T m s maxlen =
      if text.length < min maxlen (platformMaxAddr T - s) then text.length else maxlen := by
  have hspace := T.space_bounds
  unfold strnlen
  rw [memchr_nul h]
  split_ifs
  · dsimp only
    unfold platformMaxAddr at hmax
    rw [Target.sub_of_le (by omega) (by omega), Nat.add_sub_cancel_left]
  · rfl

/-- `strnlen` is the length or `maxlen`, whichever is less, and reads no byte behind the NUL or at
the offset `maxlen` or behind that. -/
def Measures (T : Target) (m : Mem) (s maxlen : ℕ) : Prop :=
  ∃ len, strlen T m s = some len ∧ strnlen T m s maxlen = min len maxlen ∧
    ∀ x ∈ strnlenReads T m s maxlen, ∃ i, x = s + i ∧ i ≤ len ∧ i < maxlen

/-- **When `strnlen` is right**: for every string at valid addresses and every `maxlen`, exactly if
the NUL is not at the last valid address or not among the first `maxlen` bytes. -/
theorem strnlen_iff (T : Target) (m : Mem) {s : ℕ} {text : List UInt8} (h : TextAt m s text)
    (h0 : s ≠ 0) (hmax : s + text.length ≤ platformMaxAddr T) (maxlen : ℕ) :
    Measures T m s maxlen ↔ (s + text.length = platformMaxAddr T → maxlen ≤ text.length) := by
  unfold Measures
  rw [strnlen_eq h hmax]
  constructor
  · rintro ⟨len, hlen, hvalue, -⟩ hend
    rw [strlen_eq h h0 hmax] at hlen
    obtain rfl := Option.some.inj hlen
    rw [if_neg (by omega)] at hvalue
    omega
  · intro hcond
    refine ⟨text.length, strlen_eq h h0 hmax, ?_, fun x hx => ?_⟩
    · split_ifs with hlt
      · omega
      · by_cases hend : s + text.length = platformMaxAddr T
        · have := hcond hend
          omega
        · omega
    · obtain ⟨i, hi, rfl, hne⟩ := memchrReads_cases hx
      refine ⟨i, rfl, Nat.le_of_not_lt fun hlt => ?_, by omega⟩
      exact hne text.length hlt (charInt_eq_zero_iff.mpr h.nul)

theorem strnlen_iff_wrap :
    Measures .x8664 (fun a => if a < 4098 then 97 else 0) 4096 (2 ^ 64 - 1) ↔
      (4096 + [97, 97].length = platformMaxAddr .x8664 → 2 ^ 64 - 1 ≤ [97, 97].length) := by
  have htext : TextAt (fun a => if a < 4098 then 97 else 0) 4096 [97, 97] :=
    ⟨by decide, rfl, by decide, rfl, rfl⟩
  exact strnlen_iff .x8664 _ htext (by decide) (by decide) _

/-- The empty string at the last address: `strnlen` of at most one byte is 1. -/
theorem strnlen_last_address : strlen .x8664 (fun _ => 0) (2 ^ 64 - 1) = some 0 ∧
    strnlen .x8664 (fun _ => 0) (2 ^ 64 - 1) 1 = 1 ∧
    ¬ Measures .x8664 (fun _ => 0) (2 ^ 64 - 1) 1 := by
  have hlen : strlen .x8664 (fun _ => 0) (2 ^ 64 - 1) = some 0 :=
    strlen_eq (show TextAt (fun _ => 0) (2 ^ 64 - 1) [] from rfl) (by decide) (by decide)
  refine ⟨hlen, by decide, ?_⟩
  rintro ⟨len, hlen', hvalue, -⟩
  rw [hlen] at hlen'
  obtain rfl := Option.some.inj hlen'
  exact absurd hvalue (by decide)

end Noc.Strmem
