import Noc.Memcpy
import Noc.Printf.Meaning
import Noc.Printf.Snprintf
import Noc.Strmem.Compare
import Noc.Strmem.Length

/-! # Copies of a string

A string is copied by `strzcpy`, by `snprintf` with the format `%s`, or by `memcpy` with its length.
`Copied`: what the functions on strings see of the copy.

`copies_agree`: the three leave the same string, cut to the room there is; the length that
`snprintf` returns says if it was cut. -/

namespace Noc.Printf

open Noc.Lib.Bytes Noc.Lib.Output Noc.Lib.Spans Noc.Lib.Text Noc.Targets Noc.Memcpy Noc.Strmem

variable {T : Target} {m m' : Mem} {a p n k f : ℕ} {s : List UInt8}

/-- The pointer `a`, where `k` bytes can be read. -/
def pointerTo (m : Mem) (a k : ℕ) : Ptr := ⟨a, (List.range k).map fun i => m (a + i)⟩

/-- The string `s` at `a` has been copied to the buffer of `n + 1` bytes at `p`, and cut to `n`
characters. -/
structure Copied (T : Target) (m m' : Mem) (a p n : ℕ) (s : List UInt8) : Prop where
  text : Text T m' p (s.take n)
  outside : ∀ x, (x < p ∨ p + n < x) → m' x = m x
  length : Strmem.strlen T m' p = some (min s.length n)
  /-- the copy is the string exactly if it is not cut, and else less -/
  compare : ∃ r, strcmp T m' p a = some r ∧ r ≤ 0 ∧ (r = 0 ↔ s.length ≤ n)
  compareFront : strncmp T m' p a n = some 0

/-! ### Texts -/

theorem diff_take_self : ∀ (s : List UInt8) (n : ℕ), diff (s.take n) s ≤ 0
  | [], n => by rw [List.take_nil]; rfl
  | c :: s, 0 => by
    rw [List.take_zero, diff]
    omega
  | c :: s, n + 1 => by
    rw [List.take_succ_cons, diff, if_pos rfl]
    exact diff_take_self s n

theorem textAt_of_getElem : ∀ {p : ℕ} {s : List UInt8}, (0 : UInt8) ∉ s →
    (∀ i < s.length, s[i]? = some (m (p + i))) → m (p + s.length) = 0 → TextAt m p s
  | p, [], _, _, h => h
  | p, c :: s, h0, hs, h => by
    have hc := hs 0 (Nat.succ_pos _)
    refine ⟨fun hc0 => h0 (hc0 ▸ List.mem_cons_self), (Option.some.inj hc).symm, ?_⟩
    refine textAt_of_getElem (fun h => h0 (List.mem_cons_of_mem c h)) (fun i hi => ?_) ?_
    · have hi' := hs (i + 1) (Nat.succ_lt_succ hi)
      rwa [List.getElem?_cons_succ, Nat.add_comm i 1, ← Nat.add_assoc] at hi'
    · rw [Nat.add_assoc, Nat.add_comm 1]
      exact h

theorem getElem_of_textAt : ∀ {p : ℕ} {s : List UInt8}, TextAt m p s →
    ∀ i < s.length, s[i]? = some (m (p + i))
  | p, c :: s, ⟨_, hc, h⟩, 0, _ => by rw [List.getElem?_cons_zero, Nat.add_zero, hc]
  | p, c :: s, ⟨_, _, h⟩, i + 1, hi => by
    rw [List.getElem?_cons_succ, Nat.add_comm i 1, ← Nat.add_assoc]
    exact getElem_of_textAt h i (Nat.lt_of_succ_lt_succ hi)

/-- The bytes behind the pointer to a string. -/
theorem pointerTo_shown (h : TextAt m a s) (h0 : a ≠ 0) (hk : s.length < k) :
    (0 : UInt8) ∈ (pointerTo m a k).bytes ∧ (pointerTo m a k).shown = s := by
  have hbytes : (pointerTo m a k).bytes =
      s ++ 0 :: (pointerTo m a k).bytes.drop (s.length + 1) := by
    refine List.ext_getElem? fun i => ?_
    rcases lt_trichotomy i s.length with hi | rfl | hi
    · rw [List.getElem?_append_left hi, getElem_of_textAt h i hi, pointerTo, List.getElem?_map,
        List.getElem?_range (by omega)]
      rfl
    · rw [List.getElem?_append_right le_rfl, Nat.sub_self, List.getElem?_cons_zero, pointerTo,
        List.getElem?_map, List.getElem?_range hk, Option.map_some, h.nul]
    · obtain ⟨j, rfl⟩ := Nat.exists_eq_add_of_le (show s.length + 1 ≤ i from hi)
      rw [List.getElem?_append_right (by omega),
        show s.length + 1 + j - s.length = j + 1 by omega, List.getElem?_cons_succ,
        List.getElem?_drop]
  refine ⟨by rw [hbytes]; simp, ?_⟩
  have hne : ∀ c ∈ s, decide (c ≠ 0) = true := fun c hc =>
    decide_eq_true fun h0 => h.notMem (h0 ▸ hc)
  rw [Ptr.shown, if_neg (show (pointerTo m a k).addr ≠ 0 from h0), hbytes,
    List.takeWhile_append_of_pos hne]
  simp

/-! ### The copies -/

section Copied
variable (ha : Text T m a s) (hp0 : p ≠ 0) (hfit : p + n < platformMaxAddr T)
  (hdisj : (⟨p, n + 1⟩ : Span).Disj ⟨a, s.length + 1⟩) (ha0 : a ≠ 0)
include ha hp0 hfit hdisj

/-- A text that is cut, with nothing else changed outside the buffer. -/
theorem copied_of_text (htext : TextAt m' p (s.take n))
    (hout : ∀ x, (x < p ∨ p + n < x) → m' x = m x) : Copied T m m' a p n s := by
  have hlen : (s.take n).length = min s.length n := by rw [List.length_take, Nat.min_comm]
  have htext' : Text T m' p (s.take n) := Or.inr ⟨hp0, htext, by omega⟩
  have hsource : Text T m' a s := ha.frame hout hdisj
  have hbelow : Below T m' p (s.take n) := ⟨htext', by omega⟩
  have hcut : s.take n = s ↔ s.length ≤ n := List.take_eq_self_iff s
  refine ⟨htext', hout, ?_, ⟨_, strcmp_eq htext' hsource, diff_take_self s n, ?_⟩, ?_⟩
  · rw [Strmem.strlen_eq htext hp0 (by omega), hlen]
  · rw [diff_eq_zero_iff htext'.notMem hsource.notMem, hcut]
  · rw [strncmp_eq hbelow hsource, List.take_take, Nat.min_self,
      (diff_eq_zero_iff (fun h => ha.notMem (List.mem_of_mem_take h))
        fun h => ha.notMem (List.mem_of_mem_take h)).mpr rfl]

include ha0

theorem copied_strzcpy : Copied T m (strzcpy T m p a (n + 1)) a p n s := by
  have hlen : (s.take n).length ≤ n := List.length_take_le n s
  have hroom : Room T a s n p := ⟨hp0, by omega, by simp only [Span.Disj, Span.stop] at *; omega⟩
  obtain ⟨h1, h2⟩ := strzcpy_text ha ha0 hroom
  exact copied_of_text ha hp0 hfit hdisj (h1.resolve_left fun h => hp0 h.1).2.1
    fun x hx => h2 x (by omega)

theorem copied_memcpy (hn : s.length ≤ n) :
    Copied T m (memcpy T m p a (s.length + 1)) a p n s := by
  obtain ⟨-, hs, hle⟩ := ha.resolve_left fun h => ha0 h.1
  have hspace := T.space_bounds
  have hcopy : memcpy T m p a (s.length + 1) = m.copy p a (s.length + 1) := by
    unfold platformMaxAddr at hfit
    simp only [Span.Disj, Span.stop] at hdisj
    exact memcpy_eq_copy (by omega) (by omega)
  have hbyte : ∀ i ≤ s.length, m.copy p a (s.length + 1) (p + i) = m (a + i) := by
    intro i hi
    rw [Mem.copy, if_pos (by omega), Nat.add_sub_cancel_left]
  rw [hcopy]
  refine copied_of_text ha hp0 hfit hdisj ?_ fun x hx => Mem.copy_of_notMem (by omega)
  rw [List.take_of_length_le hn]
  refine textAt_of_getElem hs.notMem (fun i hi => ?_) ?_
  · rw [getElem_of_textAt hs i hi, hbyte i hi.le]
  · rw [hbyte s.length le_rfl, hs.nul]

/-- `snprintf` with the format `%s`. -/
theorem copied_snprintf (hlen : s.length < 2 ^ 31) (hk : s.length < k) (hf : f ≠ 0) :
    ∃ m', snprintf T (argList T) m p (n + 1) ⟨f, cstr "%s"⟩
        (.start [.pointer (pointerTo m a k)]) = .ok (s.length, m') ∧ Copied T m m' a p n s := by
  obtain ⟨-, hs, hle⟩ := ha.resolve_left fun h => ha0 h.1
  obtain ⟨hnul, hshown⟩ := pointerTo_shown hs ha0 hk
  have hargs : Typed T [.pointer (pointerTo m a k)]
    (Format.argTypes [.directive (.plain .string)]) := .cons rfl .nil
  have hshows : Format.shows T [.directive (.plain .string)] [.pointer (pointerTo m a k)] =
      some s := by
    have htext : stringText (Spec.plain .string).setFlags 0 0 (pointerTo m a k).shown = s := by
      rw [hshown, stringText, if_neg (by omega), if_pos rfl, paddedText]
      simp
    have hread : ¬ ((pointerTo m a k).addr ≠ 0 ∧ (0 : Byte) ∉ (pointerTo m a k).bytes) :=
      fun h => h.2 hnul
    have hdirective : (Spec.plain .string).shown T [.pointer (pointerTo m a k)] =
        (.text s, []) := by
      show (if maxFormat < 0 ∨ maxFormat < 0 then (.error [], []) else
        (Conversion.shown T _ 0 0 (.pointer (pointerTo m a k)) .string, [])) = _
      rw [if_neg (by decide), Conversion.shown, Arg.toPtr, if_neg hread, htext]
    rw [Format.shows, hdirective]
    exact congrArg some (List.append_nil s)
  have hshort : ∀ s, Item.directive s ∈ [Item.directive (.plain .string)] →
      ¬ s.conversion.isLong := by
    intro s hs
    obtain rfl := Item.directive.inj (List.mem_singleton.mp hs)
    exact fun h => by cases h
  have hformatted : formatted T (argList T) (cstr "%s") (.start [.pointer (pointerTo m a k)]) =
      ⟨s, .value ()⟩ := formatted_of_shows hargs (Or.inr hshort) hshows
  have hemitted : emitted T (argList T) ⟨f, cstr "%s"⟩ (.start [.pointer (pointerTo m a k)]) = s :=
    congrArg Emission.text hformatted
  unfold platformMaxAddr at hfit
  have hholds := @snprintf_holds _ T (argList T) ⟨f, cstr "%s"⟩
    (.start [.pointer (pointerTo m a k)]) m p (n + 1) hf (by omega) (by omega)
    (by rw [hemitted]; exact hlen) (by rw [hformatted]; exact fun _ h => by cases h)
  rw [hemitted, hformatted, if_neg (fun h => by cases h)] at hholds
  obtain ⟨m', h1, h2⟩ := hholds
  refine ⟨m', h1, copied_of_text ha hp0 hfit hdisj ?_ fun x hx => h2.outside x (by omega)⟩
  have htake : (s.take n).length = min s.length n := by rw [List.length_take, Nat.min_comm]
  refine textAt_of_getElem (fun h => hs.notMem (List.mem_of_mem_take h)) (fun i hi => ?_) ?_
  · rw [List.getElem?_take_of_lt (by omega)]
    exact h2.chars i (by omega)
  · rw [htake]
    exact h2.nul

end Copied

/-- **Three ways to copy a string**, to a buffer of `n + 1` bytes that is apart from it: `strzcpy`
and `snprintf` with the format `%s` leave the same string, cut to `n` characters, and so does
`memcpy` of a string that has room. The copy is equal to the string, for `strcmp`, exactly if the
length that `snprintf` returns is less than the size of the buffer. -/
theorem copies_agree (T : Target) (m : Mem) {a p n k f : ℕ} {s : List UInt8} (ha : Text T m a s)
    (ha0 : a ≠ 0) (hp0 : p ≠ 0) (hfit : p + n < platformMaxAddr T)
    (hdisj : (⟨p, n + 1⟩ : Span).Disj ⟨a, s.length + 1⟩) (hlen : s.length < 2 ^ 31)
    (hk : s.length < k) (hf : f ≠ 0) :
    Copied T m (strzcpy T m p a (n + 1)) a p n s ∧
    (∃ m', snprintf T (argList T) m p (n + 1) ⟨f, cstr "%s"⟩
        (.start [.pointer (pointerTo m a k)]) = .ok (s.length, m') ∧ Copied T m m' a p n s) ∧
    (s.length ≤ n → Copied T m (memcpy T m p a (s.length + 1)) a p n s) :=
  ⟨copied_strzcpy ha hp0 hfit hdisj ha0, copied_snprintf ha hp0 hfit hdisj ha0 hlen hk hf,
    copied_memcpy ha hp0 hfit hdisj ha0⟩

/-- Three characters, cut to two. -/
theorem copies_agree_cut : ∃ m', snprintf .x8664 (argList .x8664)
      (fun x => if 4096 ≤ x ∧ x < 4099 then 97 else 0) 8192 3 ⟨1, cstr "%s"⟩
      (.start [.pointer (pointerTo (fun x => if 4096 ≤ x ∧ x < 4099 then 97 else 0) 4096 8)]) =
        .ok (3, m') ∧
    Copied .x8664 (fun x => if 4096 ≤ x ∧ x < 4099 then 97 else 0) m' 4096 8192 2 [97, 97, 97] := by
  have htext : Text .x8664 (fun x => if 4096 ≤ x ∧ x < 4099 then 97 else 0) 4096 [97, 97, 97] :=
    Or.inr ⟨by decide, ⟨by decide, rfl, by decide, rfl, by decide, rfl, rfl⟩, by decide⟩
  exact (copies_agree .x8664 _ htext (by decide) (by decide) (by decide) (Or.inr (by decide))
    (by decide) (by decide) (by decide)).2.1

end Noc.Printf
