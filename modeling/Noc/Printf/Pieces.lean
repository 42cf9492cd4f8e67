import Noc.Printf.Append
import Noc.Printf.Snprintf

/-! # A text in pieces

A program that builds a text calls `snprintf` for one piece after the other, each time with the rest
of the buffer. `snprintf_written` says what memory is after a call, byte by byte; `snprintf_append`:
two calls leave the memory, and add up to the result, of one call with both formats. -/

namespace Noc.Printf

open Noc.Lib.Bytes Noc.Lib.Output Noc.Targets

variable {ν : Type} {T : Target} {va : VaArg ν} {mem : Mem} {str n : ℕ} {text text' : List Byte}

/-- Memory with a text in the buffer of `n` bytes at `str`: as many characters as fit before the
NUL, the NUL, and another one in the last byte. -/
def written (mem : Mem) (str n : ℕ) (text : List Byte) : Mem := fun x =>
  if str ≤ x ∧ x < str + min text.length (n - 1) then text.getD (x - str) 0
  else if x = str + min text.length (n - 1) ∨ x = str + (n - 1) then 0
  else mem x

/-- **What `snprintf` does to memory.** -/
theorem snprintf_written {format : Ptr} {args : ν} (mem : Mem) {str n : ℕ} (hf : format.addr ≠ 0)
    (hn : 1 ≤ n) (hfit : str + n ≤ T.space) (hlen : (emitted T va format args).length < 2 ^ 31) :
    snprintf T va mem str n format args =
      match (formatted T va format.bytes args).ending with
      | .value _ => .ok ((emitted T va format args).length,
          written mem str n (emitted T va format args))
      | .stop => .ok (EOF, written mem str n (emitted T va format args))
      | .fault f => .error f := by
  have hspace := T.space_bounds
  have hcount : ¬ intMax < (formatted T va format.bytes args).text.length := by
    unfold intMax emitted at *
    omega
  obtain ⟨mem', hfold, hchars, hout⟩ := foldl_writeStr (T := T)
    (formatted T va format.bytes args).text mem (show str ≤ str + (n - 1) by omega) (by omega)
  have htaken : taken (formatted T va format.bytes args).text str (str + (n - 1)) =
      min (emitted T va format args).length (n - 1) := by
    unfold taken emitted
    omega
  rw [htaken] at hfold hchars hout
  have hmem : (mem'.set (str + (n - 1)) 0).set
      (str + min (emitted T va format args).length (n - 1)) 0 =
        written mem str n (emitted T va format args) := by
    funext x
    unfold written
    by_cases hx : str ≤ x ∧ x < str + min (emitted T va format args).length (n - 1)
    · obtain ⟨i, rfl⟩ := Nat.exists_eq_add_of_le hx.1
      have hbyte := hchars i (by omega)
      rw [if_pos hx, Mem.set_of_ne (by omega), Mem.set_of_ne (by omega), Nat.add_sub_cancel_left,
        List.getD_eq_getElem?_getD]
      rw [show (emitted T va format args)[i]? = some (mem' (str + i)) from hbyte, Option.getD_some]
    · rw [if_neg hx]
      split_ifs with hnul
      · rcases hnul with rfl | rfl
        · exact Mem.set_self
        · by_cases heq : str + (n - 1) = str + min (emitted T va format args).length (n - 1)
          · rw [← heq]
            exact Mem.set_self
          · rw [Mem.set_of_ne heq, Mem.set_self]
      · rw [Mem.set_of_ne (by omega), Mem.set_of_ne (by omega), hout x (by omega)]
  unfold snprintf
  rw [if_neg (by omega), strEnd_eq hn hfit]
  dsimp only
  rw [formatter_of_accepts writeStr_accepts hf]
  dsimp only
  rw [hfold, if_neg hcount, if_neg hcount]
  rcases (formatted T va format.bytes args).ending with ⟨⟩ | _ | f
  · exact congrArg (fun m => Except.ok (_, m)) hmem
  · exact congrArg (fun m => Except.ok (_, m)) hmem
  · rfl

/-- A text behind another one, in the rest of the buffer. -/
theorem written_append (h : text.length < n) :
    written (written mem str n text) (str + text.length) (n - text.length) text' =
      written mem str n (text ++ text') := by
  have hmin : min text.length (n - 1) = text.length := by omega
  have hend : str + text.length + (n - text.length - 1) = str + (n - 1) := by omega
  have hnul : str + text.length + min text'.length (n - text.length - 1) =
      str + min (text ++ text').length (n - 1) := by
    rw [List.length_append]
    omega
  funext x
  rw [written, hend, hnul]
  by_cases hsecond : str + text.length ≤ x ∧ x < str + min (text ++ text').length (n - 1)
  · rw [if_pos hsecond, written, if_pos (by omega), List.getD_append_right _ _ _ _ (by omega)]
    congr 1
    omega
  have hlen : text.length ≤ min (text ++ text').length (n - 1) := by
    rw [List.length_append]
    omega
  rw [if_neg hsecond]
  by_cases hnul : x = str + min (text ++ text').length (n - 1) ∨ x = str + (n - 1)
  · have hout : ¬ (str ≤ x ∧ x < str + min (text ++ text').length (n - 1)) := by omega
    rw [if_pos hnul, written, if_neg hout, if_pos hnul]
  rw [if_neg hnul, written, hmin, written]
  by_cases hfirst : str ≤ x ∧ x < str + text.length
  · rw [if_pos hfirst, if_pos (by omega), List.getD_append _ _ _ _ (by omega)]
  · rw [if_neg hfirst, if_neg (by omega), if_neg (by omega), if_neg hnul]

/-! ### Two calls -/

/-- **A text in two calls**: let `f` be a format that the formatter gets through, with the arguments
`A`, whose text leaves room in the buffer. Then any format `g` with arguments `B`, in the rest of
the buffer, ends with the memory of one call with both formats and all arguments, and the results
add up, unless the second call fails, as the one call does then. -/
theorem snprintf_append (T : Target) {f text : List Byte} {A : List Arg} (hf : (0 : Byte) ∉ f)
    (hrun : Run T (argList T) (f ++ [0]) (.start A) text (.whole (.start [])))
    (g : List Byte) (B : List Arg) (mem : Mem) {str n addr addr' : ℕ} (h0 : addr ≠ 0)
    (h0' : addr' ≠ 0) (hroom : text.length < n) (hfit : str + n ≤ T.space)
    (hlen : text.length + (formatted T (argList T) (g ++ [0]) (.start B)).text.length < 2 ^ 31) :
    ∃ mem', snprintf T (argList T) mem str n ⟨addr, f ++ [0]⟩ (.start A) =
        .ok (text.length, mem') ∧
      snprintf T (argList T) mem str n ⟨addr, f ++ (g ++ [0])⟩ (.start (A ++ B)) =
        (snprintf T (argList T) mem' (str + text.length) (n - text.length) ⟨addr', g ++ [0]⟩
          (.start B)).map fun r => (if r.1 < 0 then EOF else text.length + r.1, r.2) := by
  have hzero : (0 : Byte) ∈ g ++ [0] := List.mem_append_right g (List.mem_singleton.mpr rfl)
  obtain ⟨text', o, hg⟩ := exists_run T (argList T) (.start B) le_rfl hzero
  have hfirst : formatted T (argList T) (f ++ [0]) (.start A) = ⟨text, .value ()⟩ :=
    hrun.formatted_eq
  have hsecond := hg.formatted_eq
  have hboth := (Run.append (argList_extends T B) rfl hg hf hrun).2.formatted_eq
  have happ : formatted T (argList T) (f ++ (g ++ [0])) (.start (A ++ B)) =
      ⟨text ++ (formatted T (argList T) (g ++ [0]) (.start B)).text,
        (formatted T (argList T) (g ++ [0]) (.start B)).ending⟩ := by
    rw [hsecond]
    refine Eq.trans hboth ?_
    cases o <;> simp [Outcome.emission]
  have h₁ := @snprintf_written _ T (argList T) ⟨addr, f ++ [0]⟩ (.start A) mem str n h0 (by omega)
    hfit (by unfold emitted; rw [hfirst]; dsimp only; omega)
  have h₂ := @snprintf_written _ T (argList T) ⟨addr, f ++ (g ++ [0])⟩ (.start (A ++ B)) mem str n
    h0 (by omega) hfit (by unfold emitted; rw [happ, List.length_append]; exact hlen)
  have h₃ := @snprintf_written _ T (argList T) ⟨addr', g ++ [0]⟩ (.start B)
    (written mem str n text) (str + text.length) (n - text.length) h0' (by omega) (by omega)
    (by unfold emitted; dsimp only; omega)
  unfold emitted at h₁ h₂ h₃
  rw [hfirst] at h₁
  rw [happ] at h₂
  dsimp only at h₁ h₂ h₃
  rw [written_append hroom] at h₃
  refine ⟨_, h₁, ?_⟩
  rw [h₂, h₃]
  rcases (formatted T (argList T) (g ++ [0]) (.start B)).ending with ⟨⟩ | _ | e
  · simp [Except.map, Int.not_lt.mpr (Int.natCast_nonneg _)]
  · rfl
  · rfl

/-- `%d,` and `%x`, in a buffer of 5 bytes: the second text is cut. -/
theorem snprintf_append_cut : ∃ mem',
    snprintf .riscv32 (argList .riscv32) (fun _ => 1) 4096 5
      ⟨1, "%d,".toList.map Char.toUInt8 ++ [0]⟩ (.start [.word32 42]) = .ok (3, mem') ∧
    snprintf .riscv32 (argList .riscv32) (fun _ => 1) 4096 5
        ⟨1, "%d,".toList.map Char.toUInt8 ++ ("%x".toList.map Char.toUInt8 ++ [0])⟩
        (.start ([.word32 42] ++ [.word32 255])) =
      (snprintf .riscv32 (argList .riscv32) mem' (4096 + 3) (5 - 3)
        ⟨1, "%x".toList.map Char.toUInt8 ++ [0]⟩ (.start [.word32 255])).map
          fun r => (if r.1 < 0 then EOF else 3 + r.1, r.2) :=
  snprintf_append .riscv32 (f := "%d,".toList.map Char.toUInt8) (A := [.word32 42]) (by decide)
    (.directive (by decide) (by decide) rfl rfl (.char (by decide) (by decide) .nul))
    ("%x".toList.map Char.toUInt8) [.word32 255] (fun _ => 1) (by decide) (by decide) (by decide)
    (by decide) (by decide)

end Noc.Printf
