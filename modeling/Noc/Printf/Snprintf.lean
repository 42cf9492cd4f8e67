import Noc.Lib.Bytes
import Noc.Printf.Format

/-! # `snprintf`

`snprintf` and `vsnprintf` on a memory, with `write_str` as the sink of the formatter: it stores a
character while there is room, and accepts all.

`snprintf_law_iff`: two calls with buffers of `n` and `m` bytes, `n ≤ m`, return the same value, the
number of the characters that the formatter emits unless it is negative; each buffer then holds as
many of them as it has room for and a NUL, and no byte outside it has changed. This is so exactly if
no directive of the format overruns the array of the integer conversion or reads behind its
argument. -/

namespace Noc.Printf

open Noc.Lib.Bytes Noc.Lib.Output Noc.Targets

variable {ν : Type} (T : Target) (va : VaArg ν)

/-- `struct snprintf_state`, with the memory. -/
structure SnprintfState where
  mem : Mem
  strEnd : ℕ
  str : ℕ

/-- `write_str` -/
def writeStr (c : Byte) (ctx : SnprintfState) : Bool × SnprintfState :=
  if ctx.str < ctx.strEnd then
    (true, { ctx with mem := ctx.mem.set ctx.str c, str := T.add ctx.str 1 })
  else (true, ctx)

/-- `vsnprintf`: the result and the memory. -/
def vsnprintf (mem : Mem) (str n : ℕ) (format : Ptr) (args : ν) : Except Fault (ℤ × Mem) :=
  if n = 0 then .ok (-1, mem)
  else do
    let ctx := ⟨mem, T.sub (T.add str n) 1, str⟩
    let (res, ctx) ← formatter T va (writeStr T) ctx format args
    let mem := ctx.mem.set ctx.strEnd 0
    let mem := mem.set ctx.str 0
    pure (res, mem)

/-- `snprintf`, with `args` as `va_start` makes them of the further arguments. -/
def snprintf (mem : Mem) (str n : ℕ) (format : Ptr) (args : ν) : Except Fault (ℤ × Mem) :=
  if n = 0 then .ok (-1, mem)
  else do
    let ctx := ⟨mem, T.sub (T.add str n) 1, str⟩
    let (res, ctx) ← formatter T va (writeStr T) ctx format args
    let mem := ctx.mem.set ctx.strEnd 0
    let mem := mem.set ctx.str 0
    pure (res, mem)

/-- The characters that the formatter emits. -/
def emitted (format : Ptr) (args : ν) : List Byte := (formatted T va format.bytes args).text

variable {T va}

/-! ### The sink -/

theorem writeStr_accepts : Accepts (writeStr T) := by
  intro c ctx
  unfold writeStr
  split_ifs <;> rfl

/-- How many characters of a text go into the room from `str` to `strEnd`. -/
def taken (text : List Byte) (str strEnd : ℕ) : ℕ := min text.length (strEnd - str)

/-- **A text through `write_str`**: the first characters are stored, as many as there is room
for. -/
theorem foldl_writeStr {str strEnd : ℕ} (text : List Byte) (mem : Mem) (h : str ≤ strEnd)
    (hlt : strEnd < T.space) :
    ∃ mem', text.foldl (fun s c => (writeStr T c s).2) ⟨mem, strEnd, str⟩ =
      ⟨mem', strEnd, str + taken text str strEnd⟩ ∧
      (∀ i < taken text str strEnd, text[i]? = some (mem' (str + i))) ∧
      ∀ x, x < str ∨ str + taken text str strEnd ≤ x → mem' x = mem x := by
  induction text generalizing mem str with
  | nil => exact ⟨mem, by simp [taken], by simp [taken], fun _ _ => rfl⟩
  | cons c text ih =>
    rw [List.foldl_cons]
    by_cases hroom : str < strEnd
    · have hadd : T.add str 1 = str + 1 := Target.add_of_lt (by omega)
      have htaken : taken (c :: text) str strEnd = taken text (str + 1) strEnd + 1 := by
        unfold taken
        rw [List.length_cons]
        omega
      obtain ⟨mem', h1, h2, h3⟩ := ih (mem.set str c) (show str + 1 ≤ strEnd from hroom)
      refine ⟨mem', ?_, ?_, ?_⟩
      · rw [writeStr, if_pos hroom, hadd, htaken, ← Nat.add_assoc, Nat.add_right_comm]
        exact h1
      · intro i hi
        cases i with
        | zero =>
          rw [List.getElem?_cons_zero, Nat.add_zero, h3 str (Or.inl (Nat.lt_succ_self _)),
            Mem.set_self]
        | succ i =>
          rw [List.getElem?_cons_succ, h2 i (by omega), Nat.add_right_comm, Nat.add_assoc]
      · intro x hx
        rw [h3 x (by omega), Mem.set_of_ne (by omega)]
    · have htaken : ∀ text, taken text str strEnd = 0 := fun text => by
        unfold taken
        omega
      obtain ⟨mem', h1, h2, h3⟩ := ih mem h
      rw [writeStr, if_neg hroom, htaken]
      rw [htaken] at h1 h2 h3
      exact ⟨mem', h1, by simp, h3⟩

/-! ### The law -/

/-- What a call that has emitted `text` leaves in a buffer of `n` bytes at `str`: as many characters
as fit before the NUL, the NUL, and all bytes outside the buffer as they were. -/
structure Holds (mem mem' : Mem) (str n : ℕ) (text : List Byte) : Prop where
  chars : ∀ i < min text.length (n - 1), text[i]? = some (mem' (str + i))
  nul : mem' (str + min text.length (n - 1)) = 0
  outside : ∀ x, x < str ∨ str + n ≤ x → mem' x = mem x

/-- A buffer with room for the text and its NUL, read from its beginning. -/
theorem Holds.string {mem mem' : Mem} {str n : ℕ} {text : List Byte} (h : Holds mem mem' str n text)
    (hlen : text.length < n) :
    ∃ junk, (List.range n).map (fun i => mem' (str + i)) = text ++ 0 :: junk := by
  refine ⟨((List.range n).map fun i => mem' (str + i)).drop (text.length + 1), ?_⟩
  refine List.ext_getElem? fun i => ?_
  rcases lt_trichotomy i text.length with hi | rfl | hi
  · rw [List.getElem?_append_left hi, h.chars i (by omega), List.getElem?_map,
      List.getElem?_range (by omega)]
    rfl
  · have hnul := h.nul
    rw [Nat.min_eq_left (by omega)] at hnul
    rw [List.getElem?_append_right le_rfl, Nat.sub_self, List.getElem?_map,
      List.getElem?_range hlen, List.getElem?_cons_zero, Option.map_some, hnul]
  · obtain ⟨k, rfl⟩ := Nat.exists_eq_add_of_le (show text.length + 1 ≤ i from hi)
    rw [List.getElem?_append_right (by omega),
      show text.length + 1 + k - text.length = k + 1 by omega, List.getElem?_cons_succ,
      List.getElem?_drop]

/-- **The law of truncation** for buffers of `n` and `m` bytes. -/
def SnprintfLaw (T : Target) (va : VaArg ν) (format : Ptr) (args : ν) (mem₁ : Mem) (str₁ n : ℕ)
    (mem₂ : Mem) (str₂ m : ℕ) : Prop :=
  ∃ res mem₁' mem₂', snprintf T va mem₁ str₁ n format args = .ok (res, mem₁') ∧
    snprintf T va mem₂ str₂ m format args = .ok (res, mem₂') ∧
    (0 ≤ res → res = (emitted T va format args).length) ∧
    Holds mem₁ mem₁' str₁ n (emitted T va format args) ∧
    Holds mem₂ mem₂' str₂ m (emitted T va format args) ∧
    ∀ i < min (emitted T va format args).length (n - 1), mem₁' (str₁ + i) = mem₂' (str₂ + i)

/-- The last byte of the buffer, also of one that ends where the address space ends. -/
theorem strEnd_eq {str n : ℕ} (hn : 1 ≤ n) (hfit : str + n ≤ T.space) :
    T.sub (T.add str n) 1 = str + (n - 1) := by
  have hspace := T.space_bounds
  rcases Nat.lt_or_eq_of_le hfit with hlt | heq
  · rw [Target.add_of_lt hlt, Target.sub_of_le (by omega) hlt]
    omega
  · rw [Target.add, heq, Nat.mod_self, Target.sub, Nat.mod_eq_of_lt (by omega)]
    omega

/-- One call of `snprintf` with a buffer of `n` bytes, in a run without a fault. -/
theorem snprintf_holds {format : Ptr} {args : ν} (mem : Mem) {str n : ℕ} (hf : format.addr ≠ 0)
    (hn : 1 ≤ n) (hfit : str + n ≤ T.space) (hlen : (emitted T va format args).length < 2 ^ 31)
    (hend : ∀ f, (formatted T va format.bytes args).ending ≠ .fault f) :
    ∃ mem', snprintf T va mem str n format args =
      .ok (if (formatted T va format.bytes args).ending = .stop then EOF
        else (emitted T va format args).length, mem') ∧
      Holds mem mem' str n (emitted T va format args) := by
  have hspace := T.space_bounds
  have hcount : ¬ intMax < (emitted T va format args).length := by
    unfold intMax
    omega
  have htaken : taken (emitted T va format args) str (str + (n - 1)) =
      min (emitted T va format args).length (n - 1) := by
    unfold taken
    omega
  obtain ⟨mem', hfold, hchars, hout⟩ := foldl_writeStr (T := T)
    (emitted T va format args) mem (show str ≤ str + (n - 1) by omega) (by omega)
  rw [htaken] at hfold hchars hout
  refine ⟨(mem'.set (str + (n - 1)) 0).set
    (str + min (emitted T va format args).length (n - 1)) 0, ?_, ⟨?_, ?_, ?_⟩⟩
  · unfold snprintf
    rw [if_neg (by omega), strEnd_eq hn hfit]
    dsimp only
    rw [formatter_of_accepts writeStr_accepts hf]
    unfold emitted at hfold hcount ⊢
    dsimp only
    rw [hfold, if_neg hcount, if_neg hcount]
    rcases h : (formatted T va format.bytes args).ending with ⟨⟩ | _ | f
    · rfl
    · rfl
    · exact absurd h (hend f)
  · intro i hi
    rw [hchars i hi, Mem.set_of_ne (by omega), Mem.set_of_ne (by omega)]
  · rw [Mem.set_self]
  · intro x hx
    rw [Mem.set_of_ne (by omega), Mem.set_of_ne (by omega), hout x (by omega)]

/-- A run with a fault has no result. -/
theorem snprintf_of_fault {format : Ptr} {args : ν} (mem : Mem) (str : ℕ) {n : ℕ} {f : Fault}
    (hf : format.addr ≠ 0) (hn : 1 ≤ n)
    (hend : (formatted T va format.bytes args).ending = .fault f) :
    snprintf T va mem str n format args = .error f := by
  unfold snprintf
  rw [if_neg (by omega)]
  dsimp only
  rw [formatter_of_accepts writeStr_accepts hf]
  dsimp only
  rw [hend]
  rfl

/-- **When `snprintf` keeps the law of truncation**: for every format and all arguments, and any two
buffers, exactly if the formatter gets to no directive that overruns the array of the integer
conversion or reads behind its argument. -/
theorem snprintf_law_iff (T : Target) (va : VaArg ν) {format : Ptr} (args : ν) (mem₁ mem₂ : Mem)
    {str₁ n str₂ m : ℕ} (hf : format.IsString) (hn : 1 ≤ n) (hm : n ≤ m)
    (hfit₁ : str₁ + n ≤ T.space) (hfit₂ : str₂ + m ≤ T.space)
    (hlen : (emitted T va format args).length < 2 ^ 31) :
    SnprintfLaw T va format args mem₁ str₁ n mem₂ str₂ m ↔
      ∀ d ∈ directives T va format.bytes args, ¬ d.Overruns ∧ ¬ d.Overreads := by
  constructor
  · rintro ⟨res, mem₁', -, h, -⟩ d hd
    have hno : ∀ f, (formatted T va format.bytes args).ending ≠ .fault f := by
      intro f hend
      rw [snprintf_of_fault mem₁ str₁ hf.1 hn hend] at h
      cases h
    constructor
    · intro hover
      exact hno .digits ((formatted_ending_eq_fault hf.2).mpr ⟨d, hd, Or.inl ⟨rfl, hover⟩⟩)
    · intro hover
      exact hno .string ((formatted_ending_eq_fault hf.2).mpr ⟨d, hd, Or.inr ⟨rfl, hover⟩⟩)
  · intro hsafe
    have hend : ∀ f, (formatted T va format.bytes args).ending ≠ .fault f := by
      intro f hend
      rcases (formatted_ending_eq_fault hf.2).mp hend with ⟨d, hd, ⟨-, h⟩ | ⟨-, h⟩⟩
      · exact (hsafe d hd).1 h
      · exact (hsafe d hd).2 h
    obtain ⟨mem₁', h₁, hold₁⟩ := snprintf_holds mem₁ hf.1 hn hfit₁ hlen hend
    obtain ⟨mem₂', h₂, hold₂⟩ := snprintf_holds mem₂ hf.1 (hn.trans hm) hfit₂ hlen hend
    refine ⟨_, mem₁', mem₂', h₁, h₂, ?_, hold₁, hold₂, ?_⟩
    · intro hres
      split_ifs at hres ⊢ with hstop
      · cases hres
      · rfl
    · intro i hi
      have hi₂ := hold₂.chars i (by omega)
      rw [hold₁.chars i hi] at hi₂
      exact Option.some.inj hi₂

theorem snprintf_law_iff_number : SnprintfLaw .x8664 wordArgs ⟨1, cstr "%d %-5x|%"⟩
    [1234567890, 255] (fun _ => 1) 4096 4 (fun _ => 1) 8192 64 :=
  (snprintf_law_iff .x8664 wordArgs [1234567890, 255] (fun _ => 1) (fun _ => 1)
    ⟨by decide, by decide⟩ (by decide) (by decide) (by decide) (by decide) (by decide)).mpr
    (by decide)

/-- With the store below the array, neither call of a pair has a defined result. -/
theorem snprintf_law_minus : ¬ SnprintfLaw .x8664 wordArgs ⟨1, cstr "%.67d"⟩ [-1]
    (fun _ => 0) 4096 80 (fun _ => 0) 8192 80 := by
  rintro ⟨res, mem', -, h, -⟩
  have hfault : snprintf .x8664 wordArgs (fun _ => 0) 4096 80 ⟨1, cstr "%.67d"⟩ [-1] =
      .error .digits := snprintf_of_fault _ _ (by decide) (by decide) rfl
  rw [hfault] at h
  cases h

end Noc.Printf
