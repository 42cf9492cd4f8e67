import Noc.Printf.Run
import Noc.Printf.Snprintf

/-! # `printf`

`printf` with `write_printf` as the sink of the formatter: it collects the characters in an array
and gives the array to `putnstr` when a character comes and there is no room for it. The
platform's `putnstr` is a parameter; a `Console` records its calls.

* `printf_output_iff`: when no call of `putnstr` fails, the bytes given to it are, one after the
  other, the text that `snprintf` stores in a buffer that is large enough, exactly if the format is
  not silent, that is if this text is not empty.
* `printf_result_iff`: when every call of `putnstr` writes everything, the result is that of
  `snprintf` exactly if the text fits in the array, which is written out at the end. -/

namespace Noc.Printf

open Noc.Lib.Bytes Noc.Lib.Output Noc.Targets

variable {ν τ : Type} (T : Target) (va : VaArg ν)

/-! ### The functions of the source -/

/-- `putnstr`, on a platform with states `τ`: what it returns and the new state. -/
abbrev Putnstr (τ : Type) : Type := List Byte → τ → ℤ × τ

/-- A call of `putnstr`: the bytes it was given and what it returned. -/
structure Call where
  bytes : List Byte
  res : ℤ

/-- The platform, and the calls of `putnstr` so far. -/
structure Console (τ : Type) where
  platform : τ
  calls : List Call

/-- A call of `putnstr`. -/
def Console.put (putnstr : Putnstr τ) (str : List Byte) (console : Console τ) : ℤ × Console τ :=
  let (res, platform) := putnstr str console.platform
  (res, ⟨platform, console.calls ++ [⟨str, res⟩]⟩)

/-- `PRINTF_BUFFER_SIZE` -/
def printfBufferSize : ℕ := 256

/-- `struct printf_state`: the first `len` characters of its array, and the console. -/
structure PrintfState (τ : Type) where
  buf : List Byte
  fits : buf.length ≤ printfBufferSize
  console : Console τ

/-- `write_printf` -/
def writePrintf (putnstr : Putnstr τ) (c : Byte) (ctx : PrintfState τ) : Bool × PrintfState τ :=
  if h : ctx.buf.length < printfBufferSize then
    (true, ⟨ctx.buf ++ [c], by rw [List.length_append]; exact h, ctx.console⟩)
  else
    let (res, console) := ctx.console.put putnstr ctx.buf
    if res < 0 then (false, { ctx with console := console })
    else (true, ⟨[c], by rw [List.length_singleton]; decide, console⟩)

/-- `(int)x` -/
def toInt (x : ℤ) : ℤ := x.bmod (2 ^ 32)

/-- The end of `printf`, with the result of the formatter. -/
def printfEnd (putnstr : Putnstr τ) (res : ℤ) (ctx : PrintfState τ) : ℤ × Console τ :=
  if 0 < res then
    if ctx.buf.length ≠ 0 then
      let (res, console) := ctx.console.put putnstr ctx.buf
      (toInt res, console)
    else (res, ctx.console)
  else
    let (_, console) := ctx.console.put putnstr errorStr
    (res, console)

/-- `printf`: the result and the console. -/
def printf (putnstr : Putnstr τ) (console : Console τ) (format : Ptr) (args : ν) :
    Except Fault (ℤ × Console τ) := do
  let ctx := ⟨[], Nat.zero_le _, console⟩
  let (res, ctx) ← formatter T va (writePrintf putnstr) ctx format args
  pure (printfEnd putnstr res ctx)

variable {T va} {putnstr : Putnstr τ} {format : Ptr} {args : ν}

/-! ### The sink -/

/-- All bytes given to `putnstr`. -/
def Console.output (console : Console τ) : List Byte := console.calls.flatMap Call.bytes

/-- No call of `putnstr` has failed. -/
def Console.Succeeded (console : Console τ) : Prop := ∀ call ∈ console.calls, 0 ≤ call.res

/-- What was given to `putnstr`, and what is to be given to it. -/
def PrintfState.written (ctx : PrintfState τ) : List Byte := ctx.console.output ++ ctx.buf

@[simp] theorem Console.put_output (str : List Byte) (console : Console τ) :
    (console.put putnstr str).2.output = console.output ++ str := by
  simp [Console.put, Console.output]

theorem Console.succeeded_put {str : List Byte} {console : Console τ} :
    (console.put putnstr str).2.Succeeded ↔
      console.Succeeded ∧ 0 ≤ (console.put putnstr str).1 := by
  simp [Console.put, Console.Succeeded, or_imp, forall_and]

/-- A character for which there is no room. -/
theorem writePrintf_full {c : Byte} {ctx : PrintfState τ}
    (h : ¬ ctx.buf.length < printfBufferSize) : writePrintf putnstr c ctx =
      if (ctx.console.put putnstr ctx.buf).1 < 0 then
        (false, { ctx with console := (ctx.console.put putnstr ctx.buf).2 })
      else (true, ⟨[c], by rw [List.length_singleton]; decide,
        (ctx.console.put putnstr ctx.buf).2⟩) :=
  dif_neg h

theorem writePrintf_collects : Collects (writePrintf putnstr) PrintfState.written := by
  intro c ctx h
  by_cases hroom : ctx.buf.length < printfBufferSize
  · rw [writePrintf, dif_pos hroom]
    simp [PrintfState.written]
  · rw [writePrintf_full hroom] at h ⊢
    split_ifs at h ⊢ with hres
    simp [PrintfState.written]

/-- The sink refuses a character after a call of `putnstr` that has failed. -/
theorem writePrintf_refused (c : Byte) (ctx : PrintfState τ)
    (h : (writePrintf putnstr c ctx).1 = false) :
    ¬ (writePrintf putnstr c ctx).2.console.Succeeded := by
  by_cases hroom : ctx.buf.length < printfBufferSize
  · rw [writePrintf, dif_pos hroom] at h
    cases h
  · rw [writePrintf_full hroom] at h ⊢
    split_ifs at h ⊢ with hres
    rw [Console.succeeded_put]
    exact fun hs => absurd hres (not_lt.mpr hs.2)

/-! ### The text of `snprintf` -/

/-- A successful `snprintf` into a buffer with room for all leaves the text there. -/
theorem snprintf_text {mem mem' : Mem} {str n : ℕ} {res : ℤ} (hfit : str + n ≤ T.space)
    (h : snprintf T va mem str n format args = .ok (res, mem')) (hres : 0 ≤ res)
    (hlarge : res < n) : format.addr ≠ 0 ∧
      (formatted T va format.bytes args).ending = .value () ∧
      (emitted T va format args).length ≤ intMax ∧ res = (emitted T va format args).length ∧
      (List.range res.toNat).map (fun i => mem' (str + i)) = emitted T va format args := by
  have hcall := h
  unfold snprintf at h
  by_cases hn : n = 0
  · omega
  rw [if_neg hn] at h
  dsimp only at h
  rcases hf : formatter T va (writeStr T) ⟨mem, T.sub (T.add str n) 1, str⟩ format args with
    f | ⟨res', ctx⟩
  · rw [hf] at h
    cases h
  have hres' : res' = res := by
    rw [hf] at h
    cases h
    rfl
  subst hres'
  obtain ⟨h1, h2, -, h4, h5⟩ := formatter_of_nonneg hf hres
  change (emitted T va format args).length ≤ intMax at h4
  change res' = (emitted T va format args).length at h5
  have hend : ∀ f, (formatted T va format.bytes args).ending ≠ .fault f := by
    rw [h2]
    intro f hf
    cases hf
  refine ⟨h1, h2, h4, h5, ?_⟩
  obtain ⟨mem₁, h6, hold⟩ := snprintf_holds mem h1 (by omega) hfit
    (by unfold intMax at h4; omega) hend
  have hmem : mem₁ = mem' := by
    rw [hcall] at h6
    exact (Prod.mk.inj (Except.ok.inj h6)).2.symm
  refine List.ext_getElem? fun i => ?_
  rw [h5, Int.toNat_natCast, List.getElem?_map]
  rcases Nat.lt_or_ge i (emitted T va format args).length with hi | hi
  · rw [List.getElem?_range hi, hold.chars i (by omega), hmem]
    rfl
  · rw [List.getElem?_eq_none (by rw [List.length_range]; exact hi), List.getElem?_eq_none hi]
    rfl

/-! ### The output of `printf` -/

/-- The formatter with a sink that may refuse. -/
theorem formatter_of_value {σ : Type} {write : Byte → σ → Bool × σ} {state : σ}
    (h0 : format.addr ≠ 0) (hend : (formatted T va format.bytes args).ending = .value ())
    (hcount : (emitted T va format args).length ≤ intMax) :
    formatter T va write state format args =
      .ok (if (deliver write (emitted T va format args) 0 state).1 then
          ((emitted T va format args).length : ℤ) else EOF,
        (deliver write (emitted T va format args) 0 state).2.2) := by
  unfold formatter emitted at *
  rw [if_neg h0]
  dsimp only
  rcases hd : deliver write (formatted T va format.bytes args).text 0 state with
    ⟨accepted, count, state'⟩
  have hle := deliver_count_le write (formatted T va format.bytes args).text 0 state
  rw [hd, Nat.zero_add] at hle
  dsimp only at hle ⊢
  have hnot : ¬ intMax < count := by omega
  cases accepted with
  | false => rw [if_neg Bool.false_ne_true, if_neg Bool.false_ne_true, if_neg hnot]
  | true =>
    have hlen := deliver_count (congrArg Prod.fst hd)
    rw [hd, Nat.zero_add] at hlen
    dsimp only at hlen
    rw [hend, if_pos rfl, if_pos rfl]
    dsimp only
    rw [if_neg hnot, hlen]

theorem printfEnd_output (res : ℤ) (ctx : PrintfState τ) :
    (printfEnd putnstr res ctx).2.output =
      if 0 < res then ctx.written else ctx.console.output ++ errorStr := by
  unfold printfEnd
  by_cases hres : 0 < res
  · rw [if_pos hres, if_pos hres]
    by_cases hbuf : ctx.buf.length ≠ 0
    · rw [if_pos hbuf]
      exact Console.put_output _ _
    · have hnil := List.eq_nil_of_length_eq_zero (not_not.mp hbuf)
      rw [if_neg hbuf, PrintfState.written, hnil, List.append_nil]
  · rw [if_neg hres, if_neg hres]
    exact Console.put_output _ _

/-- The end of `printf` takes back no failure. -/
theorem printfEnd_succeeded {res : ℤ} {ctx : PrintfState τ}
    (h : (printfEnd putnstr res ctx).2.Succeeded) : ctx.console.Succeeded := by
  unfold printfEnd at h
  split_ifs at h
  · exact (Console.succeeded_put.mp h).1
  · exact h
  · exact (Console.succeeded_put.mp h).1

/-- **When `printf` prints the text that `snprintf` stores**: for every format and all arguments on
which `snprintf` succeeds with a buffer that is large enough, and every `putnstr` that has not
failed, exactly if the format is not silent: not empty, nor made only of strings that are shown as
nothing. -/
theorem printf_output_iff (T : Target) (va : VaArg ν) (putnstr : Putnstr τ) (platform : τ)
    {format : Ptr} {args : ν} {mem mem' : Mem} {str n : ℕ} {res : ℤ}
    (hzero : (0 : Byte) ∈ format.bytes) (hfit : str + n ≤ T.space)
    (h : snprintf T va mem str n format args = .ok (res, mem')) (hres : 0 ≤ res)
    (hlarge : res < n) :
    ∃ r console, printf T va putnstr ⟨platform, []⟩ format args = .ok (r, console) ∧
      (console.Succeeded →
        (console.output = (List.range res.toNat).map (fun i => mem' (str + i)) ↔
          ¬ Silent T va format.bytes args)) := by
  obtain ⟨h0, hend, hcount, hlen, htext⟩ := snprintf_text hfit h hres hlarge
  rw [htext, ← formatted_text_eq_nil_iff hzero hend]
  unfold printf
  dsimp only
  rw [formatter_of_value h0 hend hcount]
  refine ⟨(printfEnd putnstr _ _).1, (printfEnd putnstr _ _).2, rfl, fun hsucc => ?_⟩
  have hsucc := printfEnd_succeeded hsucc
  have hacc : (deliver (writePrintf putnstr) (emitted T va format args) 0
      (⟨[], Nat.zero_le _, ⟨platform, []⟩⟩ : PrintfState τ)).1 = true := by
    by_contra hacc
    exact deliver_of_refused (P := fun ctx => ¬ ctx.console.Succeeded) writePrintf_refused
      (Bool.eq_false_iff.mpr hacc) hsucc
  rw [printfEnd_output, if_pos hacc]
  change _ ↔ emitted T va format args ≠ []
  by_cases hnil : emitted T va format args = []
  · -- nothing is printed, and `ERROR_STR` is
    rw [hnil]
    simp [Console.output, errorStr, cstr, deliver]
  · have hpos : 0 < ((emitted T va format args).length : ℤ) := by
      have := List.length_pos_iff.mpr hnil
      omega
    rw [if_pos hpos, deliver_of_collects writePrintf_collects hacc]
    exact iff_of_true rfl hnil

theorem printf_output_iff_number : ∃ mem' r console,
    snprintf .x8664 wordArgs (fun _ => 1) 4096 16 ⟨1, cstr "n = %d"⟩ [-5] = .ok (6, mem') ∧
    printf .x8664 wordArgs (fun s (u : Unit) => ((s.length : ℤ), u)) ⟨(), []⟩ ⟨1, cstr "n = %d"⟩
      [-5] = .ok (r, console) ∧
    (console.Succeeded → (console.output = (List.range 6).map (fun i => mem' (4096 + i)) ↔
      ¬ Silent .x8664 wordArgs (cstr "n = %d") [-5])) := by
  obtain ⟨mem', h⟩ : ∃ mem', snprintf .x8664 wordArgs (fun _ => 1) 4096 16 ⟨1, cstr "n = %d"⟩ [-5] =
      .ok (6, mem') := ⟨_, rfl⟩
  obtain ⟨r, console, h1, h2⟩ := printf_output_iff .x8664 wordArgs
    (fun s (u : Unit) => ((s.length : ℤ), u)) () (by decide) (by decide) h (by decide) (by decide)
  exact ⟨mem', r, console, h, h1, h2⟩

/-- Of the empty format, `printf` prints `ERROR_STR` with its NUL. -/
theorem printf_output_empty : ∃ mem' console,
    snprintf .x8664 wordArgs (fun _ => 1) 4096 16 ⟨1, cstr ""⟩ [] = .ok (0, mem') ∧
    printf .x8664 wordArgs (fun s (u : Unit) => ((s.length : ℤ), u)) ⟨(), []⟩ ⟨1, cstr ""⟩ [] =
      .ok (0, console) ∧
    console.Succeeded ∧ console.output = errorStr ∧
    console.output ≠ (List.range 0).map (fun i => mem' (4096 + i)) := by
  refine ⟨_, _, rfl, rfl, ?_, rfl, by decide⟩
  intro call hcall
  rw [List.mem_singleton.mp hcall]
  decide

/-! ### The result of `printf` -/

/-- `putnstr` always writes everything, and returns the number of bytes it was given. -/
def WritesAll (putnstr : Putnstr τ) : Prop := ∀ str platform, (putnstr str platform).1 = str.length

/-- The number of characters in the array after `m` more. -/
def fill (len m : ℕ) : ℕ := if m = 0 then len else (len + m - 1) % printfBufferSize + 1

theorem writePrintf_of_writesAll (hput : WritesAll putnstr) (c : Byte) (ctx : PrintfState τ) :
    (writePrintf putnstr c ctx).1 = true ∧
      (writePrintf putnstr c ctx).2.buf.length = fill ctx.buf.length 1 := by
  have hfits := ctx.fits
  unfold printfBufferSize at hfits
  unfold fill printfBufferSize
  by_cases hroom : ctx.buf.length < printfBufferSize
  · rw [writePrintf, dif_pos hroom]
    unfold printfBufferSize at hroom
    refine ⟨rfl, ?_⟩
    dsimp only
    rw [List.length_append, List.length_singleton, if_neg (by omega)]
    omega
  · have hres : (ctx.console.put putnstr ctx.buf).1 = ctx.buf.length := hput _ _
    rw [writePrintf_full hroom, hres, if_neg (by omega)]
    unfold printfBufferSize at hroom
    refine ⟨rfl, ?_⟩
    dsimp only
    rw [List.length_singleton, if_neg (by omega)]
    omega

theorem fill_succ {len : ℕ} (hlen : len ≤ printfBufferSize) (m : ℕ) :
    fill (fill len 1) m = fill len (m + 1) := by
  unfold fill printfBufferSize at *
  rw [if_neg Nat.one_ne_zero, if_neg (Nat.succ_ne_zero m)]
  split_ifs with h0
  · rw [h0]
  · omega

/-- **What is in the array after a text**: a whole number of arrays has been written out. -/
theorem deliver_of_writesAll (hput : WritesAll putnstr) (text : List Byte) (count : ℕ)
    (ctx : PrintfState τ) : (deliver (writePrintf putnstr) text count ctx).1 = true ∧
      (deliver (writePrintf putnstr) text count ctx).2.2.buf.length =
        fill ctx.buf.length text.length := by
  induction text generalizing count ctx with
  | nil => exact ⟨rfl, rfl⟩
  | cons c text ih =>
    obtain ⟨h1, h2⟩ := writePrintf_of_writesAll hput c ctx
    rw [deliver, List.length_cons, ← fill_succ ctx.fits, ← h2, if_pos h1]
    exact ih (count + 1) _

/-- The result is that of the last `putnstr`. -/
theorem printfEnd_of_writesAll (hput : WritesAll putnstr) {res : ℤ} {ctx : PrintfState τ}
    (hres : 0 < res) (hbuf : ctx.buf.length ≠ 0) :
    (printfEnd putnstr res ctx).1 = ctx.buf.length := by
  have hfits := ctx.fits
  unfold printfBufferSize at hfits
  have hput : (ctx.console.put putnstr ctx.buf).1 = ctx.buf.length := hput _ _
  rw [printfEnd, if_pos hres, if_pos hbuf]
  show toInt (ctx.console.put putnstr ctx.buf).1 = _
  rw [hput, toInt, Int.bmod_eq_of_le_mul_two (by omega) (by omega)]

/-- What `printf` returns of a text that the formatter emits: what is in the array at its end. -/
theorem printf_of_writesAll (hput : WritesAll putnstr) (platform : τ) (h0 : format.addr ≠ 0)
    (hend : (formatted T va format.bytes args).ending = .value ())
    (hcount : (emitted T va format args).length ≤ intMax) :
    ∃ console, printf T va putnstr ⟨platform, []⟩ format args =
      .ok (fill 0 (emitted T va format args).length, console) := by
  obtain ⟨hacc, hbuf⟩ := deliver_of_writesAll hput (emitted T va format args) 0
    (⟨[], Nat.zero_le _, ⟨platform, []⟩⟩ : PrintfState τ)
  unfold printf
  dsimp only
  rw [formatter_of_value h0 hend hcount, if_pos hacc]
  generalize (deliver (writePrintf putnstr) (emitted T va format args) 0
    (⟨[], Nat.zero_le _, ⟨platform, []⟩⟩ : PrintfState τ)).2.2 = ctx at hbuf
  rw [List.length_nil] at hbuf
  suffices hres : (printfEnd putnstr (emitted T va format args).length ctx).1 =
      fill 0 (emitted T va format args).length from
    ⟨(printfEnd putnstr (emitted T va format args).length ctx).2, by rw [← hres]; rfl⟩
  rcases Nat.eq_zero_or_pos (emitted T va format args).length with hnil | hpos
  · -- nothing is emitted: the result of the formatter stays
    rw [hnil]
    rfl
  · have hne : ctx.buf.length ≠ 0 := by
      rw [hbuf, fill, if_neg (by omega)]
      omega
    rw [printfEnd_of_writesAll hput (by omega) hne, hbuf]

/-- **When `printf` returns what `snprintf` does**: for every format and all arguments on which
`snprintf` succeeds with a buffer that is large enough, and every `putnstr` that writes everything,
exactly if the text goes into one array. Otherwise the result is what the last `putnstr` wrote. -/
theorem printf_result_iff (T : Target) (va : VaArg ν) (putnstr : Putnstr τ)
    (hput : WritesAll putnstr) (platform : τ) {format : Ptr} {args : ν} {mem mem' : Mem}
    {str n : ℕ} {res : ℤ} (hfit : str + n ≤ T.space)
    (h : snprintf T va mem str n format args = .ok (res, mem')) (hres : 0 ≤ res)
    (hlarge : res < n) :
    ∃ r console, printf T va putnstr ⟨platform, []⟩ format args = .ok (r, console) ∧
      (r = res ↔ res ≤ printfBufferSize) := by
  obtain ⟨h0, hend, hcount, hlen, -⟩ := snprintf_text hfit h hres hlarge
  obtain ⟨console, hrun⟩ := printf_of_writesAll hput platform h0 hend hcount
  refine ⟨_, console, hrun, ?_⟩
  unfold fill printfBufferSize
  split_ifs <;> omega

theorem printf_result_iff_number : ∃ r console,
    printf .x8664 wordArgs (fun s (u : Unit) => ((s.length : ℤ), u)) ⟨(), []⟩ ⟨1, cstr "n = %d"⟩
      [-5] = .ok (r, console) ∧ (r = 6 ↔ (6 : ℤ) ≤ printfBufferSize) := by
  obtain ⟨mem', h⟩ : ∃ mem', snprintf .x8664 wordArgs (fun _ => 1) 4096 16 ⟨1, cstr "n = %d"⟩ [-5] =
      .ok (6, mem') := ⟨_, rfl⟩
  exact printf_result_iff .x8664 wordArgs (fun s (u : Unit) => ((s.length : ℤ), u))
    (fun _ _ => rfl) () (by decide) h (by decide) (by decide)

/-- Two fields of 128 characters and one character more: `printf` returns 1. -/
theorem printf_result_long : ∃ mem' console,
    snprintf .x8664 wordArgs (fun _ => 1) 4096 300 ⟨1, cstr "%128d%128dx"⟩ [1, 2] =
      .ok (257, mem') ∧
    printf .x8664 wordArgs (fun s (u : Unit) => ((s.length : ℤ), u)) ⟨(), []⟩
      ⟨1, cstr "%128d%128dx"⟩ [1, 2] = .ok (1, console) := by
  have h0 : (⟨1, cstr "%128d%128dx"⟩ : Ptr).addr ≠ 0 := Nat.one_ne_zero
  have hend : (formatted .x8664 wordArgs (cstr "%128d%128dx") [1, 2]).ending = .value () := by
    decide +kernel
  have hlen : (emitted .x8664 wordArgs ⟨1, cstr "%128d%128dx"⟩ [1, 2]).length = 257 := by
    decide +kernel
  obtain ⟨mem', h1⟩ : ∃ mem', snprintf .x8664 wordArgs (fun _ => 1) 4096 300
      ⟨1, cstr "%128d%128dx"⟩ [1, 2] = .ok (257, mem') := by
    obtain ⟨mem', h1, -⟩ := snprintf_holds (fun _ => 1) h0 (by decide)
      (show 4096 + 300 ≤ Target.space .x8664 by decide) (by rw [hlen]; decide)
      (fun f => by rw [hend]; simp)
    rw [hlen, hend] at h1
    exact ⟨mem', h1⟩
  have hput : WritesAll fun s (u : Unit) => ((s.length : ℤ), u) := fun _ _ => rfl
  obtain ⟨console, h2⟩ := printf_of_writesAll hput () h0 hend (by rw [hlen]; decide)
  rw [hlen] at h2
  exact ⟨mem', console, h1, h2⟩

end Noc.Printf
