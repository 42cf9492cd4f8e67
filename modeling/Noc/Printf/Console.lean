import Noc.Lib.Log
import Noc.Printf.Stdout

/-! # A program that prints

Calls of `printf` and `puts` one after the other, on a platform whose `putnstr` may fail.

* `deliver_writes`: what `write_printf` has given to `putnstr` when it has taken a text, or when it
  refuses a character.
* `printf_writes`, `puts_writes`: the calls of `putnstr` of one call.
* `run_writes`: up to the first call of `putnstr` that fails, the output of a program begins like
  the texts of its calls one after the other, and it is all of them if none fails.

The text of a call is not always what its format emits: `printf` writes the error string in place of
the rest of its array when the formatter ends with `EOF`, and so loses up to 256 characters that the
format has emitted (`Print.shows`, `flushed`). -/

namespace Noc.Printf

open Noc.Lib.Log Noc.Lib.Output Noc.Targets

variable {ν τ : Type} {T : Target} {va : VaArg ν} {putnstr : Putnstr τ}

/-! ### The functions of the source -/

/-- `NEWLINE`, without its NUL -/
def newline : List Byte := ['\n'.toUInt8]

/-- `puts`: the result and the console. -/
def puts (putnstr : Putnstr τ) (console : Console τ) (str : Ptr) : Except Fault (ℤ × Console τ) :=
  if str.addr = 0 then .ok (EOF, console)
  else do
    let len ← strlen str.bytes
    let (res, console) := console.put putnstr (str.bytes.take len)
    if 0 ≤ toInt res then
      let (res, console) := console.put putnstr newline
      pure (toInt res, console)
    else pure (toInt res, console)

/-- A call of a program. -/
inductive Print (ν : Type) where
  | printf (format : Ptr) (args : ν)
  | puts (str : Ptr)

def Print.run (T : Target) (va : VaArg ν) (putnstr : Putnstr τ) (console : Console τ) :
    Print ν → Except Fault (ℤ × Console τ)
  | .printf format args => Printf.printf T va putnstr console format args
  | .puts str => Printf.puts putnstr console str

/-- A program: the results of its calls, and the console. -/
def runPrints (T : Target) (va : VaArg ν) (putnstr : Putnstr τ) :
    Console τ → List (Print ν) → Except Fault (List ℤ × Console τ)
  | console, [] => .ok ([], console)
  | console, p :: ps => do
    let (r, console) ← p.run T va putnstr console
    let (rs, console) ← runPrints T va putnstr console ps
    pure (r :: rs, console)

/-! ### What a program shows -/

/-- The part of a text that leaves the array of `printf` while the text is emitted: as many full
arrays as have a character behind them. -/
def flushed (text : List Byte) : List Byte :=
  text.take ((text.length - 1) / printfBufferSize * printfBufferSize)

/-- The text of a call. Of `printf`, this is what the formatter emits, or `ERROR_STR` with its NUL
if it emits nothing. When the formatter ends with `EOF`, it is `ERROR_STR` behind the full arrays
that have left before; the last 1 to 256 characters that were emitted are still in the array and are
lost. -/
def Print.shows (T : Target) (va : VaArg ν) : Print ν → List Byte
  | .printf format args =>
    if format.addr = 0 then errorStr
    else if (formatted T va format.bytes args).ending = .value () then
      if emitted T va format args = [] then errorStr else emitted T va format args
    else flushed (emitted T va format args) ++ errorStr
  | .puts str => if str.addr = 0 then [] else str.bytes.takeWhile (· ≠ 0) ++ newline

/-- The call failed: its result is negative, as it is or as an `int`. -/
def Call.Failed (call : Call) : Prop := call.res < 0 ∨ toInt call.res < 0

instance (call : Call) : Decidable call.Failed := inferInstanceAs (Decidable (_ ∨ _))

/-- The calls write the text as far as they succeed. -/
abbrev Shows (calls : List Call) (text : List Byte) : Prop :=
  Writes Call.bytes Call.Failed calls text

/-! ### `write_printf` -/

variable {ctx : PrintfState τ} {console : Console τ} {format : Ptr} {args : ν}

theorem Console.put_calls (str : List Byte) (console : Console τ) :
    (console.put putnstr str).2.calls =
      console.calls ++ [⟨str, (console.put putnstr str).1⟩] :=
  rfl

/-- A character that is taken: what was in the array and has been given to `putnstr`, and what is in
the array now. -/
theorem writePrintf_taken {c : Byte} (h : (writePrintf putnstr c ctx).1 = true) : ∃ new,
    (writePrintf putnstr c ctx).2.console.calls = ctx.console.calls ++ new ∧
      new.flatMap Call.bytes ++ (writePrintf putnstr c ctx).2.buf = ctx.buf ++ [c] ∧
      (writePrintf putnstr c ctx).2.buf.length = fill ctx.buf.length 1 := by
  have hfits := ctx.fits
  unfold printfBufferSize at hfits
  by_cases hroom : ctx.buf.length < printfBufferSize
  · rw [writePrintf, dif_pos hroom]
    refine ⟨[], (List.append_nil _).symm, rfl, ?_⟩
    unfold printfBufferSize at hroom
    rw [List.length_append, List.length_singleton, fill, if_neg Nat.one_ne_zero, printfBufferSize]
    omega
  · rw [writePrintf_full hroom] at h ⊢
    split_ifs at h ⊢
    refine ⟨_, Console.put_calls _ _, by simp, ?_⟩
    unfold printfBufferSize at hroom
    rw [List.length_singleton, fill, if_neg Nat.one_ne_zero, printfBufferSize]
    omega

/-- A character that is refused: the array was full, and `putnstr` has failed on it. -/
theorem writePrintf_not_taken {c : Byte} (h : (writePrintf putnstr c ctx).1 = false) :
    ctx.buf.length = printfBufferSize ∧ ∃ call : Call, call.Failed ∧ call.bytes = ctx.buf ∧
      (writePrintf putnstr c ctx).2.console.calls = ctx.console.calls ++ [call] := by
  have hfits := ctx.fits
  by_cases hroom : ctx.buf.length < printfBufferSize
  · rw [writePrintf, dif_pos hroom] at h
    cases h
  · rw [writePrintf_full hroom] at h ⊢
    split_ifs at h ⊢ with hres
    exact ⟨by omega, _, Or.inl hres, rfl, Console.put_calls _ _⟩

/-- Where the last array of a text begins that goes behind `len` characters. -/
theorem take_fill_append {l l' : List Byte} (k : ℕ) (h : l.length ≤ k) :
    (l ++ l').take k = l ++ l'.take (k - l.length) := by
  rw [List.take_append, List.take_of_length_le h]

theorem fill_le {len m : ℕ} (hlen : len ≤ printfBufferSize) : fill len m ≤ len + m := by
  unfold fill printfBufferSize at *
  split_ifs <;> omega

/-- **What `write_printf` does with a text.** It has given to `putnstr` what is not in the array; or
a call of `putnstr` has failed, and nothing else was given to it than what has to leave the
array. -/
theorem deliver_writes (putnstr : Putnstr τ) (text : List Byte) (count : ℕ)
    (ctx : PrintfState τ) : ∃ new,
    (deliver (writePrintf putnstr) text count ctx).2.2.console.calls = ctx.console.calls ++ new ∧
    if (deliver (writePrintf putnstr) text count ctx).1 then
      new.flatMap Call.bytes ++ (deliver (writePrintf putnstr) text count ctx).2.2.buf =
          ctx.buf ++ text ∧
        (deliver (writePrintf putnstr) text count ctx).2.2.buf.length =
          fill ctx.buf.length text.length
    else (∃ call ∈ new, call.Failed) ∧ new.flatMap Call.bytes <+: (ctx.buf ++ text).take
      (ctx.buf.length + text.length - fill ctx.buf.length text.length) := by
  induction text generalizing count ctx with
  | nil => exact ⟨[], (List.append_nil _).symm, by simp [deliver, fill]⟩
  | cons c text ih =>
    rw [deliver]
    by_cases hc : (writePrintf putnstr c ctx).1 = true
    · obtain ⟨new₁, hcalls₁, hbytes₁, hlen₁⟩ := writePrintf_taken hc
      obtain ⟨new₂, hcalls₂, h₂⟩ := ih (count + 1) (writePrintf putnstr c ctx).2
      have hall : ctx.buf ++ c :: text =
          new₁.flatMap Call.bytes ++ ((writePrintf putnstr c ctx).2.buf ++ text) := by
        rw [← List.append_assoc, hbytes₁, List.append_assoc]
        rfl
      rw [hlen₁, fill_succ ctx.fits] at h₂
      rw [if_pos hc]
      refine ⟨new₁ ++ new₂, by rw [hcalls₂, hcalls₁, List.append_assoc], ?_⟩
      rw [List.flatMap_append, List.length_cons]
      split_ifs at h₂ ⊢
      · rw [hall, List.append_assoc, h₂.1]
        exact ⟨rfl, h₂.2⟩
      · obtain ⟨⟨call, hmem, hf⟩, hprefix⟩ := h₂
        refine ⟨⟨call, List.mem_append_right _ hmem, hf⟩, ?_⟩
        have hlen := congrArg List.length hbytes₁
        have hfill := fill_le (m := text.length + 1) ctx.fits
        have hfill' := fill_le (m := text.length) (writePrintf putnstr c ctx).2.fits
        rw [hlen₁, fill_succ ctx.fits] at hfill'
        rw [List.length_append, List.length_append, List.length_singleton, hlen₁] at hlen
        rw [hall, take_fill_append _ (by omega), List.prefix_append_right_inj]
        refine hprefix.trans (List.take_prefix_take_left ?_)
        omega
    · obtain ⟨hfull, call, hf, hbytes, hcalls⟩ := writePrintf_not_taken (Bool.eq_false_iff.mpr hc)
      rw [if_neg hc]
      refine ⟨[call], hcalls, ?_⟩
      rw [if_neg Bool.false_ne_true]
      refine ⟨⟨call, List.mem_singleton.mpr rfl, hf⟩, ?_⟩
      rw [List.flatMap_singleton, hbytes, hfull, List.length_cons, take_fill_append]
      · exact List.prefix_append _ _
      · rw [hfull, fill, if_neg (Nat.succ_ne_zero _), printfBufferSize]
        omega

/-! ### One call -/

/-- The end of `printf` on an error: `ERROR_STR` is written. -/
theorem printfEnd_error (putnstr : Putnstr τ) {res : ℤ} (hres : ¬ 0 < res) (ctx : PrintfState τ) :
    ∃ call : Call, call.bytes = errorStr ∧
      (printfEnd putnstr res ctx).2.calls = ctx.console.calls ++ [call] := by
  rw [printfEnd, if_neg hres]
  exact ⟨_, rfl, Console.put_calls _ _⟩

/-- The end of `printf` otherwise: what is in the array is written. -/
theorem printfEnd_rest (putnstr : Putnstr τ) {res : ℤ} (hres : 0 < res) {ctx : PrintfState τ}
    (hbuf : ctx.buf ≠ []) :
    ∃ call : Call, call.bytes = ctx.buf ∧
      (printfEnd putnstr res ctx).2.calls = ctx.console.calls ++ [call] := by
  rw [printfEnd, if_pos hres, if_pos fun h => hbuf (List.eq_nil_of_length_eq_zero h)]
  exact ⟨_, rfl, Console.put_calls _ _⟩

/-- What is not in the array at the end has left it. -/
theorem flushed_eq (text : List Byte) :
    flushed text = text.take (text.length - fill 0 text.length) := by
  have hlen : (text.length - 1) / printfBufferSize * printfBufferSize =
      text.length - fill 0 text.length := by
    unfold fill printfBufferSize
    split_ifs <;> omega
  rw [flushed, hlen]

/-- **What a format that fails has lost**: the end of what it has emitted, if it has emitted
anything, and no more than an array. -/
theorem flushed_loses {text : List Byte} (h : text ≠ []) :
    ∃ rest ≠ [], text = flushed text ++ rest ∧ rest.length ≤ printfBufferSize := by
  have hlen := List.length_pos_iff.mpr h
  refine ⟨text.drop ((text.length - 1) / printfBufferSize * printfBufferSize), fun hnil => ?_,
    (List.take_append_drop _ _).symm, ?_⟩
  · have := List.drop_eq_nil_iff.mp hnil
    unfold printfBufferSize at this
    omega
  · rw [List.length_drop]
    unfold printfBufferSize
    omega

/-- Whatever leaves the array is the beginning of what is shown. -/
theorem flushed_prefix_shows (h0 : format.addr ≠ 0) :
    flushed (formatted T va format.bytes args).text <+:
      Print.shows T va (.printf format args) := by
  rw [Print.shows, if_neg h0]
  split_ifs with hend hnil
  · rw [emitted] at hnil
    rw [hnil]
    exact List.nil_prefix
  · exact List.take_prefix _ _
  · exact List.prefix_append _ _

/-- **One call of `printf`.** -/
theorem printf_writes {r : ℤ} {console' : Console τ}
    (h : printf T va putnstr console format args = .ok (r, console')) : ∃ new,
    console'.calls = console.calls ++ new ∧
      Shows new (Print.shows T va (.printf format args)) := by
  unfold printf at h
  obtain ⟨⟨res, ctx⟩, hf, h⟩ := bind_eq_ok h
  obtain rfl : (printfEnd putnstr res ctx).2 = console' := congrArg Prod.snd (Except.ok.inj h)
  unfold formatter at hf
  by_cases h0 : format.addr = 0
  · rw [if_pos h0] at hf
    cases hf
    obtain ⟨call, hbytes, hcalls⟩ := printfEnd_error putnstr
      (show ¬ 0 < EOF by decide) ⟨[], Nat.zero_le _, console⟩
    refine ⟨[call], hcalls, .of_flatMap ?_⟩
    rw [List.flatMap_singleton, hbytes, Print.shows, if_pos h0]
  rw [if_neg h0] at hf
  dsimp only at hf
  have hshown : flushed (formatted T va format.bytes args).text <+:
    Print.shows T va (.printf format args) := flushed_prefix_shows h0
  have hdeliver := deliver_writes putnstr (formatted T va format.bytes args).text 0
    ⟨[], Nat.zero_le _, console⟩
  have hall (h : (deliver (writePrintf putnstr) (formatted T va format.bytes args).text 0
      ⟨[], Nat.zero_le _, console⟩).1 = true) := deliver_count h
  rcases hd : deliver (writePrintf putnstr) (formatted T va format.bytes args).text 0
    (⟨[], Nat.zero_le _, console⟩ : PrintfState τ) with ⟨accepted, count, ctx'⟩
  rw [hd] at hf hdeliver hall
  dsimp only at hf hdeliver hall
  rw [List.length_nil, Nat.zero_add, List.nil_append, ← flushed_eq] at hdeliver
  obtain ⟨new, hcalls, hnew⟩ := hdeliver
  cases accepted with
  | false =>
    -- a call has failed before the end, and `ERROR_STR` counts no longer
    rw [if_neg Bool.false_ne_true] at hf hnew
    split_ifs at hf
    cases hf
    obtain ⟨call, -, hend⟩ := printfEnd_error putnstr (show ¬ 0 < EOF by decide) ctx
    refine ⟨new ++ [call], by rw [hend, hcalls, List.append_assoc], ?_⟩
    exact .of_failed hnew.1 (hnew.2.trans hshown) _
  | true =>
    rw [if_pos rfl] at hf hnew
    have hcount := hall rfl
    rw [Nat.zero_add] at hcount
    obtain ⟨hbytes, hbuf⟩ := hnew
    have hflushed : new.flatMap Call.bytes = flushed (formatted T va format.bytes args).text := by
      rw [flushed_eq, ← hbuf, ← hbytes, List.length_append, Nat.add_sub_cancel, List.take_left]
    rw [Print.shows, if_neg h0]
    rcases hend : (formatted T va format.bytes args).ending with ⟨⟩ | _ | f
    · rw [hend] at hf
      dsimp only at hf
      split_ifs at hf
      cases hf
      rw [if_pos rfl]
      by_cases hnil : emitted T va format args = []
      · -- nothing is emitted, and nothing has left the array
        have hzero : ¬ 0 < (count : ℤ) := by
          rw [hcount, show (formatted T va format.bytes args).text = [] from hnil]
          decide
        obtain ⟨call, hcall, hcalls'⟩ := printfEnd_error putnstr hzero ctx
        refine ⟨new ++ [call], by rw [hcalls', hcalls, List.append_assoc], .of_flatMap ?_⟩
        rw [if_pos hnil, List.flatMap_append, hflushed, List.flatMap_singleton, hcall,
          show (formatted T va format.bytes args).text = [] from hnil]
        rfl
      · have hlen := List.length_pos_iff.mpr hnil
        change 0 < (formatted T va format.bytes args).text.length at hlen
        have hne : ctx.buf ≠ [] := by
          intro h
          rw [h, fill, if_neg (by omega)] at hbuf
          cases hbuf
        obtain ⟨call, hcall, hcalls'⟩ := printfEnd_rest putnstr
          (show 0 < (count : ℤ) by omega) hne
        refine ⟨new ++ [call], by rw [hcalls', hcalls, List.append_assoc], .of_flatMap ?_⟩
        rw [if_neg hnil, List.flatMap_append, List.flatMap_singleton, hcall, hbytes]
        rfl
    · rw [hend] at hf
      dsimp only at hf
      split_ifs at hf
      cases hf
      obtain ⟨call, hcall, hcalls'⟩ := printfEnd_error putnstr
        (show ¬ 0 < EOF by decide) ctx
      refine ⟨new ++ [call], by rw [hcalls', hcalls, List.append_assoc], .of_flatMap ?_⟩
      rw [if_neg (by simp), List.flatMap_append, hflushed, List.flatMap_singleton, hcall]
      rfl
    · rw [hend] at hf
      cases hf

/-- **One call of `puts`.** -/
theorem puts_writes {r : ℤ} {console' : Console τ} {str : Ptr}
    (h : puts putnstr console str = .ok (r, console')) : ∃ new,
    console'.calls = console.calls ++ new ∧ Shows new (Print.shows T va (.puts str)) := by
  unfold puts at h
  rw [Print.shows]
  by_cases h0 : str.addr = 0
  · rw [if_pos h0] at h ⊢
    cases h
    exact ⟨[], (List.append_nil _).symm, .of_flatMap rfl⟩
  rw [if_neg h0] at h ⊢
  obtain ⟨len, hlen, h⟩ := bind_eq_ok h
  rw [strlen_eq] at hlen
  split_ifs at hlen
  cases hlen
  have htake : str.bytes.take (str.bytes.takeWhile (· ≠ 0)).length = str.bytes.takeWhile (· ≠ 0) :=
    (List.prefix_iff_eq_take.mp (List.takeWhile_prefix _)).symm
  rw [htake] at h
  dsimp only at h
  generalize str.bytes.takeWhile (· ≠ 0) = text at h ⊢
  split_ifs at h with hres
  · obtain ⟨-, rfl⟩ := Prod.mk.inj (Except.ok.inj h)
    have hcalls : ((console.put putnstr text).2.put putnstr newline).2.calls =
        console.calls ++ [⟨text, (console.put putnstr text).1⟩] ++
          [⟨newline, ((console.put putnstr text).2.put putnstr newline).1⟩] := rfl
    rw [List.append_assoc] at hcalls
    exact ⟨_, hcalls, .of_flatMap (by simp)⟩
  · -- the first call has failed
    obtain ⟨-, rfl⟩ := Prod.mk.inj (Except.ok.inj h)
    have hcalls : (console.put putnstr text).2.calls =
        console.calls ++ ([⟨text, (console.put putnstr text).1⟩] ++ []) := rfl
    have hfailed : ∃ call ∈ [(⟨text, (console.put putnstr text).1⟩ : Call)], call.Failed :=
      ⟨_, List.mem_singleton.mpr rfl, Or.inr (not_le.mp hres)⟩
    refine ⟨_, hcalls, .of_failed hfailed ?_ []⟩
    rw [List.flatMap_singleton]
    exact List.prefix_append _ _

/-! ### The program -/

/-- **The output of a program** in which nothing undefined happens: up to the first call of
`putnstr` that fails, on whatever platform, it begins like the texts of the calls of `printf` and
`puts` one after the other, and is all of them if none fails. -/
theorem run_writes (T : Target) (va : VaArg ν) (putnstr : Putnstr τ) (ps : List (Print ν))
    {console console' : Console τ} {rs : List ℤ}
    (h : runPrints T va putnstr console ps = .ok (rs, console')) : ∃ new,
    console'.calls = console.calls ++ new ∧ Shows new (ps.flatMap (Print.shows T va)) := by
  induction ps generalizing console rs with
  | nil =>
    cases h
    exact ⟨[], (List.append_nil _).symm, .of_flatMap rfl⟩
  | cons p ps ih =>
    rw [runPrints] at h
    obtain ⟨⟨r, console₁⟩, hcall, h⟩ := bind_eq_ok h
    obtain ⟨⟨rs', console₂⟩, hrest, h⟩ := bind_eq_ok h
    cases h
    have hfirst : ∃ new, console₁.calls = console.calls ++ new ∧
        Shows new (p.shows T va) := by
      cases p with
      | printf format args => exact printf_writes hcall
      | puts str => exact puts_writes hcall
    obtain ⟨new, hcalls, hnew⟩ := hfirst
    obtain ⟨new', hcalls', hnew'⟩ := ih hrest
    exact ⟨new ++ new', by rw [hcalls', hcalls, List.append_assoc], hnew.append hnew'⟩

/-- A `putnstr` whose third call fails. -/
def failsThird : Putnstr ℕ := fun s calls => (if calls = 2 then -1 else s.length, calls + 1)

/-- `printf("n = %d, ", -5)`, then `printf("abc%z", 5)`, which loses `abc`, and `puts("ok")`, which
is not written. -/
def prints : List (Print (List (BitVec 64))) :=
  [.printf ⟨1, cstr "n = %d, "⟩ [-5], .printf ⟨1, cstr "abc%z"⟩ [5], .puts ⟨1, cstr "ok"⟩]

theorem run_writes_failing : ∃ console',
    runPrints .x8664 wordArgs failsThird ⟨0, []⟩ prints = .ok ([8, EOF, -1], console') ∧
    Shows console'.calls ("n = -5, ".toList.map Char.toUInt8 ++ errorStr ++
      "ok\n".toList.map Char.toUInt8) := by
  obtain ⟨console', h⟩ : ∃ console',
      runPrints .x8664 wordArgs failsThird ⟨0, []⟩ prints = .ok ([8, EOF, -1], console') := ⟨_, rfl⟩
  obtain ⟨new, hcalls, hnew⟩ := run_writes .x8664 wordArgs _ _ h
  rw [List.nil_append] at hcalls
  subst hcalls
  exact ⟨console', h, hnew⟩

end Noc.Printf
