import Noc.Printf.Convert

/-! # The format

The loop over the format. `directives` lists the directives that the formatter gets to, with their
arguments. A format that ends with a NUL is never read behind it, and every round takes a character,
so a fault of the run is one of these directives (`formatLoop_ending_eq_fault`).

`formatter_digits_iff`: the formatter stores inside the array `digits` exactly if none of the
directives is `%d` with the precision 67 and a sign. -/

namespace Noc.Printf

open Noc.Lib.Output Noc.Lib.Output.Emission Noc.Targets

variable {ν : Type} {T : Target} {va : VaArg ν} {f : Fault} {format : List Byte} {args : ν}
variable {fuel : ℕ}

/-! ### The directives of a format -/

/-- The directives that the loop over the format gets to. -/
def directivesLoop (T : Target) (va : VaArg ν) : ℕ → List Byte → ν → List Directive
  | 0, _, _ => []
  | fuel + 1, format, args =>
    match next format with
    | .error _ => []
    | .ok (c, format) =>
      if c = 0 then []
      else if c ≠ '%'.toUInt8 then directivesLoop T va fuel format args
      else
        match next format with
        | .error _ => []
        | .ok (c, format) =>
          if c = '%'.toUInt8 then directivesLoop T va fuel format args
          else if c = 0 then []
          else
            match parse T va c format args with
            | .error _ => []
            | .ok (d, format, args) =>
              d :: if (convert T d).ending = .value true then directivesLoop T va fuel format args
                else []

/-- The directives that the formatter gets to. -/
def directives (T : Target) (va : VaArg ν) (format : List Byte) (args : ν) : List Directive :=
  directivesLoop T va (format.length + errorStr.length + 1) format args

/-- After a directive that goes on, the NUL is still ahead. -/
theorem zero_mem_of_goes_on {d : Directive}
    (h : (0 : Byte) ∈ format ∨ d.conv = .error ∨ ∃ v, d.conv = .integer 0 v)
    (hd : (convert T d).ending = .value true) : (0 : Byte) ∈ format := by
  rcases h with h | h | ⟨v, h⟩
  · exact h
  · rw [convert, h] at hd
    cases hd
  · rw [convert, h] at hd
    cases hd

/-! ### Rounds of the loop -/

/-- The ways to begin a round at a place where the NUL is still ahead. -/
theorem round_cases (h : (0 : Byte) ∈ format) :
    (∃ rest, format = 0 :: rest) ∨
    (∃ c rest, format = c :: rest ∧ c ≠ 0 ∧ c ≠ '%'.toUInt8 ∧ (0 : Byte) ∈ rest) ∨
    (∃ rest, format = '%'.toUInt8 :: '%'.toUInt8 :: rest ∧ (0 : Byte) ∈ rest) ∨
    (∃ rest, format = '%'.toUInt8 :: 0 :: rest) ∨
    ∃ c rest, format = '%'.toUInt8 :: c :: rest ∧ c ≠ '%'.toUInt8 ∧ c ≠ 0 ∧ Ahead c rest := by
  cases format with
  | nil => cases h
  | cons c rest =>
    by_cases h0 : c = 0
    · exact Or.inl ⟨rest, by rw [h0]⟩
    have hrest : (0 : Byte) ∈ rest := ahead_of_mem h h0
    by_cases hc : c = '%'.toUInt8
    swap
    · exact Or.inr (Or.inl ⟨c, rest, rfl, h0, hc, hrest⟩)
    subst hc
    cases rest with
    | nil => cases hrest
    | cons c rest =>
      by_cases hc : c = '%'.toUInt8
      · subst hc
        exact Or.inr (Or.inr (Or.inl ⟨rest, rfl, ahead_of_mem hrest h0⟩))
      by_cases h0' : c = 0
      · exact Or.inr (Or.inr (Or.inr (Or.inl ⟨rest, by rw [h0']⟩)))
      · exact Or.inr (Or.inr (Or.inr (Or.inr ⟨c, rest, rfl, hc, h0', ahead_of_mem hrest⟩)))

section Round
variable {c : Byte} {rest : List Byte}

theorem formatLoop_nul : formatLoop T va (fuel + 1) (0 :: rest) args = ⟨[], .value ()⟩ := rfl

theorem formatLoop_char (h0 : c ≠ 0) (hc : c ≠ '%'.toUInt8) :
    formatLoop T va (fuel + 1) (c :: rest) args =
      ⟨c :: (formatLoop T va fuel rest args).text, (formatLoop T va fuel rest args).ending⟩ := by
  rw [formatLoop, next, ok_lift, value_bind]
  dsimp only
  rw [if_neg h0, if_pos hc, emit_bind]

theorem directivesLoop_char (h0 : c ≠ 0) (hc : c ≠ '%'.toUInt8) :
    directivesLoop T va (fuel + 1) (c :: rest) args = directivesLoop T va fuel rest args := by
  rw [directivesLoop, next]
  dsimp only
  rw [if_neg h0, if_pos hc]

theorem formatLoop_percent :
    formatLoop T va (fuel + 1) ('%'.toUInt8 :: '%'.toUInt8 :: rest) args =
      ⟨'%'.toUInt8 :: (formatLoop T va fuel rest args).text,
        (formatLoop T va fuel rest args).ending⟩ := rfl

theorem formatLoop_truncated : formatLoop T va (fuel + 1) ('%'.toUInt8 :: 0 :: rest) args =
    formatLoop T va fuel errorStr args := rfl

theorem formatLoop_directive {d : Directive} {args' : ν} (hc : c ≠ '%'.toUInt8) (h0 : c ≠ 0)
    (hd : parse T va c format args = .ok (d, rest, args')) :
    formatLoop T va (fuel + 1) ('%'.toUInt8 :: c :: format) args = convert T d >>= fun goesOn =>
      if goesOn then formatLoop T va fuel rest args' else formatLoop T va fuel errorStr args' := by
  rw [formatLoop, next, ok_lift, value_bind]
  dsimp only
  rw [if_neg (by decide), if_neg (by decide), next, ok_lift, value_bind]
  dsimp only
  rw [if_neg hc, if_neg h0, hd, ok_lift, value_bind]

theorem directivesLoop_directive {d : Directive} {args' : ν} (hc : c ≠ '%'.toUInt8) (h0 : c ≠ 0)
    (hd : parse T va c format args = .ok (d, rest, args')) :
    directivesLoop T va (fuel + 1) ('%'.toUInt8 :: c :: format) args =
      d :: if (convert T d).ending = .value true then directivesLoop T va fuel rest args'
        else [] := by
  rw [directivesLoop, next]
  dsimp only
  rw [if_neg (by decide), if_neg (by decide), next]
  dsimp only
  rw [if_neg hc, if_neg h0, hd]

/-- `ERROR_STR` has no directives. -/
theorem formatLoop_errorStr (h : errorStr.length ≤ fuel) :
    formatLoop T va fuel errorStr args = ⟨"<ERROR>\n".toList.map Char.toUInt8, .value ()⟩ := by
  obtain ⟨k, rfl⟩ := Nat.exists_eq_add_of_le' h
  rfl

end Round

/-! ### Faults -/

/-- **A fault of the run is a fault of a directive.** -/
theorem formatLoop_ending_eq_fault (h0 : (0 : Byte) ∈ format)
    (hfuel : format.length + errorStr.length ≤ fuel) :
    (formatLoop T va fuel format args).ending = .fault f ↔
      ∃ d ∈ directivesLoop T va fuel format args, (convert T d).ending = .fault f := by
  induction fuel generalizing format args with
  | zero =>
    have : errorStr.length = 9 := rfl
    omega
  | succ fuel ih =>
    have herror : ∀ args, (formatLoop T va fuel errorStr args).ending ≠ .fault f := by
      intro args h
      rw [formatLoop_errorStr (by have := List.length_pos_of_mem h0; omega)] at h
      cases h
    rcases round_cases h0 with ⟨rest, rfl⟩ | ⟨c, rest, rfl, hc0, hc, hrest⟩ | ⟨rest, rfl, hrest⟩ |
      ⟨rest, rfl⟩ | ⟨c, rest, rfl, hc, hc0, hahead⟩
    · rw [formatLoop_nul]
      exact iff_of_false (by simp) (by rintro ⟨d, hd, -⟩; cases hd)
    · rw [List.length_cons] at hfuel
      rw [formatLoop_char hc0 hc, directivesLoop_char hc0 hc]
      exact ih hrest (by omega)
    · rw [List.length_cons, List.length_cons] at hfuel
      rw [formatLoop_percent]
      exact ih hrest (by omega)
    · rw [formatLoop_truncated]
      exact iff_of_false (herror args) (by rintro ⟨d, hd, -⟩; cases hd)
    · rw [List.length_cons, List.length_cons] at hfuel
      obtain ⟨d, rest', args', hd, hlen, hzero⟩ := parse_ahead T va args hahead
      rw [formatLoop_directive hc hc0 hd, directivesLoop_directive hc hc0 hd,
        ending_bind_eq_fault, List.exists_mem_cons_iff]
      refine or_congr_right ?_
      by_cases hgo : (convert T d).ending = .value true
      · have ih := @ih rest' args' (zero_mem_of_goes_on hzero hgo) (by omega)
        rw [if_pos hgo, ← ih]
        constructor
        · rintro ⟨r, hr, h⟩
          rw [hgo] at hr
          cases hr
          exact h
        · intro h
          exact ⟨true, hgo, h⟩
      · rw [if_neg hgo]
        constructor
        · rintro ⟨_ | _, hr, h⟩
          · exact absurd h (herror args')
          · exact absurd hr hgo
        · rintro ⟨d', hd', -⟩
          cases hd'

/-- The faults of a run over a string. -/
theorem formatted_ending_eq_fault (h0 : (0 : Byte) ∈ format) :
    (formatted T va format args).ending = .fault f ↔
      ∃ d ∈ directives T va format args,
        (f = .digits ∧ d.Overruns) ∨ (f = .string ∧ d.Overreads) := by
  unfold formatted directives
  rw [formatLoop_ending_eq_fault h0 (by omega)]
  simp only [convert_ending_eq_fault]

/-! ### The array `digits` -/

/-- A pointer to a string: not `NULL`, with a NUL among the bytes that can be read. -/
def Ptr.IsString (p : Ptr) : Prop := p.addr ≠ 0 ∧ (0 : Byte) ∈ p.bytes

section Formatter
variable {σ : Type} {write : Byte → σ → Bool × σ} {state : σ} {format : Ptr}

/-- A sink that accepts everything gets the whole text. -/
theorem formatter_of_accepts (hw : Accepts write) (hf : format.addr ≠ 0) :
    formatter T va write state format args =
      let out := formatted T va format.bytes args
      let state := out.text.foldl (fun s c => (write c s).2) state
      match out.ending with
      | .fault f => .error f
      | .stop => if intMax < out.text.length then .error .overflow else .ok (EOF, state)
      | .value () =>
        if intMax < out.text.length then .error .overflow else .ok (out.text.length, state) := by
  unfold formatter
  rw [if_neg hf]
  dsimp only
  rw [deliver_of_accepts hw, Nat.zero_add]
  rfl

/-- A fault of the formatter, a count that is too big apart, is a fault of the run. -/
theorem formatted_of_formatter_error (hf : f ≠ .overflow)
    (h : formatter T va write state format args = .error f) :
    (formatted T va format.bytes args).ending = .fault f := by
  unfold formatter at h
  split_ifs at h with h0
  dsimp only at h
  rcases hend : (formatted T va format.bytes args).ending with ⟨⟩ | _ | g
  all_goals
    rw [hend] at h
    split_ifs at h
    all_goals first
      | (cases h; rfl)
      | (cases h; exact absurd rfl hf)

/-- A result that is not negative is the length of a text that the sink has accepted. -/
theorem formatter_of_nonneg {state' : σ} {res : ℤ}
    (h : formatter T va write state format args = .ok (res, state')) (hres : 0 ≤ res) :
    format.addr ≠ 0 ∧ (formatted T va format.bytes args).ending = .value () ∧
      deliver write (formatted T va format.bytes args).text 0 state =
        (true, (formatted T va format.bytes args).text.length, state') ∧
      (formatted T va format.bytes args).text.length ≤ intMax ∧
      res = (formatted T va format.bytes args).text.length := by
  unfold formatter at h
  by_cases h0 : format.addr = 0
  · rw [if_pos h0] at h
    cases h
    exact absurd hres (by decide)
  rw [if_neg h0] at h
  dsimp only at h
  rcases hd : deliver write (formatted T va format.bytes args).text 0 state with
    ⟨accepted, count, state₁⟩
  rw [hd] at h
  dsimp only at h
  cases accepted with
  | false =>
    rw [if_neg Bool.false_ne_true] at h
    split_ifs at h
    cases h
    exact absurd hres (by decide)
  | true =>
    have hcount : count = (formatted T va format.bytes args).text.length := by
      have := deliver_count (congrArg Prod.fst hd)
      rw [hd, Nat.zero_add] at this
      exact this
    rcases hend : (formatted T va format.bytes args).ending with ⟨⟩ | _ | f
    all_goals
      rw [hend, if_pos rfl] at h
      dsimp only at h
    · by_cases hbig : intMax < count
      · rw [if_pos hbig] at h
        cases h
      · rw [if_neg hbig] at h
        cases h
        exact ⟨h0, rfl, by rw [hcount], by omega, by rw [hcount]⟩
    · split_ifs at h
      cases h
      exact absurd hres (by decide)
    · cases h

/-- **When the integer conversion stays inside `digits`**: for every format and all arguments, no
store below the array (with whatever `write`) exactly if the formatter gets to no `%d` with the
precision `sizeof(digits) - 1` and a sign. -/
theorem formatter_digits_iff (T : Target) (va : VaArg ν) (args : ν) (hf : format.IsString) :
    (∀ (σ : Type) (write : Byte → σ → Bool × σ) (state : σ),
      formatter T va write state format args ≠ .error .digits) ↔
    ∀ d ∈ directives T va format.bytes args, ¬ d.Overruns := by
  constructor
  · intro h d hd hover
    have hend : (formatted T va format.bytes args).ending = .fault .digits :=
      (formatted_ending_eq_fault hf.2).mpr ⟨d, hd, Or.inl ⟨rfl, hover⟩⟩
    refine h Unit (fun _ _ => (true, ())) () ?_
    rw [formatter_of_accepts (fun _ _ => rfl) hf.1]
    dsimp only
    rw [hend]
  · intro h σ write state herr
    have hend := formatted_of_formatter_error (by decide) herr
    rcases (formatted_ending_eq_fault hf.2).mp hend with ⟨d, hd, ⟨-, hover⟩ | ⟨hstr, -⟩⟩
    · exact h d hd hover
    · cases hstr

end Formatter

/-- Integer arguments in 64-bit slots. -/
def wordArgs : VaArg (List (BitVec 64)) where
  word32 args := ((args.headD 0).setWidth 32, args.tail)
  word64 args := (args.headD 0, args.tail)
  pointer args := (⟨(args.headD 0).toNat, []⟩, args.tail)

/-- A sign and 66 digits fit, and 67 digits without a sign. -/
theorem formatter_digits_iff_fits :
    (∀ (σ : Type) (write : Byte → σ → Bool × σ) (state : σ), formatter .x8664 wordArgs write state
      ⟨1, cstr "%.66d %.67u"⟩ [-1, 5] ≠ .error .digits) ∧
    (directives .x8664 wordArgs (cstr "%.66d %.67u") [-1, 5]).length = 2 :=
  ⟨(formatter_digits_iff .x8664 wordArgs [-1, 5] ⟨by decide, by decide⟩).mpr (by decide), rfl⟩

/-- `%.67d` of a negative value stores its sign below the array. -/
theorem formatter_digits_minus : formatter .x8664 wordArgs (fun _ _ => (true, ())) ()
    ⟨1, cstr "%.67d"⟩ [-1] = .error .digits := rfl

end Noc.Printf
