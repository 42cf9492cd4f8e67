import Noc.Printf.Format

/-! # Runs of the formatter

The formatter reads a format directive by directive. `Run` says what such a run emits and how it
ends: at the NUL of the format, with `EOF`, with a switch to `ERROR_STR` (after which there is no
further step, so the format is not read again), or with a fault.

* `Run.formatLoop_eq`: the loop of the source does what the run says.
* `exists_run`: every string has a run, whatever its bytes and the arguments are.
* `Run.text_eq_nil_iff`: which runs emit nothing.
* `formatter_run_iff`: the run of a string ends without a fault exactly if the formatter gets to no
  directive that overruns the array of the integer conversion. -/

namespace Noc.Printf

open Noc.Lib.Output Noc.Lib.Output.Emission Noc.Targets

variable {ν : Type} {T : Target} {va : VaArg ν} {format : List Byte} {args : ν}

/-- How a run over a format ends, with the arguments that are left. -/
inductive Outcome (ν : Type) where
  /-- at the NUL of the format -/
  | whole (args : ν)
  /-- with `return EOF` -/
  | eof (args : ν)
  /-- with `format = ERROR_STR` -/
  | error (args : ν)
  | fault (f : Fault) (args : ν)

/-- The arguments that are left. -/
def Outcome.unread : Outcome ν → ν
  | .whole args => args
  | .eof args => args
  | .error args => args
  | .fault _ args => args

/-- What the formatter emits when the run has emitted `text` and ends like this. -/
def Outcome.emission (text : List Byte) : Outcome ν → Output Unit
  | .whole _ => ⟨text, .value ()⟩
  | .eof _ => ⟨text, .stop⟩
  | .error _ => ⟨text ++ "<ERROR>\n".toList.map Char.toUInt8, .value ()⟩
  | .fault f _ => ⟨text, .fault f⟩

/-- A run over a format: what it emits, and how it ends. -/
inductive Run (T : Target) (va : VaArg ν) : List Byte → ν → List Byte → Outcome ν → Prop
  | nul {rest args} : Run T va (0 :: rest) args [] (.whole args)
  | char {c rest args text o} : c ≠ 0 → c ≠ '%'.toUInt8 → Run T va rest args text o →
      Run T va (c :: rest) args (c :: text) o
  | percent {rest args text o} : Run T va rest args text o →
      Run T va ('%'.toUInt8 :: '%'.toUInt8 :: rest) args ('%'.toUInt8 :: text) o
  | truncated {rest args} : Run T va ('%'.toUInt8 :: 0 :: rest) args [] (.error args)
  | directive {c format args d rest args' text text' o} : c ≠ '%'.toUInt8 → c ≠ 0 →
      parse T va c format args = .ok (d, rest, args') → convert T d = ⟨text, .value true⟩ →
      Run T va rest args' text' o → Run T va ('%'.toUInt8 :: c :: format) args (text ++ text') o
  | error {c format args d rest args' text} : c ≠ '%'.toUInt8 → c ≠ 0 →
      parse T va c format args = .ok (d, rest, args') → convert T d = ⟨text, .value false⟩ →
      Run T va ('%'.toUInt8 :: c :: format) args text (.error args')
  | eof {c format args d rest args' text} : c ≠ '%'.toUInt8 → c ≠ 0 →
      parse T va c format args = .ok (d, rest, args') → convert T d = ⟨text, .stop⟩ →
      Run T va ('%'.toUInt8 :: c :: format) args text (.eof args')
  | fault {c format args d rest args' text f} : c ≠ '%'.toUInt8 → c ≠ 0 →
      parse T va c format args = .ok (d, rest, args') → convert T d = ⟨text, .fault f⟩ →
      Run T va ('%'.toUInt8 :: c :: format) args text (.fault f args')

/-! ### The loop follows the run -/

theorem parse_length_le {c : Byte} {rest : List Byte} {d : Directive} {args' : ν}
    (h : parse T va c format args = .ok (d, rest, args')) : rest.length ≤ format.length := by
  obtain ⟨p, rfl, -⟩ := parse_prefix h
  rw [List.length_append]
  exact Nat.le_add_left _ _

/-- **The loop does what the run says.** -/
theorem Run.formatLoop_eq {text : List Byte} {o : Outcome ν} (h : Run T va format args text o) :
    ∀ {fuel : ℕ}, format.length + errorStr.length ≤ fuel →
      formatLoop T va fuel format args = o.emission text := by
  have hlen : errorStr.length = 9 := rfl
  induction h with
  | nul =>
    intro fuel hfuel
    obtain ⟨k, rfl⟩ := Nat.exists_eq_add_of_le' (show 1 ≤ fuel by omega)
    rfl
  | @char c rest args text o h0 hc _ ih =>
    intro fuel hfuel
    rw [List.length_cons] at hfuel
    obtain ⟨k, rfl⟩ := Nat.exists_eq_add_of_le' (show 1 ≤ fuel by omega)
    rw [formatLoop_char h0 hc, ih (by omega)]
    cases o <;> rfl
  | @percent rest args text o _ ih =>
    intro fuel hfuel
    rw [List.length_cons, List.length_cons] at hfuel
    obtain ⟨k, rfl⟩ := Nat.exists_eq_add_of_le' (show 1 ≤ fuel by omega)
    rw [formatLoop_percent, ih (by omega)]
    cases o <;> rfl
  | truncated =>
    intro fuel hfuel
    rw [List.length_cons, List.length_cons] at hfuel
    obtain ⟨k, rfl⟩ := Nat.exists_eq_add_of_le' (show 1 ≤ fuel by omega)
    rw [formatLoop_truncated, formatLoop_errorStr (by omega)]
    rfl
  | @directive c format args d rest args' text text' o hc h0 hd hconv _ ih =>
    intro fuel hfuel
    rw [List.length_cons, List.length_cons] at hfuel
    have hle := parse_length_le hd
    obtain ⟨k, rfl⟩ := Nat.exists_eq_add_of_le' (show 1 ≤ fuel by omega)
    rw [formatLoop_directive hc h0 hd, bind_value (congrArg Emission.ending hconv), if_pos rfl,
      ih (by omega), hconv]
    cases o <;> simp [Outcome.emission]
  | error hc h0 hd hconv =>
    intro fuel hfuel
    rw [List.length_cons, List.length_cons] at hfuel
    obtain ⟨k, rfl⟩ := Nat.exists_eq_add_of_le' (show 1 ≤ fuel by omega)
    rw [formatLoop_directive hc h0 hd, bind_value (congrArg Emission.ending hconv),
      if_neg Bool.false_ne_true, formatLoop_errorStr (by omega), hconv]
    rfl
  | eof hc h0 hd hconv =>
    intro fuel hfuel
    rw [List.length_cons, List.length_cons] at hfuel
    obtain ⟨k, rfl⟩ := Nat.exists_eq_add_of_le' (show 1 ≤ fuel by omega)
    rw [formatLoop_directive hc h0 hd, bind_stop (congrArg Emission.ending hconv), hconv]
    rfl
  | fault hc h0 hd hconv =>
    intro fuel hfuel
    rw [List.length_cons, List.length_cons] at hfuel
    obtain ⟨k, rfl⟩ := Nat.exists_eq_add_of_le' (show 1 ≤ fuel by omega)
    rw [formatLoop_directive hc h0 hd, bind_fault (congrArg Emission.ending hconv), hconv]
    rfl

theorem Run.formatted_eq {text : List Byte} {o : Outcome ν} (h : Run T va format args text o) :
    formatted T va format args = o.emission text :=
  h.formatLoop_eq (Nat.le_succ _)

/-! ### Runs from their beginning -/

section Inversion
variable {c : Byte} {rest : List Byte} {text : List Byte} {o : Outcome ν}

theorem Run.ne_nil (h : Run T va format args text o) : format ≠ [] := by
  rintro rfl
  cases h

theorem Run.of_char (h : Run T va (c :: rest) args text o) (h0 : c ≠ 0) (hc : c ≠ '%'.toUInt8) :
    ∃ text', text = c :: text' ∧ Run T va rest args text' o := by
  cases h with
  | nul => exact absurd rfl h0
  | char _ _ h => exact ⟨_, rfl, h⟩
  | percent => exact absurd rfl hc
  | truncated => exact absurd rfl hc
  | directive => exact absurd rfl hc
  | error => exact absurd rfl hc
  | eof => exact absurd rfl hc
  | fault => exact absurd rfl hc

theorem Run.of_percent (h : Run T va ('%'.toUInt8 :: '%'.toUInt8 :: rest) args text o) :
    ∃ text', text = '%'.toUInt8 :: text' ∧ Run T va rest args text' o := by
  cases h with
  | char _ hc => exact absurd rfl hc
  | percent h => exact ⟨_, rfl, h⟩
  | directive hc => exact absurd rfl hc
  | error hc => exact absurd rfl hc
  | eof hc => exact absurd rfl hc
  | fault hc => exact absurd rfl hc

/-- A run that begins with a directive goes on behind it, or ends there. -/
theorem Run.of_directive {d : Directive} {args' : ν}
    (h : Run T va ('%'.toUInt8 :: c :: format) args text o) (hc : c ≠ '%'.toUInt8) (h0 : c ≠ 0)
    (hd : parse T va c format args = .ok (d, rest, args')) :
    (∃ text₁ text₂, convert T d = ⟨text₁, .value true⟩ ∧ text = text₁ ++ text₂ ∧
      Run T va rest args' text₂ o) ∨
    ((convert T d).ending ≠ .value true ∧ o.unread = args' ∧ ∀ rest, o ≠ .whole rest) := by
  cases h with
  | char _ hc' => exact absurd rfl hc'
  | percent => exact absurd rfl hc
  | truncated => exact absurd rfl h0
  | directive _ _ hd' hconv hrun =>
    rw [hd] at hd'
    cases hd'
    exact Or.inl ⟨_, _, hconv, rfl, hrun⟩
  | error _ _ hd' hconv =>
    rw [hd] at hd'
    cases hd'
    rw [hconv]
    exact Or.inr ⟨by simp, rfl, by simp⟩
  | eof _ _ hd' hconv =>
    rw [hd] at hd'
    cases hd'
    rw [hconv]
    exact Or.inr ⟨by simp, rfl, by simp⟩
  | fault _ _ hd' hconv =>
    rw [hd] at hd'
    cases hd'
    rw [hconv]
    exact Or.inr ⟨by simp, rfl, by simp⟩

end Inversion

/-! ### Every string has a run -/

/-- **Every string has a run.** -/
theorem exists_run (T : Target) (va : VaArg ν) :
    ∀ {k : ℕ} {format : List Byte} (args : ν), format.length ≤ k → (0 : Byte) ∈ format →
      ∃ text o, Run T va format args text o
  | 0, [], _, _, h => by cases h
  | k + 1, format, args, hk, h => by
    rcases round_cases h with ⟨rest, rfl⟩ | ⟨c, rest, rfl, h0, hc, hrest⟩ | ⟨rest, rfl, hrest⟩ |
      ⟨rest, rfl⟩ | ⟨c, rest, rfl, hc, h0, hahead⟩
    · exact ⟨_, _, .nul⟩
    · rw [List.length_cons] at hk
      obtain ⟨text, o, hrun⟩ := exists_run T va args (show rest.length ≤ k by omega) hrest
      exact ⟨_, _, .char h0 hc hrun⟩
    · rw [List.length_cons, List.length_cons] at hk
      obtain ⟨text, o, hrun⟩ := exists_run T va args (show rest.length ≤ k by omega) hrest
      exact ⟨_, _, .percent hrun⟩
    · exact ⟨_, _, .truncated⟩
    · rw [List.length_cons, List.length_cons] at hk
      obtain ⟨d, rest', args', hd, hlen, hzero⟩ := parse_ahead T va args hahead
      rcases hconv : convert T d with ⟨text, ⟨_ | _⟩ | _ | f⟩
      · exact ⟨_, _, .error hc h0 hd hconv⟩
      · have hrest := zero_mem_of_goes_on hzero (congrArg Emission.ending hconv)
        obtain ⟨text', o, hrun⟩ :=
          exists_run T va args' (show rest'.length ≤ k by omega) hrest
        exact ⟨_, _, .directive hc h0 hd hconv hrun⟩
      · exact ⟨_, _, .eof hc h0 hd hconv⟩
      · exact ⟨_, _, .fault hc h0 hd hconv⟩

/-! ### Runs that emit nothing -/

/-- A format of nothing but strings that are shown as nothing. -/
inductive Silent (T : Target) (va : VaArg ν) : List Byte → ν → Prop
  | nul {rest args} : Silent T va (0 :: rest) args
  | directive {c format args d rest args'} : c ≠ '%'.toUInt8 → c ≠ 0 →
      parse T va c format args = .ok (d, rest, args') → d.Silent → Silent T va rest args' →
      Silent T va ('%'.toUInt8 :: c :: format) args

theorem silent_directive_iff {c : Byte} {rest : List Byte} {d : Directive} {args' : ν}
    (hc : c ≠ '%'.toUInt8) (h0 : c ≠ 0) (hd : parse T va c format args = .ok (d, rest, args')) :
    Silent T va ('%'.toUInt8 :: c :: format) args ↔ d.Silent ∧ Silent T va rest args' := by
  constructor
  · rintro (_ | ⟨-, -, hd', hsilent, hrest⟩)
    rw [hd] at hd'
    cases hd'
    exact ⟨hsilent, hrest⟩
  · rintro ⟨hsilent, hrest⟩
    exact .directive hc h0 hd hsilent hrest

/-- **A run emits nothing** and comes to an end exactly on a silent format. -/
theorem Run.text_eq_nil_iff {text : List Byte} {o : Outcome ν} (h : Run T va format args text o)
    (hend : (o.emission text).ending = .value ()) :
    (o.emission text).text = [] ↔ Silent T va format args := by
  induction h with
  | nul => exact iff_of_true rfl .nul
  | @char c rest args text o h0 hc _ ih =>
    refine iff_of_false (by cases o <;> simp [Outcome.emission]) ?_
    rintro (_ | _)
    · exact h0 rfl
    · exact hc rfl
  | @percent rest args text o _ ih =>
    refine iff_of_false (by cases o <;> simp [Outcome.emission]) ?_
    rintro (_ | ⟨hc, -⟩)
    exact hc rfl
  | truncated =>
    refine iff_of_false (by simp [Outcome.emission]) ?_
    rintro (_ | ⟨-, h0, -⟩)
    exact h0 rfl
  | @directive c format args d rest args' text text' o hc h0 hd hconv _ ih =>
    have htext : (o.emission (text ++ text')).text = text ++ (o.emission text').text := by
      cases o <;> simp [Outcome.emission]
    have hnil := convert_text_eq_nil (congrArg Emission.ending hconv)
    rw [hconv] at hnil
    rw [silent_directive_iff hc h0 hd, htext, List.append_eq_nil_iff, ← hnil,
      ← ih (by cases o <;> exact hend)]
  | error hc h0 hd hconv =>
    refine iff_of_false (by simp [Outcome.emission]) ?_
    rw [silent_directive_iff hc h0 hd]
    rintro ⟨hsilent, -⟩
    exact hsilent.ending_ne_error (congrArg Emission.ending hconv)
  | eof => cases hend
  | fault => cases hend

theorem formatted_text_eq_nil_iff (hzero : (0 : Byte) ∈ format)
    (hend : (formatted T va format args).ending = .value ()) :
    (formatted T va format args).text = [] ↔ Silent T va format args := by
  obtain ⟨text, o, hrun⟩ := exists_run T va args le_rfl hzero
  rw [hrun.formatted_eq] at hend ⊢
  exact hrun.text_eq_nil_iff hend

/-! ### Malformed formats -/

/-- On the format `f`, with nothing behind its NUL, the formatter ends: at the NUL, with `EOF`, or
after `ERROR_STR`, and it has a result for every sink (unless it counts above `INT_MAX`). -/
structure WellBehaved (T : Target) (va : VaArg ν) (f : List Byte) (args : ν) : Prop where
  ends : (∃ text rest, Run T va (f ++ [0]) args text (.whole rest) ∧
      formatted T va (f ++ [0]) args = ⟨text, .value ()⟩) ∨
    (∃ text rest, Run T va (f ++ [0]) args text (.eof rest) ∧
      formatted T va (f ++ [0]) args = ⟨text, .stop⟩) ∨
    ∃ text rest, Run T va (f ++ [0]) args text (.error rest) ∧
      formatted T va (f ++ [0]) args =
        ⟨text ++ "<ERROR>\n".toList.map Char.toUInt8, .value ()⟩
  returns : ∀ {σ : Type} (write : Byte → σ → Bool × σ) (state : σ) (addr : ℕ) (e : Fault),
    formatter T va write state ⟨addr, f ++ [0]⟩ args = .error e → e = .overflow

/-- **How the formatter ends**: for every string as a format, and all arguments that can be read as
far as the directives ask for, it ends well exactly if it gets to no directive that stores below the
array of the integer conversion. -/
theorem formatter_run_iff (T : Target) (va : VaArg ν) (f : List Byte) (args : ν)
    (hread : ∀ d ∈ directives T va (f ++ [0]) args, ¬ d.Overreads) :
    WellBehaved T va f args ↔ ∀ d ∈ directives T va (f ++ [0]) args, ¬ d.Overruns := by
  have hzero : (0 : Byte) ∈ f ++ [0] := List.mem_append_right f (List.mem_singleton.mpr rfl)
  constructor
  · intro h d hd hover
    have hend : (formatted T va (f ++ [0]) args).ending = .fault .digits :=
      (formatted_ending_eq_fault hzero).mpr ⟨d, hd, Or.inl ⟨rfl, hover⟩⟩
    rcases h.ends with ⟨text, rest, -, h⟩ | ⟨text, rest, -, h⟩ | ⟨text, rest, -, h⟩ <;>
      · rw [h] at hend
        cases hend
  · intro hsafe
    have hend : ∀ e, (formatted T va (f ++ [0]) args).ending ≠ .fault e := by
      intro e he
      rcases (formatted_ending_eq_fault hzero).mp he with ⟨d, hd, ⟨-, h⟩ | ⟨-, h⟩⟩
      · exact hsafe d hd h
      · exact hread d hd h
    constructor
    · obtain ⟨text, o, hrun⟩ := exists_run T va args le_rfl hzero
      have heq := hrun.formatted_eq
      cases o with
      | whole rest => exact Or.inl ⟨text, rest, hrun, heq⟩
      | eof rest => exact Or.inr (Or.inl ⟨text, rest, hrun, heq⟩)
      | error rest => exact Or.inr (Or.inr ⟨text, rest, hrun, heq⟩)
      | fault e rest => exact absurd (congrArg Emission.ending heq) (hend e)
    · intro σ write state addr e he
      by_contra hne
      exact hend e (formatted_of_formatter_error hne he)

theorem formatter_run_iff_truncated :
    WellBehaved .x8664 wordArgs ("%d %5.".toList.map Char.toUInt8) [5] :=
  (formatter_run_iff .x8664 wordArgs ("%d %5.".toList.map Char.toUInt8) [5] (by decide)).mpr
    (by decide)

/-- The store below the array leaves the formatter without a defined end. -/
theorem formatter_run_minus :
    ¬ WellBehaved .x8664 wordArgs ("%.67d".toList.map Char.toUInt8) [-1] := by
  intro h
  have hend : (formatted .x8664 wordArgs ("%.67d".toList.map Char.toUInt8 ++ [0]) [-1]).ending =
      .fault .digits := rfl
  rcases h.ends with ⟨text, rest, -, h⟩ | ⟨text, rest, -, h⟩ | ⟨text, rest, -, h⟩ <;>
    · rw [h] at hend
      cases hend

end Noc.Printf
