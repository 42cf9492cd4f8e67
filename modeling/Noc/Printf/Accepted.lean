import Noc.Printf.Run
import Noc.Printf.Tokens

/-! # What the formatter accepts

Every function that reads gives back what it took from the format: what it has read and the rest are
the format again.

* `parse_of_written`: a directive is read as it is written.
* `parse_written`: a directive that is carried out is a written one.
* `whole_run_iff`: the formatter comes to the NUL of a format exactly if the format has a reading
  that shows a text, and this is the text that it emits. -/

namespace Noc.Printf

open Noc.Lib.Output Noc.Lib.Output.Emission Noc.Targets

variable {ν : Type} (T : Target) (va : VaArg ν)

/-! ### Reading what is written -/

section Forward
variable {T va} {c : Byte} {format t : List Byte} {args : ν} {flags : Flags}

theorem lengthModifier_written (w : Written) (hs : w.letter ≠ .string) (hh : w.letter ≠ .dump)
    (h : w.length.render ++ [w.letter.toByte] ++ t = c :: format) :
    lengthModifier T flags c format = .ok (w.apply T flags, w.letter.toByte, t) := by
  obtain ⟨fs, width, precision, length, letter, bare⟩ := w
  cases letter with
  | radix r => cases length <;> cases h <;> cases r <;> rfl
  | pointer => cases length <;> cases h <;> rfl
  | char => cases length <;> cases h <;> rfl
  | string => exact absurd rfl hs
  | dump => exact absurd rfl hh

/-- In front of the other conversions no `s` or `H` stands. -/
theorem head_of_modifier {length : Length} {letter : Letter} (hs : letter ≠ .string)
    (hh : letter ≠ .dump) (h : length.render ++ [letter.toByte] ++ t = c :: format) :
    c ≠ 's'.toUInt8 ∧ c ≠ 'H'.toUInt8 := by
  cases length with
  | none =>
    cases h
    cases letter with
    | radix r => cases r <;> decide
    | string => exact absurd rfl hs
    | dump => exact absurd rfl hh
    | _ => decide
  | _ =>
    cases h
    decide

theorem parseConv_written (w : Written)
    (h : w.length.render ++ [w.letter.toByte] ++ t = c :: format) :
    parseConv T va flags c format args = .ok (w.apply T flags,
      (w.spec.conversion.read va (w.apply T flags) args).1, t,
      (w.spec.conversion.read va (w.apply T flags) args).2) := by
  obtain ⟨fs, width, precision, length, letter, bare⟩ := w
  cases letter with
  | string =>
    obtain rfl : length = .none := bare (Or.inl rfl)
    cases h
    rfl
  | dump =>
    obtain rfl : length = .none := bare (Or.inr rfl)
    cases h
    rfl
  | char =>
    obtain ⟨hs, hh⟩ := head_of_modifier (by simp) (by simp) h
    rw [parseConv, if_neg hs, if_neg hh, lengthModifier_written _ (by simp) (by simp) h, ok_bind]
    rfl
  | pointer =>
    obtain ⟨hs, hh⟩ := head_of_modifier (by simp) (by simp) h
    rw [parseConv, if_neg hs, if_neg hh, lengthModifier_written _ (by simp) (by simp) h, ok_bind]
    rfl
  | radix r =>
    obtain ⟨hs, hh⟩ := head_of_modifier (by simp) (by simp) h
    have hc : r.char ≠ 'c'.toUInt8 := by cases r <;> decide
    rw [parseConv, if_neg hs, if_neg hh, lengthModifier_written _ (by simp) (by simp) h, ok_bind]
    exact if_neg hc

/-- A directive is read as it is written, with the arguments that it names. -/
theorem parse_of_written (w : Written) (h : w.body ++ t = c :: format)
    (hfits : ¬ w.spec.TooBig va args) :
    parse T va c format args = .ok ((w.read T va args).1, t, (w.read T va args).2) := by
  obtain ⟨c₁, rest₁, c₂, rest₂, c₃, rest₃, h3, h2, h1, hflags, hf1, ⟨hd2, hs2⟩, hend⟩ := w.parts h
  exact parse_of_conv (flagsLoop_render w.flags hflags hf1)
    (parseNumber_render w.width.number h1 hd2 hs2)
    (parsePrecision_render w.precision h2 hend.1 hend.2.1 hend.2.2) hfits (parseConv_written w h3)

/-- A directive with a width or a precision that is too big is an error. -/
theorem parse_of_written_error (w : Written) (h : w.body ++ t = c :: format)
    (hbig : w.spec.TooBig va args) :
    ∃ d rest args', parse T va c format args = .ok (d, rest, args') ∧ d.conv = .error := by
  obtain ⟨c₁, rest₁, c₂, rest₂, c₃, rest₃, h3, h2, h1, hflags, hf1, ⟨hd2, hs2⟩, hend⟩ := w.parts h
  exact ⟨_, _, _, parse_of_error (flagsLoop_render w.flags hflags hf1)
    (parseNumber_render w.width.number h1 hd2 hs2)
    (parsePrecision_render w.precision h2 hend.1 hend.2.1 hend.2.2) hbig, rfl⟩

end Forward

/-! ### What is read is written -/

section Backward
variable {T va} {c c' : Byte} {format rest : List Byte} {args args' : ν} {flags flags' : Flags}
  {n n' : ℕ}

/-- A character is a flag, or it sets none. -/
theorem flag_or_none (c : Byte) :
    (∃ f : Flag, f.char = c) ∨ ∀ flags : Flags, flags.set c = none := by
  by_cases h : ∃ f : Flag, f.char = c
  · exact Or.inl h
  · have hne : ∀ f : Flag, c ≠ f.char := fun f hf => h ⟨f, hf.symm⟩
    refine Or.inr fun flags => ?_
    have hminus : c ≠ '-'.toUInt8 := hne .minus
    have hplus : c ≠ '+'.toUInt8 := hne .plus
    have hzero : c ≠ '0'.toUInt8 := hne .zero
    have hsharp : c ≠ '#'.toUInt8 := hne .sharp
    have hspace : c ≠ ' '.toUInt8 := hne .space
    rw [Flags.set, if_neg hminus, if_neg hplus, if_neg hzero, if_neg hsharp, if_neg hspace]

theorem flagsLoop_split (h : flagsLoop flags c format = .ok (flags', c', rest)) :
    ∃ fs : List Flag, fs.map Flag.char ++ c' :: rest = c :: format ∧
      ∀ flags : Flags, flags.set c' = none := by
  induction format generalizing flags c with
  | nil =>
    rcases flag_or_none c with ⟨f, rfl⟩ | hnone
    · rw [flagsLoop, set_char] at h
      cases h
    · rw [flagsLoop_stop (hnone flags)] at h
      cases h
      exact ⟨[], rfl, hnone⟩
  | cons c₁ format ih =>
    rcases flag_or_none c with ⟨f, rfl⟩ | hnone
    · rw [flagsLoop, set_char] at h
      obtain ⟨fs, hfs, hnone⟩ := ih h
      exact ⟨f :: fs, congrArg (f.char :: ·) hfs, hnone⟩
    · rw [flagsLoop_stop (hnone flags)] at h
      cases h
      exact ⟨[], rfl, hnone⟩

theorem exists_digit (h : isdigit c = true) : ∃ d, digitChar d = c := by
  obtain ⟨hlo, hhi⟩ : '0'.toUInt8 ≤ c ∧ c ≤ '9'.toUInt8 := of_decide_eq_true h
  have hlo' : 48 ≤ c.toNat := UInt8.le_iff_toNat_le.mp hlo
  have hhi' : c.toNat ≤ 57 := UInt8.le_iff_toNat_le.mp hhi
  refine ⟨⟨c.toNat - 48, by omega⟩, UInt8.toNat_inj.mp ?_⟩
  show (48 + (c.toNat - 48) % 256) % 256 = c.toNat
  omega

theorem numberLoop_split (h : numberLoop n c format = .ok (n', c', rest)) :
    ∃ ds : List (Fin 10), ds.map digitChar ++ c' :: rest = c :: format := by
  induction format generalizing n c with
  | nil =>
    cases hd : isdigit c with
    | false =>
      rw [numberLoop_stop hd] at h
      cases h
      exact ⟨[], rfl⟩
    | true =>
      rw [numberLoop, hd] at h
      cases h
  | cons c₁ format ih =>
    cases hd : isdigit c with
    | false =>
      rw [numberLoop_stop hd] at h
      cases h
      exact ⟨[], rfl⟩
    | true =>
      obtain ⟨d, rfl⟩ := exists_digit hd
      rw [numberLoop, hd, if_pos rfl] at h
      obtain ⟨ds, hds⟩ := ih h
      exact ⟨d :: ds, congrArg (digitChar d :: ·) hds⟩

theorem next_split (h : next format = .ok (c, rest)) : format = c :: rest := by
  cases format with
  | nil => cases h
  | cons c₀ format =>
    cases h
    rfl

theorem parseNumber_split (h : parseNumber va c format args = .ok (n, c', rest, args')) :
    ∃ n : Number, n.render ++ c' :: rest = c :: format := by
  unfold parseNumber at h
  by_cases hstar : c = '*'.toUInt8
  · rw [if_pos hstar] at h
    obtain ⟨⟨c₁, rest₁⟩, h1, h2⟩ := bind_eq_ok h
    cases h2
    rw [hstar, next_split h1]
    exact ⟨.star, rfl⟩
  · rw [if_neg hstar] at h
    obtain ⟨⟨n₁, c₁, rest₁⟩, h1, h2⟩ := bind_eq_ok h
    cases h2
    obtain ⟨ds, hds⟩ := numberLoop_split h1
    exact ⟨.digits ds, hds⟩

theorem parsePrecision_split (h : parsePrecision va c format args = .ok (n, c', rest, args')) :
    ∃ p, renderPrecision p ++ c' :: rest = c :: format := by
  unfold parsePrecision at h
  by_cases hdot : c = '.'.toUInt8
  · rw [if_pos hdot] at h
    obtain ⟨⟨c₁, rest₁⟩, h1, h2⟩ := bind_eq_ok h
    obtain ⟨m, hm⟩ := parseNumber_split h2
    rw [hdot, next_split h1]
    exact ⟨some m, congrArg ('.'.toUInt8 :: ·) hm⟩
  · rw [if_neg hdot] at h
    cases h
    exact ⟨none, rfl⟩

theorem doubled_split {flags₁ flags₂ : Flags} {m : Byte} (h : (do
      let (c, format) ← next format
      if c = m then do
        let (c, format) ← next format
        pure (flags₂, c, format)
      else pure (flags₁, c, format) : Except Fault (Flags × Byte × List Byte)) =
        .ok (flags', c', rest)) : format = c' :: rest ∨ format = m :: c' :: rest := by
  obtain ⟨⟨c₁, rest₁⟩, h1, h2⟩ := bind_eq_ok h
  rw [next_split h1]
  dsimp only at h2
  by_cases hc : c₁ = m
  · rw [if_pos hc] at h2
    obtain ⟨⟨c₂, rest₂⟩, h3, h4⟩ := bind_eq_ok h2
    cases h4
    rw [hc, next_split h3]
    exact Or.inr rfl
  · rw [if_neg hc] at h2
    cases h2
    exact Or.inl rfl

theorem lengthModifier_split (h : lengthModifier T flags c format = .ok (flags', c', rest)) :
    ∃ length : Length, length.render ++ c' :: rest = c :: format := by
  unfold lengthModifier at h
  by_cases h1 : c = 'h'.toUInt8
  · rw [if_pos h1] at h
    rw [h1]
    rcases doubled_split h with hf | hf
    · exact ⟨.h, by rw [hf]; rfl⟩
    · exact ⟨.hh, by rw [hf]; rfl⟩
  by_cases h2 : c = 'l'.toUInt8
  · rw [if_neg h1, if_pos h2] at h
    rw [h2]
    rcases doubled_split h with hf | hf
    · exact ⟨.l, by rw [hf]; rfl⟩
    · exact ⟨.ll, by rw [hf]; rfl⟩
  by_cases h3 : c = 'z'.toUInt8 ∨ c = 't'.toUInt8
  · rw [if_neg h1, if_neg h2, if_pos h3] at h
    obtain ⟨⟨c₁, rest₁⟩, hnext, hpure⟩ := bind_eq_ok h
    cases hpure
    rw [next_split hnext]
    rcases h3 with rfl | rfl
    · exact ⟨.z, rfl⟩
    · exact ⟨.t, rfl⟩
  by_cases h4 : c = 'p'.toUInt8
  · rw [if_neg h1, if_neg h2, if_neg h3, if_pos h4] at h
    cases h
    exact ⟨.none, rfl⟩
  by_cases h5 : c = 'j'.toUInt8
  · rw [if_neg h1, if_neg h2, if_neg h3, if_neg h4, if_pos h5] at h
    obtain ⟨⟨c₁, rest₁⟩, hnext, hpure⟩ := bind_eq_ok h
    cases hpure
    rw [h5, next_split hnext]
    exact ⟨.j, rfl⟩
  · rw [if_neg h1, if_neg h2, if_neg h3, if_neg h4, if_neg h5] at h
    cases h
    exact ⟨.none, rfl⟩

/-- The characters that the `switch` knows. -/
theorem letter_of_conversion {v : ℕ} {x : ℕ × Byte × ℕ}
    (h : (conversion flags c v).ending = .value x) :
    ∃ letter : Letter, letter.toByte = c ∧ letter ≠ .string ∧ letter ≠ .dump := by
  unfold conversion at h
  by_cases hd : c = 'd'.toUInt8
  · exact ⟨.radix .d, hd.symm, by simp, by simp⟩
  by_cases hu : c = 'u'.toUInt8
  · exact ⟨.radix .u, hu.symm, by simp, by simp⟩
  by_cases hp : c = 'p'.toUInt8
  · exact ⟨.pointer, hp.symm, by simp, by simp⟩
  by_cases hx : c = 'X'.toUInt8 ∨ c = 'x'.toUInt8
  · rcases hx with hx | hx
    · exact ⟨.radix .X, hx.symm, by simp, by simp⟩
    · exact ⟨.radix .x, hx.symm, by simp, by simp⟩
  by_cases ho : c = 'o'.toUInt8
  · exact ⟨.radix .o, ho.symm, by simp, by simp⟩
  by_cases hb : c = 'b'.toUInt8
  · exact ⟨.radix .b, hb.symm, by simp, by simp⟩
  · rw [if_neg hd, if_neg hu, if_neg hp, if_neg hx, if_neg ho, if_neg hb] at h
    cases h

/-- An integer that is shown is so under one of these characters. -/
theorem letter_of_convert {padWidth precision : ℕ} {v : BitVec 64}
    (h : (convert T ⟨flags, padWidth, precision, .integer c v⟩).ending = .value true) :
    ∃ letter : Letter, letter.toByte = c ∧ letter ≠ .string ∧ letter ≠ .dump := by
  unfold convert at h
  dsimp only at h
  rcases hconv : (conversion flags c v.toNat).ending with x | _ | f
  · exact letter_of_conversion hconv
  · rw [bind_stop hconv] at h
    cases h
  · rw [bind_fault hconv] at h
    cases h

theorem parseConv_split {padWidth precision : ℕ} {conv : Conv}
    (h : parseConv T va flags c format args = .ok (flags', conv, rest, args'))
    (hgo : (convert T ⟨flags', padWidth, precision, conv⟩).ending = .value true) :
    ∃ (length : Length) (letter : Letter), length.render ++ letter.toByte :: rest = c :: format ∧
      (letter = .string ∨ letter = .dump → length = .none) := by
  unfold parseConv at h
  by_cases hs : c = 's'.toUInt8
  · rw [if_pos hs] at h
    cases h
    exact ⟨.none, .string, by rw [hs]; rfl, fun _ => rfl⟩
  by_cases hh : c = 'H'.toUInt8
  · rw [if_neg hs, if_pos hh] at h
    cases h
    exact ⟨.none, .dump, by rw [hh]; rfl, fun _ => rfl⟩
  rw [if_neg hs, if_neg hh] at h
  obtain ⟨⟨flags₁, c₁, rest₁⟩, h1, h2⟩ := bind_eq_ok h
  obtain ⟨length, hlength⟩ := lengthModifier_split h1
  dsimp only at h2
  by_cases hc : c₁ = 'c'.toUInt8
  · rw [if_pos hc] at h2
    cases h2
    exact ⟨length, .char, by rw [← hlength, hc]; rfl, by simp⟩
  · rw [if_neg hc] at h2
    cases h2
    obtain ⟨letter, hletter, hstring, hdump⟩ := letter_of_convert hgo
    refine ⟨length, letter, by rw [← hlength, hletter], fun h => ?_⟩
    rcases h with h | h
    · exact absurd h hstring
    · exact absurd h hdump

/-- **A directive that is carried out is a written one**, and this is what is carried out. -/
theorem parse_written {d : Directive} (h : parse T va c format args = .ok (d, rest, args'))
    (hgo : (convert T d).ending = .value true) :
    ∃ w : Written, w.body ++ rest = c :: format ∧ ¬ w.spec.TooBig va args ∧
      w.read T va args = (d, args') := by
  obtain ⟨flags, c₁, format₁, c₂, format₂, args₂, c₃, format₃, args₃, h1, h2, h3, h4⟩ :=
    parse_eq_ok h
  rcases h4 with ⟨-, hd, -, -⟩ | ⟨-, h4⟩
  · rw [hd] at hgo
    cases hgo
  obtain ⟨fs, hfs, hnone⟩ := flagsLoop_split h1
  obtain ⟨width, hwidth⟩ := parseNumber_split h2
  obtain ⟨precision, hprecision⟩ := parsePrecision_split h3
  obtain ⟨length, letter, hletter, hbare⟩ := parseConv_split h4 hgo
  -- a 0 at the head of the width would have been taken for a flag
  have hhead : ∀ ds, width = .digits ds → ds.head? ≠ some 0 := by
    rintro (_ | ⟨d₁, ds⟩) rfl h0
    · cases h0
    · obtain rfl : d₁ = 0 := Option.some.inj h0
      have hset := hnone {}
      rw [← (List.cons.inj hwidth).1] at hset
      cases hset
  let w : Written := ⟨fs, ⟨width, hhead⟩, precision, length, letter, hbare⟩
  have hbody : w.body ++ rest = c :: format := by
    rw [← hfs, ← hwidth, ← hprecision, ← hletter]
    simp [w, Written.body]
  by_cases hbig : w.spec.TooBig va args
  · obtain ⟨d', rest', args₄, hd', herror⟩ := parse_of_written_error (T := T) w hbody hbig
    rw [h] at hd'
    cases hd'
    rw [convert, herror] at hgo
    cases hgo
  · have hparse := parse_of_written (T := T) w hbody hbig
    rw [h] at hparse
    obtain ⟨hd, hargs⟩ := Prod.mk.inj (Except.ok.inj hparse)
    exact ⟨w, hbody, hbig, Prod.ext hd.symm (Prod.mk.inj hargs).2.symm⟩

end Backward

/-! ### Runs to the NUL -/

section Runs
variable {T va} {format : List Byte} {args rest : ν} {text : List Byte}

theorem tokensShow_cons (text₁ : List Byte) {token : Token} {ts : List Token}
    {text₂ : List Byte} {args₁ : ν} (h : token.shows T va args = some (text₁, args₁))
    (hs : tokensShow T va ts args₁ = some (text₂, rest)) :
    tokensShow T va (token :: ts) args = some (text₁ ++ text₂, rest) := by
  rw [tokensShow, h]
  show (tokensShow T va ts args₁ >>= _) = _
  rw [hs]
  rfl

theorem shows_directive_iff {w : Written} :
    (Token.directive w).shows T va args = some (text, rest) ↔ ¬ w.spec.TooBig va args ∧
      ∃ d, w.read T va args = (d, rest) ∧ convert T d = ⟨text, .value true⟩ := by
  rw [Token.shows]
  rcases hread : w.read T va args with ⟨d, args'⟩
  by_cases hbig : w.spec.TooBig va args
  · rw [if_pos hbig]
    exact iff_of_false (fun h => by cases h) fun h => h.1 hbig
  rw [if_neg hbig]
  constructor
  · intro h
    refine ⟨hbig, d, ?_⟩
    rcases hconv : convert T d with ⟨text', ⟨_ | _⟩ | _ | f⟩ <;> simp only [hconv] at h <;> cases h
    exact ⟨rfl, rfl⟩
  · rintro ⟨-, d', hd, hconv⟩
    cases hd
    dsimp only
    rw [hconv]

/-- What a run to the NUL has read. The induction is on the run. -/
theorem exists_tokens {o : Outcome ν} (h : Run T va format args text o) (ho : o = .whole rest) :
    ∃ ts, Reads format ts ∧ tokensShow T va ts args = some (text, rest) := by
  induction h with
  | nul =>
    cases ho
    exact ⟨[], ⟨_, rfl⟩, rfl⟩
  | char h0 hc _ ih =>
    obtain ⟨ts, ⟨t, rfl⟩, hshow⟩ := ih ho
    exact ⟨.char _ h0 hc :: ts, ⟨t, rfl⟩, tokensShow_cons [_] rfl hshow⟩
  | percent _ ih =>
    obtain ⟨ts, ⟨t, rfl⟩, hshow⟩ := ih ho
    exact ⟨.percent :: ts, ⟨t, rfl⟩, tokensShow_cons [_] rfl hshow⟩
  | directive _ _ hd hconv _ ih =>
    obtain ⟨ts, ⟨t, rfl⟩, hshow⟩ := ih ho
    obtain ⟨w, hbody, hfits, hread⟩ := parse_written hd (congrArg Emission.ending hconv)
    refine ⟨.directive w :: ts, ⟨t, ?_⟩,
      tokensShow_cons _ (shows_directive_iff.mpr ⟨hfits, _, hread, hconv⟩) hshow⟩
    rw [List.flatMap_cons, Token.render, List.append_assoc, List.cons_append, hbody]
  | truncated => cases ho
  | error => cases ho
  | eof => cases ho
  | fault => cases ho

/-- Tokens that show a text are read to the NUL. The induction is on the tokens. -/
theorem run_of_tokens {ts : List Token} {t : List Byte}
    (h : tokensShow T va ts args = some (text, rest)) :
    Run T va (ts.flatMap Token.render ++ 0 :: t) args text (.whole rest) := by
  induction ts generalizing args text with
  | nil =>
    cases h
    exact .nul
  | cons token ts ih =>
    obtain ⟨⟨text₁, args₁⟩, htoken, h⟩ := Option.bind_eq_some_iff.mp h
    obtain ⟨⟨text₂, args₂⟩, hshow, h⟩ := Option.bind_eq_some_iff.mp h
    cases h
    have hrun := ih hshow
    rw [List.flatMap_cons, List.append_assoc]
    cases token with
    | char c h0 hc =>
      cases htoken
      exact .char h0 hc hrun
    | percent =>
      cases htoken
      exact .percent hrun
    | directive w =>
      obtain ⟨hfits, d, hread, hconv⟩ := shows_directive_iff.mp htoken
      rw [Token.render, List.cons_append]
      rcases hbody : w.body ++ (ts.flatMap Token.render ++ 0 :: t) with _ | ⟨c, format⟩
      · exact absurd hbody (by simp)
      obtain ⟨hc, h0⟩ := w.body_head hbody
      have hparse := parse_of_written (T := T) w hbody hfits
      rw [hread] at hparse
      exact .directive hc h0 hparse hconv hrun

/-- **What the formatter accepts**: it comes to a NUL of its format exactly if the format up to
there has a reading as tokens, which is the only one, and the tokens show a text; and it is this
text that it emits, with the arguments behind those of the tokens unread. -/
theorem whole_run_iff (T : Target) (va : VaArg ν) (format : List Byte) (args : ν)
    (text : List Byte) (rest : ν) : Run T va format args text (.whole rest) ↔
      ∃ ts, Reads format ts ∧ (∀ ts', Reads format ts' → ts' = ts) ∧
        tokensShow T va ts args = some (text, rest) := by
  constructor
  · intro h
    obtain ⟨ts, hreads, hshow⟩ := exists_tokens h rfl
    exact ⟨ts, hreads, fun ts' hreads' => hreads.unique hreads', hshow⟩
  · rintro ⟨ts, ⟨t, rfl⟩, -, hshow⟩
    exact run_of_tokens hshow

end Runs

end Noc.Printf
