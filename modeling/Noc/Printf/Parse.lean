import Noc.Printf.Defs

/-! # Reading a directive

The cursor of the formatter stays inside the format. `Ahead c format` says of the cursor that unless
the last character read is the NUL, the NUL is still ahead. Every function that reads keeps this
(`flagsLoop_ahead`, `numberLoop_ahead`, `parseNumber_ahead`, `lengthModifier_ahead`), so a directive
is read without a read behind the NUL (`parse_ahead`). -/

namespace Noc.Printf

open Noc.Targets

variable {ν : Type} {T : Target} {va : VaArg ν} {c : Byte} {format : List Byte} {args : ν}

/-- Unless the last character read is the NUL, it is still ahead. -/
def Ahead (c : Byte) (format : List Byte) : Prop := c ≠ 0 → (0 : Byte) ∈ format

theorem ahead_of_mem (h : (0 : Byte) ∈ c :: format) : Ahead c format := by
  intro hc
  rcases List.mem_cons.mp h with h | h
  · exact absurd h.symm hc
  · exact h

@[simp] theorem ok_bind {α β : Type} (a : α) (k : α → Except Fault β) :
    (Except.ok a >>= k) = k a := rfl

/-- The next character is there as long as the NUL is ahead. -/
theorem next_ahead (h : (0 : Byte) ∈ format) : ∃ c rest, next format = .ok (c, rest) ∧
    Ahead c rest ∧ rest.length < format.length := by
  cases format with
  | nil => cases h
  | cons c rest => exact ⟨c, rest, rfl, ahead_of_mem h, Nat.lt_succ_self _⟩

/-- A flag is not the NUL. -/
theorem Flags.ne_zero_of_set {flags flags' : Flags} (h : flags.set c = some flags') : c ≠ 0 := by
  rintro rfl
  cases h

/-- A digit is not the NUL. -/
theorem ne_zero_of_isdigit (h : isdigit c) : c ≠ 0 := by
  rintro rfl
  cases h

theorem flagsLoop_ahead (flags : Flags) (h : Ahead c format) : ∃ flags' c' rest,
    flagsLoop flags c format = .ok (flags', c', rest) ∧ Ahead c' rest ∧
      rest.length ≤ format.length := by
  induction format generalizing flags c with
  | nil =>
    rw [flagsLoop]
    rcases hset : flags.set c with _ | flags'
    · exact ⟨_, _, _, rfl, h, le_rfl⟩
    · cases h (Flags.ne_zero_of_set hset)
  | cons c' format ih =>
    rw [flagsLoop]
    rcases hset : flags.set c with _ | flags'
    · exact ⟨_, _, _, rfl, h, le_rfl⟩
    · obtain ⟨flags'', c'', rest, h1, h2, h3⟩ :=
        ih flags' (ahead_of_mem (h (Flags.ne_zero_of_set hset)))
      exact ⟨_, _, _, h1, h2, by rw [List.length_cons]; omega⟩

theorem numberLoop_ahead (n : ℕ) (h : Ahead c format) : ∃ n' c' rest,
    numberLoop n c format = .ok (n', c', rest) ∧ Ahead c' rest ∧ rest.length ≤ format.length := by
  induction format generalizing n c with
  | nil =>
    rw [numberLoop]
    by_cases hd : isdigit c
    · cases h (ne_zero_of_isdigit hd)
    · rw [if_neg hd]
      exact ⟨_, _, _, rfl, h, le_rfl⟩
  | cons c' format ih =>
    rw [numberLoop]
    by_cases hd : isdigit c
    · rw [if_pos hd]
      obtain ⟨n', c'', rest, h1, h2, h3⟩ :=
        ih ((10 * n + (c.toNat - '0'.toNat)) % 2 ^ 32) (ahead_of_mem (h (ne_zero_of_isdigit hd)))
      exact ⟨_, _, _, h1, h2, by rw [List.length_cons]; omega⟩
    · rw [if_neg hd]
      exact ⟨_, _, _, rfl, h, le_rfl⟩

theorem parseNumber_ahead (va : VaArg ν) (args : ν) (h : Ahead c format) : ∃ n c' rest args',
    parseNumber va c format args = .ok (n, c', rest, args') ∧ Ahead c' rest ∧
      rest.length ≤ format.length := by
  unfold parseNumber
  by_cases hstar : c = '*'.toUInt8
  · have hc : c ≠ 0 := by
      rw [hstar]
      decide
    obtain ⟨c', rest, h1, h2, h3⟩ := next_ahead (h hc)
    rw [if_pos hstar, h1]
    exact ⟨_, _, _, _, rfl, h2, h3.le⟩
  · obtain ⟨n, c', rest, h1, h2, h3⟩ := numberLoop_ahead 0 h
    rw [if_neg hstar, h1]
    exact ⟨_, _, _, _, rfl, h2, h3⟩

/-- A length modifier of one character. -/
theorem single_ahead (flags : Flags) (h : (0 : Byte) ∈ format) : ∃ flags' c' rest,
    (do
      let (c, format) ← next format
      pure (flags, c, format) : Except Fault (Flags × Byte × List Byte)) = .ok (flags', c', rest) ∧
      Ahead c' rest ∧ rest.length ≤ format.length := by
  obtain ⟨c', rest, h1, h2, h3⟩ := next_ahead h
  rw [h1]
  exact ⟨_, _, _, rfl, h2, h3.le⟩

/-- A length modifier that may be doubled. -/
theorem doubled_ahead (flags₁ flags₂ : Flags) {m : Byte} (hm : m ≠ 0) (h : (0 : Byte) ∈ format) :
    ∃ flags' c' rest, (do
      let (c, format) ← next format
      if c = m then do
        let (c, format) ← next format
        pure (flags₂, c, format)
      else pure (flags₁, c, format) : Except Fault (Flags × Byte × List Byte)) =
        .ok (flags', c', rest) ∧ Ahead c' rest ∧ rest.length ≤ format.length := by
  obtain ⟨c', rest, h1, h2, h3⟩ := next_ahead h
  rw [h1]
  simp only [ok_bind]
  by_cases hc : c' = m
  · obtain ⟨flags', c'', rest', h4, h5, h6⟩ := single_ahead flags₂ (h2 (hc ▸ hm))
    rw [if_pos hc]
    exact ⟨_, _, _, h4, h5, by omega⟩
  · rw [if_neg hc]
    exact ⟨_, _, _, rfl, h2, h3.le⟩

theorem lengthModifier_ahead (T : Target) (flags : Flags) (h : Ahead c format) :
    ∃ flags' c' rest, lengthModifier T flags c format = .ok (flags', c', rest) ∧ Ahead c' rest ∧
      rest.length ≤ format.length := by
  unfold lengthModifier
  by_cases h1 : c = 'h'.toUInt8
  · rw [if_pos h1]
    exact doubled_ahead _ _ (by decide) (h (by rw [h1]; decide))
  by_cases h2 : c = 'l'.toUInt8
  · rw [if_neg h1, if_pos h2]
    exact doubled_ahead _ _ (by decide) (h (by rw [h2]; decide))
  by_cases h3 : c = 'z'.toUInt8 ∨ c = 't'.toUInt8
  · rw [if_neg h1, if_neg h2, if_pos h3]
    exact single_ahead _ (h (by rcases h3 with rfl | rfl <;> decide))
  by_cases h4 : c = 'p'.toUInt8
  · rw [if_neg h1, if_neg h2, if_neg h3, if_pos h4]
    exact ⟨_, _, _, rfl, h, le_rfl⟩
  by_cases h5 : c = 'j'.toUInt8
  · rw [if_neg h1, if_neg h2, if_neg h3, if_neg h4, if_pos h5]
    exact single_ahead _ (h (by rw [h5]; decide))
  · rw [if_neg h1, if_neg h2, if_neg h3, if_neg h4, if_neg h5]
    exact ⟨_, _, _, rfl, h, le_rfl⟩

theorem parsePrecision_ahead (va : VaArg ν) (args : ν) (h : Ahead c format) : ∃ n c' rest args',
    parsePrecision va c format args = .ok (n, c', rest, args') ∧ Ahead c' rest ∧
      rest.length ≤ format.length := by
  unfold parsePrecision
  by_cases hdot : c = '.'.toUInt8
  · obtain ⟨c', rest, h1, h2, h3⟩ := next_ahead (h (by rw [hdot]; decide))
    obtain ⟨n, c'', rest', args', h4, h5, h6⟩ := parseNumber_ahead va args h2
    rw [if_pos hdot, h1]
    exact ⟨_, _, _, _, h4, h5, by omega⟩
  · rw [if_neg hdot]
    exact ⟨_, _, _, _, rfl, h, le_rfl⟩

theorem parseConv_ahead (T : Target) (va : VaArg ν) (flags : Flags) (args : ν)
    (h : Ahead c format) : ∃ flags' conv rest args',
    parseConv T va flags c format args = .ok (flags', conv, rest, args') ∧
      rest.length ≤ format.length ∧ ((0 : Byte) ∈ rest ∨ ∃ v, conv = .integer 0 v) := by
  unfold parseConv
  by_cases hs : c = 's'.toUInt8
  · rw [if_pos hs]
    exact ⟨_, _, _, _, rfl, le_rfl, Or.inl (h (by rw [hs]; decide))⟩
  by_cases hh : c = 'H'.toUInt8
  · rw [if_neg hs, if_pos hh]
    exact ⟨_, _, _, _, rfl, le_rfl, Or.inl (h (by rw [hh]; decide))⟩
  obtain ⟨flags', c', rest, h1, h2, h3⟩ := lengthModifier_ahead T flags h
  rw [if_neg hs, if_neg hh, h1]
  simp only [ok_bind]
  by_cases hc : c' = 'c'.toUInt8
  · rw [if_pos hc]
    exact ⟨_, _, _, _, rfl, h3, Or.inl (h2 (by rw [hc]; decide))⟩
  rw [if_neg hc]
  refine ⟨_, _, _, _, rfl, h3, ?_⟩
  by_cases h0 : c' = 0
  · subst h0
    exact Or.inr ⟨_, rfl⟩
  · exact Or.inl (h2 h0)

/-- **A directive is read inside the format.** Afterwards the NUL is still ahead, or it is the
conversion character, or the directive is an error. -/
theorem parse_ahead (T : Target) (va : VaArg ν) (args : ν) (h : Ahead c format) :
    ∃ d rest args', parse T va c format args = .ok (d, rest, args') ∧
      rest.length ≤ format.length ∧
      ((0 : Byte) ∈ rest ∨ d.conv = .error ∨ ∃ v, d.conv = .integer 0 v) := by
  obtain ⟨flags, c₁, format₁, hf, hf1, hf2⟩ := flagsLoop_ahead {} h
  obtain ⟨padWidth, c₂, format₂, args₂, hw, hw1, hw2⟩ := parseNumber_ahead va args hf1
  obtain ⟨precision, c₃, format₃, args₃, hp, hp1, hp2⟩ := parsePrecision_ahead va args₂ hw1
  obtain ⟨flags', conv, format₄, args₄, hv, hv1, hv2⟩ := parseConv_ahead T va flags args₃ hp1
  unfold parse
  simp only [hf, hw, hp, ok_bind]
  by_cases hbig : maxFormat < padWidth ∨ maxFormat < precision
  · rw [if_pos hbig]
    exact ⟨_, _, _, rfl, by omega, Or.inr (Or.inl rfl)⟩
  · have hlen : format₄.length ≤ format.length := by omega
    rw [if_neg hbig, hv]
    exact ⟨_, _, _, rfl, hlen, hv2.imp_right Or.inr⟩

/-! ### Reading depends only on what is read -/

section Prefix
variable {flags flags' : Flags} {c c' : Byte} {n n' : ℕ} {rest t : List Byte} {args args' : ν}

theorem flagsLoop_stop (h : flags.set c = none) : flagsLoop flags c t = .ok (flags, c, t) := by
  cases t <;> rw [flagsLoop, h]

theorem numberLoop_stop (h : isdigit c = false) : numberLoop n c t = .ok (n, c, t) := by
  cases t <;> rw [numberLoop, h, if_neg Bool.false_ne_true]

theorem next_prefix (h : next format = .ok (c, rest)) :
    ∃ p, format = p ++ rest ∧ ∀ t, next (p ++ t) = .ok (c, t) := by
  cases format with
  | nil => cases h
  | cons c₀ format =>
    cases h
    exact ⟨[c], rfl, fun _ => rfl⟩

theorem flagsLoop_prefix (h : flagsLoop flags c format = .ok (flags', c', rest)) :
    ∃ p, format = p ++ rest ∧ ∀ t, flagsLoop flags c (p ++ t) = .ok (flags', c', t) := by
  induction format generalizing flags c with
  | nil =>
    rcases hset : flags.set c with _ | flags₁
    · rw [flagsLoop_stop hset] at h
      cases h
      exact ⟨[], rfl, fun _ => flagsLoop_stop hset⟩
    · rw [flagsLoop, hset] at h
      cases h
  | cons c₁ format ih =>
    rcases hset : flags.set c with _ | flags₁
    · rw [flagsLoop_stop hset] at h
      cases h
      exact ⟨[], rfl, fun _ => flagsLoop_stop hset⟩
    · rw [flagsLoop, hset] at h
      obtain ⟨p, rfl, hp⟩ := ih h
      refine ⟨c₁ :: p, rfl, fun t => ?_⟩
      rw [List.cons_append, flagsLoop, hset]
      exact hp t

theorem numberLoop_prefix (h : numberLoop n c format = .ok (n', c', rest)) :
    ∃ p, format = p ++ rest ∧ ∀ t, numberLoop n c (p ++ t) = .ok (n', c', t) := by
  induction format generalizing n c with
  | nil =>
    cases hd : isdigit c with
    | false =>
      rw [numberLoop_stop hd] at h
      cases h
      exact ⟨[], rfl, fun _ => numberLoop_stop hd⟩
    | true =>
      rw [numberLoop, hd] at h
      cases h
  | cons c₁ format ih =>
    cases hd : isdigit c with
    | false =>
      rw [numberLoop_stop hd] at h
      cases h
      exact ⟨[], rfl, fun _ => numberLoop_stop hd⟩
    | true =>
      rw [numberLoop, hd, if_pos rfl] at h
      obtain ⟨p, rfl, hp⟩ := ih h
      refine ⟨c₁ :: p, rfl, fun t => ?_⟩
      rw [List.cons_append, numberLoop, hd, if_pos rfl]
      exact hp t

/-- The first part of a sequence that gives a value. -/
theorem bind_eq_ok {α β : Type} {x : Except Fault α} {k : α → Except Fault β} {b : β}
    (h : x >>= k = .ok b) : ∃ a, x = .ok a ∧ k a = .ok b := by
  cases x with
  | error f => cases h
  | ok a => exact ⟨a, rfl, h⟩

theorem parseNumber_prefix (h : parseNumber va c format args = .ok (n, c', rest, args')) :
    ∃ p, format = p ++ rest ∧ ∀ t, parseNumber va c (p ++ t) args = .ok (n, c', t, args') := by
  unfold parseNumber at h ⊢
  by_cases hstar : c = '*'.toUInt8
  · rw [if_pos hstar] at h
    obtain ⟨⟨c₁, rest₁⟩, h1, h2⟩ := bind_eq_ok h
    cases h2
    obtain ⟨p, hp, hnext⟩ := next_prefix h1
    refine ⟨p, hp, fun t => ?_⟩
    rw [if_pos hstar, hnext]
    rfl
  · rw [if_neg hstar] at h
    obtain ⟨⟨n₁, c₁, rest₁⟩, h1, h2⟩ := bind_eq_ok h
    cases h2
    obtain ⟨p, hp, hnumber⟩ := numberLoop_prefix h1
    refine ⟨p, hp, fun t => ?_⟩
    rw [if_neg hstar, hnumber]
    rfl

theorem parsePrecision_prefix (h : parsePrecision va c format args = .ok (n, c', rest, args')) :
    ∃ p, format = p ++ rest ∧ ∀ t, parsePrecision va c (p ++ t) args = .ok (n, c', t, args') := by
  unfold parsePrecision at h ⊢
  by_cases hdot : c = '.'.toUInt8
  · rw [if_pos hdot] at h
    obtain ⟨⟨c₁, rest₁⟩, h1, h2⟩ := bind_eq_ok h
    obtain ⟨p, rfl, hnext⟩ := next_prefix h1
    obtain ⟨q, rfl, hnumber⟩ := parseNumber_prefix h2
    refine ⟨p ++ q, (List.append_assoc _ _ _).symm, fun t => ?_⟩
    rw [if_pos hdot, List.append_assoc, hnext]
    exact hnumber t
  · rw [if_neg hdot] at h
    cases h
    exact ⟨[], rfl, fun _ => if_neg hdot⟩

theorem single_prefix (h : (do
      let (c, format) ← next format
      pure (flags, c, format) : Except Fault (Flags × Byte × List Byte)) = .ok (flags', c', rest)) :
    ∃ p, format = p ++ rest ∧ ∀ t, (do
      let (c, format) ← next (p ++ t)
      pure (flags, c, format) : Except Fault (Flags × Byte × List Byte)) = .ok (flags', c', t) := by
  obtain ⟨⟨c₁, rest₁⟩, h1, h2⟩ := bind_eq_ok h
  cases h2
  obtain ⟨p, hp, hnext⟩ := next_prefix h1
  refine ⟨p, hp, fun t => ?_⟩
  rw [hnext]
  rfl

theorem doubled_prefix {flags₁ flags₂ : Flags} {m : Byte} (h : (do
      let (c, format) ← next format
      if c = m then do
        let (c, format) ← next format
        pure (flags₂, c, format)
      else pure (flags₁, c, format) : Except Fault (Flags × Byte × List Byte)) =
        .ok (flags', c', rest)) :
    ∃ p, format = p ++ rest ∧ ∀ t, (do
      let (c, format) ← next (p ++ t)
      if c = m then do
        let (c, format) ← next format
        pure (flags₂, c, format)
      else pure (flags₁, c, format) : Except Fault (Flags × Byte × List Byte)) =
        .ok (flags', c', t) := by
  obtain ⟨⟨c₁, rest₁⟩, h1, h2⟩ := bind_eq_ok h
  obtain ⟨p, rfl, hnext⟩ := next_prefix h1
  dsimp only at h2
  by_cases hc : c₁ = m
  · rw [if_pos hc] at h2
    obtain ⟨q, rfl, hq⟩ := single_prefix h2
    refine ⟨p ++ q, (List.append_assoc _ _ _).symm, fun t => ?_⟩
    rw [List.append_assoc, hnext, ok_bind]
    dsimp only
    rw [if_pos hc]
    exact hq t
  · rw [if_neg hc] at h2
    cases h2
    refine ⟨p, rfl, fun t => ?_⟩
    rw [hnext, ok_bind]
    dsimp only
    rw [if_neg hc]
    rfl

theorem lengthModifier_prefix (h : lengthModifier T flags c format = .ok (flags', c', rest)) :
    ∃ p, format = p ++ rest ∧ ∀ t, lengthModifier T flags c (p ++ t) = .ok (flags', c', t) := by
  unfold lengthModifier at h ⊢
  by_cases h1 : c = 'h'.toUInt8
  · simp only [if_pos h1] at h ⊢
    exact doubled_prefix h
  by_cases h2 : c = 'l'.toUInt8
  · simp only [if_neg h1, if_pos h2] at h ⊢
    exact doubled_prefix h
  by_cases h3 : c = 'z'.toUInt8 ∨ c = 't'.toUInt8
  · simp only [if_neg h1, if_neg h2, if_pos h3] at h ⊢
    exact single_prefix h
  by_cases h4 : c = 'p'.toUInt8
  · simp only [if_neg h1, if_neg h2, if_neg h3, if_pos h4] at h ⊢
    cases h
    exact ⟨[], rfl, fun _ => rfl⟩
  by_cases h5 : c = 'j'.toUInt8
  · simp only [if_neg h1, if_neg h2, if_neg h3, if_neg h4, if_pos h5] at h ⊢
    exact single_prefix h
  · simp only [if_neg h1, if_neg h2, if_neg h3, if_neg h4, if_neg h5] at h ⊢
    cases h
    exact ⟨[], rfl, fun _ => rfl⟩

theorem parseConv_prefix {conv : Conv}
    (h : parseConv T va flags c format args = .ok (flags', conv, rest, args')) :
    ∃ p, format = p ++ rest ∧
      ∀ t, parseConv T va flags c (p ++ t) args = .ok (flags', conv, t, args') := by
  unfold parseConv at h ⊢
  by_cases hs : c = 's'.toUInt8
  · simp only [if_pos hs] at h ⊢
    cases h
    exact ⟨[], rfl, fun _ => rfl⟩
  by_cases hh : c = 'H'.toUInt8
  · simp only [if_neg hs, if_pos hh] at h ⊢
    cases h
    exact ⟨[], rfl, fun _ => rfl⟩
  simp only [if_neg hs, if_neg hh] at h ⊢
  obtain ⟨⟨flags₁, c₁, rest₁⟩, h1, h2⟩ := bind_eq_ok h
  obtain ⟨p, hp, hmod⟩ := lengthModifier_prefix h1
  dsimp only at h2
  refine ⟨p, ?_, fun t => ?_⟩
  · by_cases hc : c₁ = 'c'.toUInt8
    · rw [if_pos hc] at h2
      cases h2
      exact hp
    · rw [if_neg hc] at h2
      cases h2
      exact hp
  · rw [hmod, ok_bind]
    dsimp only
    by_cases hc : c₁ = 'c'.toUInt8
    · rw [if_pos hc] at h2 ⊢
      cases h2
      rfl
    · rw [if_neg hc] at h2 ⊢
      cases h2
      rfl

/-- A directive with a width or a precision that is too big. -/
theorem parse_of_error {padWidth precision : ℕ} {c₁ c₂ c₃ : Byte}
    {format₁ format₂ format₃ : List Byte} {args₂ args₃ : ν}
    (h1 : flagsLoop {} c format = .ok (flags, c₁, format₁))
    (h2 : parseNumber va c₁ format₁ args = .ok (padWidth, c₂, format₂, args₂))
    (h3 : parsePrecision va c₂ format₂ args₂ = .ok (precision, c₃, format₃, args₃))
    (hbig : maxFormat < padWidth ∨ maxFormat < precision) : parse T va c format args =
      .ok (⟨flags, padWidth, precision, .error⟩, format₃, args₃) := by
  unfold parse
  simp only [h1, h2, h3, ok_bind]
  rw [if_pos hbig]
  rfl

/-- A directive with a conversion. -/
theorem parse_of_conv {padWidth precision : ℕ} {c₁ c₂ c₃ : Byte}
    {format₁ format₂ format₃ format₄ : List Byte} {args₂ args₃ args₄ : ν} {conv : Conv}
    (h1 : flagsLoop {} c format = .ok (flags, c₁, format₁))
    (h2 : parseNumber va c₁ format₁ args = .ok (padWidth, c₂, format₂, args₂))
    (h3 : parsePrecision va c₂ format₂ args₂ = .ok (precision, c₃, format₃, args₃))
    (hbig : ¬ (maxFormat < padWidth ∨ maxFormat < precision))
    (h4 : parseConv T va flags c₃ format₃ args₃ = .ok (flags', conv, format₄, args₄)) :
    parse T va c format args = .ok (⟨flags', padWidth, precision, conv⟩, format₄, args₄) := by
  unfold parse
  simp only [h1, h2, h3, ok_bind]
  rw [if_neg hbig, h4]
  rfl

/-- What has been read when a directive has been. -/
theorem parse_eq_ok {d : Directive} (h : parse T va c format args = .ok (d, rest, args')) :
    ∃ flags c₁ format₁ c₂ format₂ args₂ c₃ format₃ args₃,
      flagsLoop {} c format = .ok (flags, c₁, format₁) ∧
      parseNumber va c₁ format₁ args = .ok (d.padWidth, c₂, format₂, args₂) ∧
      parsePrecision va c₂ format₂ args₂ = .ok (d.precision, c₃, format₃, args₃) ∧
      ((maxFormat < d.padWidth ∨ maxFormat < d.precision) ∧
          d = ⟨flags, d.padWidth, d.precision, .error⟩ ∧ rest = format₃ ∧ args' = args₃ ∨
        ¬ (maxFormat < d.padWidth ∨ maxFormat < d.precision) ∧
          parseConv T va flags c₃ format₃ args₃ = .ok (d.flags, d.conv, rest, args')) := by
  unfold parse at h
  obtain ⟨⟨flags₁, c₁, format₁⟩, h1, k1⟩ := bind_eq_ok h
  obtain ⟨⟨padWidth, c₂, format₂, args₂⟩, h2, k2⟩ := bind_eq_ok k1
  obtain ⟨⟨precision, c₃, format₃, args₃⟩, h3, k3⟩ := bind_eq_ok k2
  dsimp only at h1 h2 h3 k3
  by_cases hbig : maxFormat < padWidth ∨ maxFormat < precision
  · rw [if_pos hbig] at k3
    cases k3
    exact ⟨_, _, _, _, _, _, _, _, _, h1, h2, h3, Or.inl ⟨hbig, rfl, rfl, rfl⟩⟩
  · rw [if_neg hbig] at k3
    obtain ⟨⟨flags₄, conv, format₄, args₄⟩, h4, k4⟩ := bind_eq_ok k3
    cases k4
    exact ⟨_, _, _, _, _, _, _, _, _, h1, h2, h3, Or.inr ⟨hbig, h4⟩⟩

/-- **Reading a directive** depends on the characters that are read only. -/
theorem parse_prefix {d : Directive} (h : parse T va c format args = .ok (d, rest, args')) :
    ∃ p, format = p ++ rest ∧ ∀ t, parse T va c (p ++ t) args = .ok (d, t, args') := by
  obtain ⟨flags, c₁, format₁, c₂, format₂, args₂, c₃, format₃, args₃, h1, h2, h3, h4⟩ :=
    parse_eq_ok h
  obtain ⟨p₁, rfl, hp₁⟩ := flagsLoop_prefix h1
  obtain ⟨p₂, rfl, hp₂⟩ := parseNumber_prefix h2
  obtain ⟨p₃, rfl, hp₃⟩ := parsePrecision_prefix h3
  rcases h4 with ⟨hbig, hd, rfl, rfl⟩ | ⟨hbig, h4⟩
  · refine ⟨p₁ ++ (p₂ ++ p₃), by simp only [List.append_assoc], fun t => ?_⟩
    simp only [List.append_assoc]
    rw [hd]
    exact parse_of_error (hp₁ _) (hp₂ _) (hp₃ _) hbig
  · obtain ⟨p₄, rfl, hp₄⟩ := parseConv_prefix h4
    refine ⟨p₁ ++ (p₂ ++ (p₃ ++ p₄)), by simp only [List.append_assoc], fun t => ?_⟩
    simp only [List.append_assoc]
    exact parse_of_conv (hp₁ _) (hp₂ _) (hp₃ _) hbig (hp₄ _)

end Prefix

end Noc.Printf
