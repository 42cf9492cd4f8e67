import Noc.Printf.Digits
import Noc.Printf.Parse

/-! # Carrying out a directive

How a directive can fail. `convert_ending_eq_fault`: it leaves the array `digits` exactly if it is
`%d` with a sign and the precision 67 (`Directive.Overruns`), and it reads behind the bytes of its
argument exactly if that is a string without a NUL or an array shorter than the dump
(`Directive.Overreads`). Nothing else goes wrong. -/

namespace Noc.Printf

open Noc.Lib.Output Noc.Lib.Output.Emission Noc.Targets

variable {T : Target} {f : Fault} {flags : Flags} {v : ℕ}

/-! ### The sign -/

/-- The value is negative at the size that the length modifier gives it. -/
def Negative (flags : Flags) (v : ℕ) : Prop :=
  if flags.bit16 then 2 ^ 15 ≤ v
  else if flags.bit8 then 2 ^ 7 ≤ v
  else if flags.bit64 then 2 ^ 63 ≤ v
  else 2 ^ 31 ≤ v

instance (flags : Flags) (v : ℕ) : Decidable (Negative flags v) := by
  unfold Negative
  infer_instance

/-- `%d` has a sign: of a negative value, or for the flag of a space, or for the flag `+`, which the
sizes `h` and `hh` ignore. -/
def HasSign (flags : Flags) (v : ℕ) : Prop :=
  Negative flags v ∨ flags.space ∨ (flags.addSign ∧ ¬ flags.bit16 ∧ ¬ flags.bit8)

instance (flags : Flags) (v : ℕ) : Decidable (HasSign flags v) := by
  unfold HasSign
  infer_instance

/-- A minus for the negative values, another sign or none for the others. -/
theorem minus_sign_iff {p : Prop} [Decidable p] {sign : Byte} {m n : ℕ} :
    (if p then ('-'.toUInt8, m) else (sign, n)).1 ≠ 0 ↔ p ∨ sign ≠ 0 := by
  have hminus : '-'.toUInt8 ≠ 0 := by decide
  split_ifs with h
  · exact ⟨fun _ => Or.inl h, fun _ => hminus⟩
  · exact (or_iff_right h).symm

/-- A sign that only the flag `+` can set. -/
theorem plus_sign_iff {plus : Bool} : (if plus then '+'.toUInt8 else 0) ≠ 0 ↔ plus := by
  cases plus <;> decide

theorem signExtend_sign_iff : (signExtend flags v).1 ≠ 0 ↔
    Negative flags v ∨ (flags.addSign ∧ ¬ flags.bit16 ∧ ¬ flags.bit8) := by
  unfold signExtend Negative
  by_cases h16 : flags.bit16
  · rw [if_pos h16, if_pos h16, minus_sign_iff]
    simp [h16]
  by_cases h8 : flags.bit8
  · rw [if_neg h16, if_neg h16, if_pos h8, if_pos h8, minus_sign_iff]
    simp [h8]
  rw [if_neg h16, if_neg h16, if_neg h8, if_neg h8, and_iff_left ⟨h16, h8⟩]
  by_cases h64 : flags.bit64
  · rw [if_pos h64, if_pos h64, minus_sign_iff, plus_sign_iff]
  · rw [if_neg h64, if_neg h64, minus_sign_iff, plus_sign_iff]

theorem signed_sign_iff : (signed flags v).1 ≠ 0 ↔ HasSign flags v := by
  have hspace : ' '.toUInt8 ≠ 0 := by decide
  have hsign : (signed flags v).1 ≠ 0 ↔ (signExtend flags v).1 ≠ 0 ∨ flags.space := by
    unfold signed
    dsimp only
    split_ifs with h
    · exact ⟨fun _ => Or.inr h.2, fun _ => hspace⟩
    · exact ⟨Or.inl, fun h' h0 => h ⟨h0, h'.resolve_left (not_not.mpr h0)⟩⟩
  rw [hsign, signExtend_sign_iff]
  unfold HasSign
  tauto

theorem signed_lt (hv : v < 2 ^ 64) : (signed flags v).2 < 2 ^ 64 := by
  show (signExtend flags v).2 < 2 ^ 64
  unfold signExtend
  split_ifs <;> dsimp only <;> omega

/-! ### Strings -/

section Strings
variable {s : List Byte} {c : Byte} {padWidth precision n : ℕ}

/-- The text before a NUL. -/
theorem takeWhile_nul (h : (0 : Byte) ∉ s) : (s ++ [0]).takeWhile (· ≠ 0) = s := by
  have hall : ∀ c ∈ s, decide (c ≠ 0) = true := by
    intro c hc
    refine decide_eq_true ?_
    rintro rfl
    exact h hc
  rw [List.takeWhile_append_of_pos hall, List.takeWhile_cons_of_neg (by simp), List.append_nil]

/-- `strlen` finds the NUL if there is one. -/
theorem strlen_eq : strlen s =
    if (0 : Byte) ∈ s then .ok (s.takeWhile (· ≠ 0)).length else .error .string := by
  induction s with
  | nil => rfl
  | cons b s ih =>
    rw [strlen, ih]
    by_cases hb : b = 0
    · subst hb
      rw [if_pos rfl, if_pos List.mem_cons_self, List.takeWhile_cons_of_neg (by simp)]
      rfl
    · have hmem : (0 : Byte) ∈ b :: s ↔ (0 : Byte) ∈ s := by
        rw [List.mem_cons, or_iff_right (Ne.symm hb)]
      rw [if_neg hb, List.takeWhile_cons_of_pos (by simp [hb]), List.length_cons]
      simp only [hmem]
      split_ifs <;> rfl

theorem padLoop_eq : padLoop c n = ⟨List.replicate n c, .value ()⟩ := by
  induction n with
  | zero => rfl
  | succ n ih =>
    rw [padLoop, ih]
    rfl

/-- The loop emits the characters before the NUL, as many as the precision allows. -/
theorem valueStrLoop_eq (h : (0 : Byte) ∈ s) :
    valueStrLoop precision s = ⟨(s.takeWhile (· ≠ 0)).take precision, .value ()⟩ := by
  induction s generalizing precision with
  | nil => cases h
  | cons b s ih =>
    cases precision with
    | zero => rw [valueStrLoop, List.take_zero, pure_eq]
    | succ precision =>
      rw [valueStrLoop]
      by_cases hb : b = 0
      · rw [if_pos hb, List.takeWhile_cons_of_neg (by simp [hb]), List.take_nil, pure_eq]
      · have hs := (List.mem_cons.mp h).resolve_left (Ne.symm hb)
        rw [if_neg hb, ih hs, List.takeWhile_cons_of_pos (by simp [hb]), List.take_succ_cons]
        rfl

theorem pad_eq {asked : Bool} :
    pad asked c n = ⟨List.replicate (if asked then n else 0) c, .value ()⟩ := by
  cases asked
  · rfl
  · exact padLoop_eq

/-- **The end of a directive** with a text that has its NUL. -/
theorem output_eq (h : (0 : Byte) ∈ s) : output flags padWidth precision s =
    let text := s.takeWhile (· ≠ 0)
    let len := shownLen precision text.length
    ⟨List.replicate (if !flags.left then padWidth - len else 0)
        (if flags.padZero then '0'.toUInt8 else ' '.toUInt8) ++
      (text.take (shownMax padWidth precision len) ++
        List.replicate (if flags.left then padWidth - len else 0) ' '.toUInt8), .value ()⟩ := by
  unfold output
  rw [strlen_eq, if_pos h, ok_lift, value_bind]
  dsimp only
  rw [pad_eq, pad_eq, bind_value rfl, valueStrLoop_eq h, bind_value rfl]

/-- The end of a directive needs the NUL of its text. -/
theorem output_ending : (output flags padWidth precision s).ending =
    if (0 : Byte) ∈ s then .value () else .fault .string := by
  by_cases h : (0 : Byte) ∈ s
  · rw [output_eq h, if_pos h]
  · unfold output
    rw [strlen_eq, if_neg h, if_neg h, error_lift, bind_fault rfl]

/-- A dump needs as many bytes as the precision says. -/
theorem dumpLoop_ending : (dumpLoop T precision s).ending =
    if s.length < precision then .fault .string else .value () := by
  induction precision generalizing s with
  | zero => rfl
  | succ precision ih =>
    cases s with
    | nil => rfl
    | cons b s =>
      rw [dumpLoop, emit_bind, emit_bind]
      show (dumpLoop T precision s).ending = _
      rw [ih, List.length_cons]
      simp only [Nat.add_lt_add_iff_right]

/-- The text before the NUL is shown as nothing: there is no room to fill, and it has no characters,
or, without a precision, a multiple of the `uint32_t` bound. -/
def ShowsNothing (padWidth precision : ℕ) (s : List Byte) : Prop :=
  padWidth ≤ (s.takeWhile (· ≠ 0)).length ∧ (s.takeWhile (· ≠ 0)).length % 2 ^ 32 = 0 ∧
    (precision = 0 ∨ (s.takeWhile (· ≠ 0)).length = 0)

theorem output_text_eq_nil (h : (0 : Byte) ∈ s) :
    (output flags padWidth precision s).text = [] ↔ ShowsNothing padWidth precision s := by
  rw [output_eq h, ← List.length_eq_zero_iff]
  simp only [List.length_append, List.length_replicate, List.length_take]
  unfold ShowsNothing
  generalize (s.takeWhile (· ≠ 0)).length = len
  have hpad : (if (!flags.left) = true then padWidth - shownLen precision len else 0) +
      (min (shownMax padWidth precision (shownLen precision len)) len +
        if flags.left = true then padWidth - shownLen precision len else 0) = 0 ↔
      padWidth ≤ shownLen precision len ∧
        min (shownMax padWidth precision (shownLen precision len)) len = 0 := by
    cases flags.left <;> simp <;> omega
  rw [hpad]
  by_cases hp : precision = 0
  · have hlen : shownLen precision len = len := if_neg fun h => h.1 hp
    have hmax : shownMax padWidth precision len =
        (if padWidth < len then len else padWidth) % 2 ^ 32 := if_pos hp
    rw [hlen, hmax]
    split_ifs <;> omega
  · have hmax : ∀ len, shownMax padWidth precision len = precision := fun _ => if_neg hp
    rw [hmax, shownLen]
    split_ifs <;> omega

end Strings

/-! ### The directive -/

/-- **The store below the array**: `%d` with the precision `sizeof(digits) - 1` and a sign. -/
def Directive.Overruns (d : Directive) : Prop :=
  match d.conv with
  | .integer c v => c = 'd'.toUInt8 ∧ d.precision = digitsSize - 1 ∧ HasSign d.flags v.toNat
  | _ => False

instance (d : Directive) : Decidable d.Overruns :=
  match d with
  | ⟨_, _, _, .integer _ _⟩ => inferInstanceAs (Decidable (_ ∧ _ ∧ _))
  | ⟨_, _, _, .error⟩ => inferInstanceAs (Decidable False)
  | ⟨_, _, _, .string _⟩ => inferInstanceAs (Decidable False)
  | ⟨_, _, _, .dump _⟩ => inferInstanceAs (Decidable False)
  | ⟨_, _, _, .char _⟩ => inferInstanceAs (Decidable False)

/-- The read behind the argument: a string without a NUL, or an array shorter than the dump. -/
def Directive.Overreads (d : Directive) : Prop :=
  match d.conv with
  | .string p => p.addr ≠ 0 ∧ (0 : Byte) ∉ p.bytes
  | .dump p => p.addr ≠ 0 ∧ p.bytes.length < d.precision
  | _ => False

instance (d : Directive) : Decidable d.Overreads :=
  match d with
  | ⟨_, _, _, .string _⟩ => inferInstanceAs (Decidable (_ ∧ _))
  | ⟨_, _, _, .dump _⟩ => inferInstanceAs (Decidable (_ ∧ _))
  | ⟨_, _, _, .error⟩ => inferInstanceAs (Decidable False)
  | ⟨_, _, _, .char _⟩ => inferInstanceAs (Decidable False)
  | ⟨_, _, _, .integer _ _⟩ => inferInstanceAs (Decidable False)

/-- The conversions that the `switch` knows: base, sign and magnitude. -/
theorem conversion_ending (c : Byte) (hv : v < 2 ^ 64) :
    ((conversion flags c v).ending = .stop ∧ c ≠ 'd'.toUInt8) ∨ ∃ base sign m,
      (conversion flags c v).ending = .value (base, sign, m) ∧ IsBase base ∧ m < 2 ^ 64 ∧
        (sign ≠ 0 ↔ c = 'd'.toUInt8 ∧ HasSign flags v) := by
  have hno : ∀ {c : Byte}, c ≠ 'd'.toUInt8 → ((0 : Byte) ≠ 0 ↔ c = 'd'.toUInt8 ∧ HasSign flags v) :=
    fun hc => iff_of_false (fun h => h rfl) fun h => hc h.1
  unfold conversion
  by_cases h1 : c = 'd'.toUInt8
  · rw [if_pos h1]
    refine Or.inr ⟨10, (signed flags v).1, (signed flags v).2, rfl, by simp [IsBase],
      signed_lt hv, ?_⟩
    rw [signed_sign_iff]
    exact (and_iff_right h1).symm
  rw [if_neg h1]
  split_ifs
  · exact Or.inr ⟨_, _, _, rfl, by simp [IsBase], hv, hno h1⟩
  · exact Or.inr ⟨_, _, _, rfl, by simp [IsBase], hv, hno h1⟩
  · exact Or.inr ⟨_, _, _, rfl, by simp [IsBase], hv, hno h1⟩
  · exact Or.inr ⟨_, _, _, rfl, by simp [IsBase], hv, hno h1⟩
  · exact Or.inr ⟨_, _, _, rfl, by simp [IsBase], hv, hno h1⟩
  · exact Or.inl ⟨rfl, h1⟩

/-- A conversion with a value is one that the `switch` knows. -/
theorem conversion_value {c : Byte} {base m : ℕ} {sign : Byte} (hv : v < 2 ^ 64)
    (h : (conversion flags c v).ending = .value (base, sign, m)) :
    IsBase base ∧ m < 2 ^ 64 ∧ (sign ≠ 0 ↔ c = 'd'.toUInt8 ∧ HasSign flags v) := by
  rcases conversion_ending c hv with ⟨hstop, -⟩ | ⟨base', sign', m', hvalue, hb, hm, hsign⟩
  · rw [h] at hstop
    cases hstop
  · rw [h] at hvalue
    cases hvalue
    exact ⟨hb, hm, hsign⟩

/-- The digits of a value, in the room that the array has, and what is left to do with them. -/
theorem integer_ending {base m padWidth precision : ℕ} {hex sign : Byte} (hb : IsBase base)
    (hm : m < 2 ^ 64) (hp : precision ≤ digitsSize - 1) :
    (do
      let valueStr ← (integerText T base hex sign precision m : Except Fault (List Byte))
      output flags padWidth 0 valueStr
      pure true : Output Bool).ending =
    if precision = digitsSize - 1 ∧ sign ≠ 0 then .fault .digits else .value true := by
  rw [integerText_cases hb hm hp]
  split_ifs
  · rfl
  · have hout : (output flags padWidth 0
        ((storedChars base hex sign precision m).reverse ++ [0])).ending = .value () := by
      rw [output_ending, if_pos (by simp)]
    rw [ok_lift, value_bind, ending_bind_of_value hout, pure_eq]

/-- **How a directive fails.** -/
theorem convert_ending_eq_fault (d : Directive) : (convert T d).ending = .fault f ↔
    (f = .digits ∧ d.Overruns) ∨ (f = .string ∧ d.Overreads) := by
  obtain ⟨flags, padWidth, precision, conv⟩ := d
  unfold Directive.Overruns Directive.Overreads convert
  cases conv with
  | error => simp
  | string p =>
    dsimp only
    rw [ending_bind_eq_fault, output_ending]
    by_cases h0 : p.addr = 0
    · rw [if_pos h0, if_pos (by decide)]
      simp [h0]
    · rw [if_neg h0]
      by_cases hnul : (0 : Byte) ∈ p.bytes <;> simp [h0, hnul, eq_comm]
  | dump p =>
    dsimp only
    by_cases h0 : p.addr = 0 ∨ precision = 0
    · rw [if_pos h0]
      simp only [pure_eq, reduceCtorEq, and_false, false_or, false_iff, not_and, not_lt]
      omega
    · rw [if_neg h0, ending_bind_eq_fault, dumpLoop_ending]
      obtain ⟨h1, -⟩ := not_or.mp h0
      by_cases hlt : p.bytes.length < precision <;> simp [h1, hlt, eq_comm]
  | char c => simp
  | integer c v =>
    dsimp only
    rcases conversion_ending c v.isLt with ⟨h, hc⟩ | ⟨base, sign, m, h, hb, hm, hsign⟩
    · rw [bind_stop h]
      simp [hc]
    · rw [ending_bind_of_value h]
      dsimp only
      by_cases hbig : digitsSize - 1 < precision
      · rw [if_pos hbig]
        simp [hbig.ne']
      · rw [if_neg hbig, integer_ending hb hm (by omega), ite_eq_iff, hsign]
        simp [and_left_comm, and_comm, eq_comm]

/-- A string that is shown as nothing. -/
def Directive.Silent (d : Directive) : Prop :=
  match d.conv with
  | .string p => p.addr ≠ 0 ∧ ShowsNothing d.padWidth d.precision p.bytes
  | _ => False

/-- The digits of a value are shown. -/
theorem integer_text_ne_nil {base m padWidth precision : ℕ} {hex sign : Byte} (hb : IsBase base)
    (hhex : IsHex hex) (hm : m < 2 ^ 64) (hp : precision ≤ digitsSize - 1) (h : (do
      let valueStr ← (integerText T base hex sign precision m : Except Fault (List Byte))
      output flags padWidth 0 valueStr
      pure true : Output Bool).ending = .value true) : (do
      let valueStr ← (integerText T base hex sign precision m : Except Fault (List Byte))
      output flags padWidth 0 valueStr
      pure true : Output Bool).text ≠ [] := by
  rw [integerText_cases hb hm hp] at h ⊢
  split_ifs at h ⊢
  · cases h
  · obtain ⟨l, hl⟩ := text_bind (output flags padWidth 0
      ((storedChars base hex sign precision m).reverse ++ [0])) fun _ => pure true
    rw [ok_lift, value_bind, hl]
    intro hnil
    have hshown := (output_text_eq_nil (by simp)).mp (List.append_eq_nil_iff.mp hnil).1
    have hnul : (0 : Byte) ∉ storedChars base hex sign precision m :=
      zero_notMem_storedChars hb hhex precision m
    have hlen := length_storedChars base precision m hex sign
    have hcount := digitCount_le hb hm
    rw [ShowsNothing, takeWhile_nul (by rwa [List.mem_reverse]), List.length_reverse, hlen]
      at hshown
    unfold storedDigits at hshown
    unfold digitsSize at hp
    split_ifs at hshown <;> omega

/-- **A directive that emits nothing**, when it goes on. -/
theorem convert_text_eq_nil {d : Directive} (h : (convert T d).ending = .value true) :
    (convert T d).text = [] ↔ d.Silent := by
  obtain ⟨flags, padWidth, precision, conv⟩ := d
  unfold Directive.Silent
  unfold convert at h ⊢
  cases conv with
  | error => cases h
  | string p =>
    dsimp only at h ⊢
    obtain ⟨a, ha, -, htext⟩ := exists_of_ending_bind h
    have hnul : (0 : Byte) ∈ if p.addr = 0 then cstr "[null]" else p.bytes := by
      by_contra hnul
      rw [output_ending, if_neg hnul] at ha
      cases ha
    rw [htext, pure_eq, List.append_nil, output_text_eq_nil hnul]
    by_cases h0 : p.addr = 0
    · rw [if_pos h0]
      refine iff_of_false (fun h => ?_) fun h => h.1 h0
      have hlen : ((cstr "[null]").takeWhile (· ≠ 0)).length = 6 := by decide
      rw [ShowsNothing, hlen] at h
      omega
    · rw [if_neg h0, and_iff_right h0]
  | dump p =>
    dsimp only at h ⊢
    split_ifs at h ⊢ with h0
    · cases h
    obtain ⟨n, rfl⟩ := Nat.exists_eq_succ_of_ne_zero (not_or.mp h0).2
    rcases hbytes : p.bytes with _ | ⟨c, s⟩
    · rw [hbytes] at h
      cases h
    · obtain ⟨l, hl⟩ := text_bind (dumpLoop T (n + 1) (c :: s)) fun _ => pure true
      rw [hl, dumpLoop, emit_bind]
      simp
  | char c => simp
  | integer c v =>
    dsimp only at h ⊢
    obtain ⟨⟨base, sign, m⟩, hconv, hval, htext⟩ := exists_of_ending_bind h
    refine iff_of_false (fun hnil => ?_) id
    rw [htext] at hnil
    rcases conversion_ending c v.isLt with ⟨h', -⟩ | ⟨base', sign', m', h', hb, hm, -⟩
    · rw [h'] at hconv
      cases hconv
    rw [h'] at hconv
    cases hconv
    dsimp only at hval hnil
    by_cases hbig : digitsSize - 1 < precision
    · rw [if_pos hbig] at hval
      cases hval
    · rw [if_neg hbig] at hval hnil
      refine integer_text_ne_nil hb ?_ hm (by omega) hval (List.append_eq_nil_iff.mp hnil).2
      split_ifs
      · exact Or.inr rfl
      · exact Or.inl rfl

/-- A string is no error. -/
theorem Directive.Silent.ending_ne_error {d : Directive} (h : d.Silent) :
    (convert T d).ending ≠ .value false := by
  obtain ⟨flags, padWidth, precision, conv⟩ := d
  rcases conv with _ | p | _ | _ | _
  · exact h.elim
  · intro hend
    obtain ⟨a, -, hval, -⟩ := exists_of_ending_bind hend
    cases hval
  all_goals exact h.elim

end Noc.Printf
