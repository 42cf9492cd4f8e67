import Noc.Lib.Numeral
import Noc.Printf.Strings
import Noc.Printf.Snprintf

/-! # `atoi.c`: `atoi`

`atoi` on the bytes that can be read from `nptr` on. A fault is a step that C does not define: a
read behind these bytes, or an `int` operation that overflows.

* `atoi_eq`: the result, and when an operation overflows.
* `atoi_iff`: the number that a string denotes is the result exactly if it has no sign `+` (or is 0)
  and is not `INT_MIN`; so `atoi` reads back what `snprintf` writes for `%d`, exactly if this is not
  `INT_MIN`, nor greater than 0 with the flag `+`. -/

namespace Noc.Atoi

open Noc.Lib.Bytes Noc.Lib.Numeral Noc.Lib.Output Noc.Printf Noc.Targets

/-! ### The functions of the source -/

/-- What C does not define. -/
inductive Fault where
  | string
  | overflow
deriving DecidableEq, Repr

/-- `isspace` -/
def isspace (c : Byte) : Bool := c = ' '.toUInt8 ∨ (0x9 ≤ c ∧ c ≤ 0xd)

/-- The next character of the string: `*nptr++`. -/
def next : List Byte → Except Fault (Byte × List Byte)
  | [] => .error .string
  | c :: s => .ok (c, s)

/-- The result of an `int` operation. -/
def int (x : ℤ) : Except Fault ℤ :=
  if -2 ^ 31 ≤ x ∧ x < 2 ^ 31 then .ok x else .error .overflow

/-- The loop over the white space: the first character behind it. -/
def spaceLoop : List Byte → Except Fault (Byte × List Byte)
  | [] => .error .string
  | c :: s => if c ≠ 0 ∧ isspace c then spaceLoop s else .ok (c, s)

/-- `result * 10 + (c - '0')` -/
def addDigit (result : ℤ) (c : Byte) : Except Fault ℤ := do
  let product ← int (result * 10)
  int (product + (c.toNat - '0'.toNat))

/-- The loop over the digits. -/
def digitLoop : ℤ → Byte → List Byte → Except Fault ℤ
  | result, c, [] =>
    if isdigit c then do
      let _ ← addDigit result c
      .error .string
    else .ok result
  | result, c, c' :: s =>
    if isdigit c then do
      let result ← addDigit result c
      digitLoop result c' s
    else .ok result

/-- `atoi` -/
def atoi (nptr : List Byte) : Except Fault ℤ := do
  let (c, nptr) ← spaceLoop nptr
  let minus : Bool := c = '-'.toUInt8
  let (c, nptr) ← if minus then next nptr else pure (c, nptr)
  let result ← digitLoop 0 c nptr
  if minus then int (-result) else pure result

/-! ### The loops -/

variable {c : Byte} {s : List Byte}

/-- The value of a digit. -/
def digit (c : Byte) : ℕ := c.toNat - '0'.toNat

/-- The number that digits denote. -/
def number (ds : List Byte) : ℕ := value 10 (ds.map digit)

theorem spaceLoop_eq (h : (0 : Byte) ∈ s) :
    ∃ c rest, s.dropWhile isspace = c :: rest ∧ spaceLoop s = .ok (c, rest) ∧
      (0 : Byte) ∈ c :: rest := by
  induction s with
  | nil => cases h
  | cons c s ih =>
    rw [spaceLoop]
    by_cases hspace : isspace c
    · have h0 : c ≠ 0 := by
        rintro rfl
        cases hspace
      rw [List.dropWhile_cons_of_pos hspace, if_pos ⟨h0, hspace⟩]
      exact ih ((List.mem_cons.mp h).resolve_left (Ne.symm h0))
    · rw [List.dropWhile_cons_of_neg hspace, if_neg fun h => hspace h.2]
      exact ⟨c, s, rfl, rfl, h⟩

/-- The result of a computation with `INT_MAX` as its bound. -/
def ofBounded : Option ℕ → Except Fault ℤ
  | some n => .ok n
  | none => .error .overflow

theorem int_natCast (n : ℕ) : int n = ofBounded (if n ≤ intMax then some n else none) := by
  unfold int intMax
  by_cases h : n ≤ 2 ^ 31 - 1
  · rw [if_pos h, if_pos ⟨by omega, by omega⟩]
    rfl
  · rw [if_neg h, if_neg fun h' => by omega]
    rfl

/-- One more digit, in an `int` that is not negative. -/
theorem addDigit_eq (n : ℕ) (hc : isdigit c = true) :
    addDigit n c = ofBounded (bounded 10 intMax n (digit c)) := by
  have hle : '0'.toNat ≤ c.toNat := UInt8.le_iff_toNat_le.mp (of_decide_eq_true hc).1
  have hproduct : (n : ℤ) * 10 = ((10 * n : ℕ) : ℤ) := by omega
  have hsum : ((10 * n : ℕ) : ℤ) + (c.toNat - '0'.toNat) = ((10 * n + digit c : ℕ) : ℤ) := by
    unfold digit
    omega
  unfold addDigit bounded
  rw [hproduct, int_natCast]
  by_cases h : 10 * n ≤ intMax
  · rw [if_pos h]
    show int (((10 * n : ℕ) : ℤ) + (c.toNat - '0'.toNat)) = _
    rw [hsum, int_natCast]
  · rw [if_neg h, if_neg (by omega)]
    rfl

/-- **The loop over the digits** gets their value, up to `INT_MAX`. -/
theorem digitLoop_eq (n : ℕ) (h : (0 : Byte) ∈ c :: s) : digitLoop n c s =
    ofBounded ((((c :: s).takeWhile isdigit).map digit).foldlM (bounded 10 intMax) n) := by
  induction s generalizing n c with
  | nil =>
    obtain rfl : 0 = c := List.mem_singleton.mp h
    rfl
  | cons c' s ih =>
    rw [digitLoop]
    by_cases hc : isdigit c = true
    · have h0 : c ≠ 0 := ne_zero_of_isdigit hc
      rw [if_pos hc, List.takeWhile_cons_of_pos hc, List.map_cons, List.foldlM_cons,
        addDigit_eq n hc]
      rcases bounded 10 intMax n (digit c) with _ | m
      · rfl
      · exact ih m ((List.mem_cons.mp h).resolve_left (Ne.symm h0))
    · rw [if_neg hc, List.takeWhile_cons_of_neg hc]
      rfl

/-- The digits that a string begins with, from 0 on. -/
theorem digitLoop_zero (h : (0 : Byte) ∈ c :: s) : digitLoop 0 c s =
    ofBounded (if number ((c :: s).takeWhile isdigit) ≤ intMax then
      some (number ((c :: s).takeWhile isdigit)) else none) := by
  have hloop := digitLoop_eq 0 h
  rw [foldlM_bounded (by decide) (Nat.zero_le _), Nat.zero_mul, Nat.zero_add] at hloop
  exact hloop

/-! ### What a string denotes -/

/-- The string has the sign `+` behind its white space. -/
def HasPlus (s : List Byte) : Prop := (s.dropWhile isspace).head? = some '+'.toUInt8

instance (s : List Byte) : Decidable (HasPlus s) := inferInstanceAs (Decidable (_ = _))

/-- The number that a string denotes: white space, a sign or none, and digits. -/
def denoted (s : List Byte) : ℤ :=
  let s := s.dropWhile isspace
  if s.head? = some '-'.toUInt8 then -number (s.tail.takeWhile isdigit)
  else if s.head? = some '+'.toUInt8 then number (s.tail.takeWhile isdigit)
  else number (s.takeWhile isdigit)

section Sign
variable {rest : List Byte} (hs : s.dropWhile isspace = c :: rest)
include hs

theorem hasPlus_iff : HasPlus s ↔ c = '+'.toUInt8 := by
  rw [HasPlus, hs, List.head?_cons, Option.some_inj]

theorem denoted_minus (hc : c = '-'.toUInt8) :
    denoted s = -number (rest.takeWhile isdigit) := by
  unfold denoted
  rw [hs, hc]
  exact if_pos rfl

theorem denoted_plus (hc : c = '+'.toUInt8) : denoted s = number (rest.takeWhile isdigit) := by
  unfold denoted
  rw [hs, hc]
  rfl

theorem denoted_digits (hminus : c ≠ '-'.toUInt8) (hplus : c ≠ '+'.toUInt8) :
    denoted s = number ((c :: rest).takeWhile isdigit) := by
  have h1 : (c :: rest).head? ≠ some '-'.toUInt8 := fun h => hminus (Option.some.inj h)
  have h2 : (c :: rest).head? ≠ some '+'.toUInt8 := fun h => hplus (Option.some.inj h)
  unfold denoted
  rw [hs]
  exact (if_neg h1).trans (if_neg h2)

end Sign

/-- **`atoi`**: a string with the sign `+` has no digits where `atoi` looks for them, and the number
that another string denotes is the result if its magnitude is at most `INT_MAX`. -/
theorem atoi_eq (h : (0 : Byte) ∈ s) : atoi s =
    if HasPlus s then .ok 0
    else if (denoted s).natAbs ≤ intMax then .ok (denoted s)
    else .error .overflow := by
  obtain ⟨c, rest, hs, hspace, hmem⟩ := spaceLoop_eq h
  have hplus := hasPlus_iff hs
  unfold atoi
  rw [hspace]
  show (if (decide (c = '-'.toUInt8)) = true then _ else _) = _
  by_cases hminus : c = '-'.toUInt8
  · have hrest : (0 : Byte) ∈ rest := by
      refine (List.mem_cons.mp hmem).resolve_left ?_
      rw [hminus]
      decide
    have hno : ¬ HasPlus s := by
      rw [hplus, hminus]
      decide
    rw [if_pos (decide_eq_true hminus), if_neg hno, denoted_minus hs hminus, Int.natAbs_neg,
      Int.natAbs_natCast]
    rcases rest with _ | ⟨c', rest⟩
    · cases hrest
    show (digitLoop 0 c' rest >>= fun result => _) = _
    rw [digitLoop_zero hrest]
    by_cases hle : number ((c' :: rest).takeWhile isdigit) ≤ intMax
    · rw [if_pos hle, if_pos hle]
      unfold intMax at hle
      show (if decide (c = '-'.toUInt8) = true then int _ else _) = _
      rw [if_pos (decide_eq_true hminus)]
      exact if_pos ⟨by omega, by omega⟩
    · rw [if_neg hle, if_neg hle]
      rfl
  · have hno : ¬ decide (c = '-'.toUInt8) = true := fun h => hminus (of_decide_eq_true h)
    rw [if_neg hno]
    show (digitLoop 0 c rest >>= fun result => if decide (c = '-'.toUInt8) = true then _ else _) = _
    rw [digitLoop_zero hmem]
    simp only [if_neg hno]
    by_cases hsign : c = '+'.toUInt8
    · rw [if_pos (hplus.mpr hsign), hsign]
      rfl
    · rw [if_neg fun h => hsign (hplus.mp h), denoted_digits hs hminus hsign, Int.natAbs_natCast]
      split_ifs <;> rfl

/-! ### Fields of `%d` -/

theorem number_decimalText (precision n : ℕ) : number (decimalText precision n) = n := by
  have hdigit : ∀ d ∈ (Nat.digits 10 n ++
      List.replicate (max precision 1 - (Nat.digits 10 n).length) 0).reverse,
      (digit ∘ fun d => '0'.toUInt8 + UInt8.ofNat d) d = d := by
    intro d hd
    have hall : ∀ d : Fin 10, digit ('0'.toUInt8 + UInt8.ofNat d) = d := by decide
    exact hall ⟨d, lt_of_mem_decimal (List.mem_reverse.mp hd)⟩
  unfold number decimalText value
  rw [List.map_map, List.map_congr_left hdigit, List.map_id', List.reverse_reverse,
    Nat.ofDigits_append_replicate_zero, Nat.ofDigits_digits]

/-- A digit is neither white space nor a sign. -/
theorem isspace_of_isdigit (hc : isdigit c = true) :
    isspace c = false ∧ c ≠ '-'.toUInt8 ∧ c ≠ '+'.toUInt8 := by
  have hall : ∀ n : Fin 256, isdigit (UInt8.ofNat n) = true → isspace (UInt8.ofNat n) = false ∧
      UInt8.ofNat n ≠ '-'.toUInt8 ∧ UInt8.ofNat n ≠ '+'.toUInt8 := by decide +kernel
  have h := hall ⟨c.toNat, c.toNat_lt⟩
  rw [UInt8.ofNat_toNat] at h
  exact h hc

/-- Digits with another character behind them. -/
theorem takeWhile_digits {ds t : List Byte} (hds : ∀ d ∈ ds, isdigit d = true)
    (hc : isdigit c = false) : (ds ++ c :: t).takeWhile isdigit = ds := by
  rw [List.takeWhile_append_of_pos hds, List.takeWhile_cons_of_neg (by rw [hc]; decide),
    List.append_nil]

/-- The sign that `atoi` finds in front of the digits of `%d`. -/
def shownSign (flags : Flags) (x : ℤ) : List Byte :=
  if x < 0 then ['-'.toUInt8] else if flags.addSign then ['+'.toUInt8] else []

variable {flags : Flags} {x : ℤ} {ds t : List Byte}

theorem dropWhile_signText (hds : ∀ d ∈ ds, isdigit d = true) (hne : ds ≠ []) :
    (signText flags x ++ (ds ++ t)).dropWhile isspace = shownSign flags x ++ (ds ++ t) := by
  have hdigits : (ds ++ t).dropWhile isspace = ds ++ t := by
    obtain ⟨d, ds, rfl⟩ := List.exists_cons_of_ne_nil hne
    have hspace := (isspace_of_isdigit (hds d List.mem_cons_self)).1
    exact List.dropWhile_cons_of_neg (by rw [hspace]; decide)
  unfold signText shownSign
  split_ifs
  · rfl
  · rfl
  · exact hdigits
  · exact hdigits

/-- A field of `%d` with more behind it: the sign and the digits behind the white space. -/
theorem dropWhile_field (left : Bool) (width : ℕ) (junk : List Byte)
    (hds : ∀ d ∈ ds, isdigit d = true) (hne : ds ≠ []) : ∃ c t, isdigit c = false ∧
      (stringField left width (signText flags x ++ ds) ++ 0 :: junk).dropWhile isspace =
        shownSign flags x ++ (ds ++ c :: t) := by
  have hblank : ∀ n, ∀ c ∈ List.replicate n ' '.toUInt8, isspace c = true := by
    intro n c hc
    rw [List.eq_of_mem_replicate hc]
    rfl
  unfold stringField
  generalize width - (signText flags x ++ ds).length = n
  cases left with
  | true =>
    obtain ⟨c, t, hc, ht⟩ : ∃ c t, isdigit c = false ∧
        List.replicate n ' '.toUInt8 ++ 0 :: junk = c :: t := by
      cases n with
      | zero => exact ⟨0, junk, rfl, rfl⟩
      | succ n => exact ⟨_, _, rfl, rfl⟩
    refine ⟨c, t, hc, ?_⟩
    rw [if_pos rfl, List.append_assoc, List.append_assoc, ht]
    exact dropWhile_signText hds hne
  | false =>
    refine ⟨0, junk, rfl, ?_⟩
    rw [if_neg Bool.false_ne_true, List.append_assoc, List.append_assoc,
      List.dropWhile_append_of_pos (hblank n)]
    exact dropWhile_signText hds hne

/-- The field of `%d` for an `int`. -/
def intField (flags : Flags) (width : ℕ) (x : ℤ) : List Byte :=
  stringField flags.left width (signText flags x ++ decimalText 0 x.natAbs)

/-- **What a field of `%d` denotes**, with bytes behind its NUL. -/
theorem denoted_field (flags : Flags) (width : ℕ) (x : ℤ) (junk : List Byte) :
    denoted (intField flags width x ++ 0 :: junk) = x ∧
      (HasPlus (intField flags width x ++ 0 :: junk) ↔ 0 ≤ x ∧ flags.addSign) := by
  have hds : ∀ d ∈ decimalText 0 x.natAbs, isdigit d = true := fun d => isdigit_of_mem_decimalText
  have hne : decimalText 0 x.natAbs ≠ [] := by
    refine List.ne_nil_of_length_pos ?_
    rw [length_decimalText, storedDigits]
    omega
  obtain ⟨c, t, hc, hdrop⟩ : ∃ c t, isdigit c = false ∧
      (intField flags width x ++ 0 :: junk).dropWhile isspace =
        shownSign flags x ++ (decimalText 0 x.natAbs ++ c :: t) :=
    dropWhile_field flags.left width junk hds hne
  have hnumber : number ((decimalText 0 x.natAbs ++ c :: t).takeWhile isdigit) = x.natAbs := by
    rw [takeWhile_digits hds hc, number_decimalText]
  unfold shownSign at hdrop
  by_cases hneg : x < 0
  · rw [if_pos hneg, List.singleton_append] at hdrop
    rw [denoted_minus hdrop rfl, hasPlus_iff hdrop, hnumber]
    exact ⟨by omega, iff_of_false (by decide) fun h => by omega⟩
  by_cases hplus : flags.addSign
  · rw [if_neg hneg, if_pos hplus, List.singleton_append] at hdrop
    rw [denoted_plus hdrop rfl, hasPlus_iff hdrop, hnumber]
    exact ⟨by omega, iff_of_true rfl ⟨by omega, hplus⟩⟩
  · rw [if_neg hneg, if_neg hplus, List.nil_append] at hdrop
    obtain ⟨d, ds, htext⟩ := List.exists_cons_of_ne_nil hne
    have hd : isdigit d = true := hds d (by rw [htext]; exact List.mem_cons_self)
    obtain ⟨-, hminus, hsign⟩ := isspace_of_isdigit hd
    rw [htext, List.cons_append] at hdrop hnumber
    rw [denoted_digits hdrop hminus hsign, hasPlus_iff hdrop, hnumber]
    exact ⟨by omega, iff_of_false hsign fun h => hplus h.2⟩

/-! ### When `atoi` converts -/

/-- `atoi` converts a string: the number that it denotes is the result, without an overflow, if it
is an `int`; and no byte behind the string is read. -/
structure Converts (s : List Byte) : Prop where
  value : -2 ^ 31 ≤ denoted s → denoted s < 2 ^ 31 → atoi s = .ok (denoted s)
  inside : atoi s ≠ .error .string

theorem denoted_nonneg (h : (0 : Byte) ∈ s) (hplus : HasPlus s) : 0 ≤ denoted s := by
  obtain ⟨c, rest, hs, -, -⟩ := spaceLoop_eq h
  rw [denoted_plus hs ((hasPlus_iff hs).mp hplus)]
  exact Int.natCast_nonneg _

/-- The NUL ends both loops. -/
theorem atoi_ne_string (h : (0 : Byte) ∈ s) : atoi s ≠ .error .string := by
  rw [atoi_eq h]
  split_ifs <;> exact nofun

theorem atoi_eq_denoted_iff (h : (0 : Byte) ∈ s) : atoi s = .ok (denoted s) ↔
    ¬ (HasPlus s ∧ denoted s ≠ 0) ∧ (denoted s).natAbs ≤ intMax := by
  rw [atoi_eq h]
  by_cases hplus : HasPlus s
  · rw [if_pos hplus, Except.ok.injEq]
    constructor
    · intro hzero
      rw [← hzero]
      exact ⟨fun hno => hno.2 rfl, Nat.zero_le _⟩
    · rintro ⟨hno, -⟩
      by_contra hne
      exact hno ⟨hplus, Ne.symm hne⟩
  · rw [if_neg hplus, and_iff_right fun hno => hplus hno.1]
    by_cases hle : (denoted s).natAbs ≤ intMax
    · rw [if_pos hle]
      exact iff_of_true rfl hle
    · rw [if_neg hle]
      exact iff_of_false nofun hle

theorem converts_iff (h : (0 : Byte) ∈ s) : Converts s ↔
    ¬ (HasPlus s ∧ denoted s ≠ 0 ∧ denoted s < 2 ^ 31) ∧ denoted s ≠ -2 ^ 31 := by
  have hiff := atoi_eq_denoted_iff h
  have hnonneg := denoted_nonneg h
  unfold intMax at hiff
  constructor
  · intro hconv
    constructor
    · rintro ⟨hplus, hne, hlt⟩
      have hvalue := hconv.value (by have := hnonneg hplus; omega) hlt
      exact (hiff.mp hvalue).1 ⟨hplus, hne⟩
    · intro hmin
      have hvalue := hconv.value (by omega) (by omega)
      have hle := (hiff.mp hvalue).2
      omega
  · rintro ⟨hno, hmin⟩
    refine ⟨fun hlo hhi => hiff.mpr ⟨?_, by omega⟩, atoi_ne_string h⟩
    rintro ⟨hplus, hne⟩
    exact hno ⟨hplus, hne, hhi⟩

/-- `snprintf` writes the value and `atoi` reads it back. -/
def ReadsBack (T : Target) (s : Spec) (args : Unread) (addr : ℕ) (mem : Mem) (str n : ℕ) (x : ℤ) :
    Prop :=
  ∃ res mem', snprintf T (argList T) mem str n ⟨addr, '%'.toUInt8 :: (s.body ++ [0])⟩ args =
      .ok (res, mem') ∧
    atoi ((List.range n).map fun i => mem' (str + i)) = .ok x

/-- A field of `%d` is no longer than `MAX_FORMAT`. -/
theorem length_field_le (flags : Flags) {width : ℕ} (hw : width ≤ maxFormat) (hlo : -2 ^ 31 ≤ x)
    (hhi : x < 2 ^ 31) : (intField flags width x).length ≤ maxFormat := by
  have hsign : (signText flags x).length ≤ 1 := by
    unfold signText
    split_ifs <;> decide
  have hdigits : (decimalText 0 x.natAbs).length ≤ 64 := by
    have hcount := digitCount_le (Or.inr (Or.inr (Or.inl rfl)) : IsBase 10)
      (show x.natAbs < 2 ^ 64 by omega)
    rw [length_decimalText, storedDigits]
    omega
  unfold maxFormat intField stringField at *
  cases flags.left
  · simp
    omega
  · simp
    omega

/-- **When `atoi` reads back `%d`.** -/
theorem readsBack_iff (T : Target) (s : Spec) (hs : s.conversion = .integer .none .d)
    (hzero : s.setFlags.padZero = false) {args : Unread} {rest : List Arg} {width : ℕ} {x : ℤ}
    (hnum : s.numbers (argList T) args = (width, 0, ⟨.word32 (BitVec.ofInt 32 x) :: rest, true⟩))
    (hw : width ≤ maxFormat) (hlo : -2 ^ 31 ≤ x) (hhi : x < 2 ^ 31) {addr : ℕ} (haddr : addr ≠ 0)
    (mem : Mem) {str n : ℕ} (hn : maxFormat < n) (hfit : str + n ≤ T.space) :
    ReadsBack T s args addr mem str n x ↔ ¬ (s.setFlags.addSign ∧ 0 < x) ∧ x ≠ -2 ^ 31 := by
  have hfits : ¬ s.TooBig (argList T) args := by
    rw [Spec.TooBig, hnum, not_or]
    exact ⟨not_lt.mpr hw, Nat.not_lt_zero _⟩
  have hmiss : ¬ MissesPlus s.setFlags .none x := by
    rintro ⟨h | h, -⟩ <;> cases h
  have hconv := convert_signed T s hs hnum Length.noConfusion ⟨hlo, hhi⟩ hw (Nat.zero_le _)
  rw [signOf_eq hmiss, paddedText_blank hzero] at hconv
  have hformat := ((run_directive_iff s hfits).mpr ⟨hconv, rfl⟩).formatted_eq
  have hlen := length_field_le s.setFlags hw hlo hhi
  have hfield := denoted_field s.setFlags width x
  change _ = (⟨intField s.setFlags width x, .value ()⟩ : Output Unit) at hformat
  generalize intField s.setFlags width x = text at hformat hlen hfield
  have hemitted : emitted T (argList T) ⟨addr, '%'.toUInt8 :: (s.body ++ [0])⟩ args = text :=
    congrArg Emission.text hformat
  have haddr' : (⟨addr, '%'.toUInt8 :: (s.body ++ [0])⟩ : Ptr).addr ≠ 0 := haddr
  have hend : ∀ f, (formatted T (argList T) ('%'.toUInt8 :: (s.body ++ [0])) args).ending ≠
      .fault f := by
    intro f hf
    rw [hformat] at hf
    cases hf
  have hmax : maxFormat = 128 := rfl
  obtain ⟨mem', hsn, hold⟩ := snprintf_holds mem haddr' (by omega) hfit
    (by rw [hemitted]; omega) hend
  rw [hemitted] at hold
  obtain ⟨junk, hstring⟩ := hold.string (by omega)
  obtain ⟨hdenoted, hplus⟩ := hfield junk
  have hread : ReadsBack T s args addr mem str n x ↔ atoi (text ++ 0 :: junk) = .ok x := by
    rw [← hstring]
    constructor
    · rintro ⟨res, mem'', h, hatoi⟩
      rw [hsn] at h
      cases h
      exact hatoi
    · exact fun hatoi => ⟨_, mem', hsn, hatoi⟩
  have hiff := atoi_eq_denoted_iff (show (0 : Byte) ∈ text ++ 0 :: junk by simp)
  rw [hdenoted, hplus] at hiff
  rw [hread, hiff]
  unfold intMax
  constructor
  · rintro ⟨hno, hle⟩
    exact ⟨fun h => hno ⟨⟨h.2.le, h.1⟩, h.2.ne'⟩, by omega⟩
  · rintro ⟨hno, hmin⟩
    refine ⟨?_, by omega⟩
    rintro ⟨⟨hnonneg, hadd⟩, hne⟩
    exact hno ⟨hadd, by omega⟩

/-- **When `atoi` converts**: for every string, exactly if it has no sign `+` before a number that
is an `int` (and not 0), and is not that of `INT_MIN`. So for every `int`, every width and all flags
but `0`, `atoi` reads back what `snprintf` writes for `%d`, exactly if this is not `INT_MIN`, nor a
number above 0 with the flag `+`. -/
theorem atoi_iff (s : List Byte) :
    (Converts (s ++ [0]) ↔
      ¬ (HasPlus (s ++ [0]) ∧ denoted (s ++ [0]) ≠ 0 ∧ denoted (s ++ [0]) < 2 ^ 31) ∧
        denoted (s ++ [0]) ≠ -2 ^ 31) ∧
    ∀ (T : Target) (s : Spec), s.conversion = .integer .none .d → s.setFlags.padZero = false →
      ∀ {args : Unread} {rest : List Arg} {width : ℕ} {x : ℤ},
        s.numbers (argList T) args = (width, 0, ⟨.word32 (BitVec.ofInt 32 x) :: rest, true⟩) →
        width ≤ maxFormat → -2 ^ 31 ≤ x → x < 2 ^ 31 →
        ∀ {addr : ℕ}, addr ≠ 0 → ∀ (mem : Mem) {str n : ℕ}, maxFormat < n → str + n ≤ T.space →
          (ReadsBack T s args addr mem str n x ↔
            ¬ (s.setFlags.addSign ∧ 0 < x) ∧ x ≠ -2 ^ 31) := by
  constructor
  · exact converts_iff (List.mem_append_right s (List.mem_singleton.mpr rfl))
  · intro T s hs hzero args rest width x hnum hw hlo hhi addr haddr mem str n hn hfit
    exact readsBack_iff T s hs hzero hnum hw hlo hhi haddr mem hn hfit

/-- `"  -42 km"`, and `%-6d` of -42. -/
theorem atoi_iff_minus : Converts ("  -42 km".toList.map Char.toUInt8 ++ [0]) ∧
    ReadsBack .riscv32 ⟨[.minus], .digits [6], none, .integer .none .d, by rintro ds ⟨⟩; decide⟩
      (.start [.word32 (-42)]) 1 (fun _ => 1) 4096 129 (-42) := by
  refine ⟨(atoi_iff _).1.mpr (by decide), ?_⟩
  exact ((atoi_iff []).2 .riscv32 _ rfl rfl (x := -42) rfl (by decide) (by decide) (by decide)
    Nat.one_ne_zero _ (by decide) (by decide)).mpr ⟨by decide, by decide⟩

/-- The sign of `+5` is not read, and the number of `-2147483648` is built up before its sign. -/
theorem atoi_plus : denoted (cstr "+5") = 5 ∧ atoi (cstr "+5") = .ok 0 ∧
    denoted (cstr "-2147483648") = -2 ^ 31 ∧ atoi (cstr "-2147483648") = .error .overflow ∧
    ¬ Converts (cstr "+5") ∧ ¬ Converts (cstr "-2147483648") := by
  have hplus : denoted (cstr "+5") = 5 ∧ atoi (cstr "+5") = .ok 0 := by decide
  have hmin : denoted (cstr "-2147483648") = -2 ^ 31 ∧
      atoi (cstr "-2147483648") = .error .overflow := by decide
  refine ⟨hplus.1, hplus.2, hmin.1, hmin.2, fun h => ?_, fun h => ?_⟩
  · have hvalue := h.value (by rw [hplus.1]; decide) (by rw [hplus.1]; decide)
    rw [hplus.1, hplus.2] at hvalue
    cases hvalue
  · have hvalue := h.value (by rw [hmin.1]) (by rw [hmin.1]; decide)
    rw [hmin.2] at hvalue
    cases hvalue

end Noc.Atoi
