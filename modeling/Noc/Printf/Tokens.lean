import Noc.Lib.Codes
import Noc.Printf.Convert
import Noc.Printf.Syntax

/-! # The tokens of a format

The formatter takes more than the formats of `Syntax`: a length modifier may also stand before `p`
and `c`. `Token` has all that it takes, and `tokensShow` says what tokens show, one after the other.
`Reads format ts`: up to a NUL, the format is the text of the tokens `ts`.

* `Token.prefixFree`: no token begins with another one.
* `Reads.unique`: a format has one reading.
* `Format.render_injective`: the text of a format of `Syntax` determines it. -/

namespace Noc.Printf

open Noc.Lib.Codes Noc.Targets

variable {ν : Type} (T : Target) (va : VaArg ν)

/-! ### Tokens -/

/-- A conversion character. -/
inductive Letter where
  | radix (radix : Radix)
  | pointer
  | char
  | string
  | dump
deriving DecidableEq

def Letter.toByte : Letter → Byte
  | .radix r => r.char
  | .pointer => 'p'.toUInt8
  | .char => 'c'.toUInt8
  | .string => 's'.toUInt8
  | .dump => 'H'.toUInt8

/-- The conversion, with the length of an integer. -/
def Letter.conversion (length : Length) : Letter → Conversion
  | .radix r => .integer length r
  | .pointer => .pointer
  | .char => .char
  | .string => .string
  | .dump => .dump

/-- A width: its digits do not begin with 0, which would be a flag. -/
structure Width where
  number : Number
  head : ∀ ds, number = .digits ds → ds.head? ≠ some 0

/-- A directive as the formatter takes it. It knows no length modifier before `s` and `H`. -/
structure Written where
  flags : List Flag
  width : Width
  precision : Option Number
  length : Length
  letter : Letter
  bare : letter = .string ∨ letter = .dump → length = .none

namespace Written
variable (w : Written)

/-- The characters behind the `%`. -/
def body : List Byte :=
  w.flags.map Flag.char ++ (w.width.number.render ++ (renderPrecision w.precision ++
    (w.length.render ++ [w.letter.toByte])))

theorem width_head : ∀ ds, w.width.number = .digits ds → ds.head? ≠ some 0 := w.width.head

/-- The directive without a length before `p` and `c`. -/
def spec : Spec where
  flags := w.flags
  width := w.width.number
  precision := w.precision
  conversion := w.letter.conversion w.length
  width_head := w.width_head

/-- The flags with those of the length, or of `p` without a length. -/
def apply (flags : Flags) : Flags :=
  if w.length = .none then w.spec.conversion.apply T flags else w.length.apply T flags

/-- What the formatter makes of the directive, and the arguments behind it. -/
def read (args : ν) : Directive × ν :=
  let (padWidth, precision, args) := w.spec.numbers va args
  let flags := w.apply T w.spec.setFlags
  let (conv, args) := w.spec.conversion.read va flags args
  (⟨flags, padWidth, precision, conv⟩, args)

end Written

/-- A part of a format. -/
inductive Token where
  | char (c : Byte) (h0 : c ≠ 0) (hc : c ≠ '%'.toUInt8)
  | percent
  | directive (w : Written)

def Token.render : Token → List Byte
  | .char c _ _ => [c]
  | .percent => ['%'.toUInt8, '%'.toUInt8]
  | .directive w => '%'.toUInt8 :: w.body

/-- What a token shows and the arguments behind its own, if the format goes on behind it. -/
def Token.shows : Token → ν → Option (List Byte × ν)
  | .char c _ _, args => some ([c], args)
  | .percent, args => some (['%'.toUInt8], args)
  | .directive w, args =>
    if w.spec.TooBig va args then none
    else
      let (d, args) := w.read T va args
      match convert T d with
      | ⟨text, .value true⟩ => some (text, args)
      | _ => none

/-- What tokens show, one after the other, and the arguments that are left. -/
def tokensShow : List Token → ν → Option (List Byte × ν)
  | [], args => some ([], args)
  | token :: ts, args => do
    let (text, args) ← token.shows T va args
    let (text', args) ← tokensShow ts args
    pure (text ++ text', args)

/-- Up to a NUL the format is the text of the tokens. -/
def Reads (format : List Byte) (ts : List Token) : Prop :=
  ∃ t, ts.flatMap Token.render ++ 0 :: t = format

/-! ### The code of tokens -/

section Code
variable {c : Byte}

/-- No length modifier begins with the character. -/
def NoLength (c : Byte) : Prop :=
  c ≠ 'h'.toUInt8 ∧ c ≠ 'l'.toUInt8 ∧ c ≠ 'z'.toUInt8 ∧ c ≠ 't'.toUInt8 ∧ c ≠ 'j'.toUInt8

theorem flag_char_injective : Function.Injective Flag.char := by
  intro f f' h
  cases f <;> cases f' <;> first | rfl | cases h

theorem digitChar_injective : Function.Injective digitChar := by
  unfold Function.Injective
  decide

theorem letter_toByte_injective : Function.Injective Letter.toByte := by
  have hradix : ∀ r r' : Radix, r.char = r'.char → r = r' := by
    intro r r' h
    cases r <;> cases r' <;> first | rfl | cases h
  intro l l' h
  cases l with
  | radix r =>
    cases l' with
    | radix r' => rw [hradix r r' h]
    | _ => cases r <;> cases h
  | _ =>
    cases l' with
    | radix r' => cases r' <;> cases h
    | _ => first | rfl | cases h

theorem noLength_letter (letter : Letter) : NoLength letter.toByte := by
  unfold NoLength
  cases letter with
  | radix r => cases r <;> decide
  | _ => decide

theorem delimited_length : Delimited Length.render NoLength := by
  intro length length' c c' t t' hc hc' h
  unfold NoLength at hc hc'
  -- the first characters differ, or the second is a character behind the other one
  cases length <;> cases length' <;> simp_all [Length.render] <;> exact absurd h.1 (by decide)

theorem ne_digitChar (h : isdigit c = false) (d : Fin 10) : c ≠ digitChar d := by
  rintro rfl
  rw [isdigit_digitChar] at h
  cases h

theorem delimited_number :
    Delimited Number.render fun c => isdigit c = false ∧ c ≠ '*'.toUInt8 := by
  have hdigits : Delimited (List.map digitChar) fun c => isdigit c = false ∧ c ≠ '*'.toUInt8 :=
    (Delimited.map digitChar_injective).mono fun c hc => ne_digitChar hc.1
  have hstar : ∀ ds c c' t t', isdigit c' = false ∧ c' ≠ '*'.toUInt8 →
      '*'.toUInt8 :: c :: t ≠ List.map digitChar ds ++ c' :: t' := by
    intro ds c c' t t' hc' h
    cases ds with
    | nil => exact hc'.2 (List.cons.inj h).1.symm
    | cons d ds => exact (digitChar_ne d).1 (List.cons.inj h).1.symm
  intro n n' c c' t t' hc hc' h
  cases n with
  | star =>
    cases n' with
    | star => exact ⟨rfl, List.cons.inj (List.cons.inj h).2⟩
    | digits ds => exact absurd h (hstar ds c c' t t' hc')
  | digits ds =>
    cases n' with
    | star => exact absurd h.symm (hstar ds c' c t' t hc)
    | digits ds' =>
      obtain ⟨rfl, hct⟩ := hdigits ds ds' c c' t t' hc hc' h
      exact ⟨rfl, hct⟩

/-- The character is behind the numbers of a directive. -/
def EndsNumbers (c : Byte) : Prop := isdigit c = false ∧ c ≠ '*'.toUInt8 ∧ c ≠ '.'.toUInt8

theorem delimited_precision : Delimited renderPrecision EndsNumbers := by
  intro p p' c c' t t' hc hc' h
  cases p with
  | none =>
    cases p' with
    | none => exact ⟨rfl, List.cons.inj h⟩
    | some n => exact absurd (List.cons.inj h).1 hc.2.2
  | some n =>
    cases p' with
    | none => exact absurd (List.cons.inj h).1.symm hc'.2.2
    | some n' =>
      obtain ⟨rfl, hct⟩ := delimited_number n n' c c' t t' ⟨hc.1, hc.2.1⟩ ⟨hc'.1, hc'.2.1⟩
        (List.cons.inj h).2
      exact ⟨rfl, hct⟩

theorem delimited_flags : Delimited (List.map Flag.char) Follows :=
  (Delimited.map flag_char_injective).mono fun c hc f hf => by
    have hset := hc.1 {}
    rw [hf, set_char] at hset
    cases hset

theorem head_of_letter (length : Length) (letter : Letter) (t : List Byte) : ∃ c rest,
    length.render ++ [letter.toByte] ++ t = c :: rest ∧ Follows c ∧ EndsNumbers c := by
  unfold EndsNumbers
  cases length with
  | none =>
    cases letter with
    | radix r => cases r <;> exact ⟨_, _, rfl, ⟨fun _ => rfl, by decide, by decide⟩, by decide⟩
    | _ => exact ⟨_, _, rfl, ⟨fun _ => rfl, by decide, by decide⟩, by decide⟩
  | _ => exact ⟨_, _, rfl, ⟨fun _ => rfl, by decide, by decide⟩, by decide⟩

theorem letters_prefixFree :
    PrefixFree fun p : Length × Letter => p.1.render ++ [p.2.toByte] :=
  delimited_length.append (.singleton letter_toByte_injective) fun letter t =>
    ⟨_, t, rfl, noLength_letter letter⟩

theorem behindWidth_prefixFree : PrefixFree fun p : Option Number × Length × Letter =>
    renderPrecision p.1 ++ (p.2.1.render ++ [p.2.2.toByte]) :=
  delimited_precision.append letters_prefixFree fun p t => by
    obtain ⟨c, rest, h, -, hc⟩ := head_of_letter p.1 p.2 t
    exact ⟨c, rest, h, hc⟩

theorem head_behindWidth (p : Option Number) (length : Length) (letter : Letter)
    (t : List Byte) : ∃ c rest,
    renderPrecision p ++ (length.render ++ [letter.toByte]) ++ t = c :: rest ∧ Follows c ∧
      isdigit c = false ∧ c ≠ '*'.toUInt8 := by
  obtain ⟨c, rest, h, hf, hd, hs, -⟩ := head_of_letter length letter t
  rw [List.append_assoc, h]
  exact head_of_precision p rest hf hd hs

theorem width_number_injective : Function.Injective Width.number := by
  rintro ⟨n, hn⟩ ⟨n', hn'⟩ rfl
  rfl

theorem body_prefixFree : PrefixFree Written.body := by
  have hnumber := delimited_number.comp width_number_injective
  have hwidth := hnumber.append behindWidth_prefixFree fun p t => by
    obtain ⟨c, rest, h, -, hc⟩ := head_behindWidth p.1 p.2.1 p.2.2 t
    exact ⟨c, rest, h, hc⟩
  have hflags := delimited_flags.append hwidth fun p t => by
    obtain ⟨c, rest, h, hf, -⟩ := head_behindWidth p.2.1 p.2.2.1 p.2.2.2 t
    rw [List.append_assoc, h]
    exact head_of_width p.1.number p.1.head rest hf
  refine hflags.comp
    (g := fun w : Written => (w.flags, w.width, w.precision, w.length, w.letter)) ?_
  rintro ⟨⟩ ⟨⟩ h
  cases h
  rfl

/-- The parts of a directive, one after the other. -/
theorem Written.parts {t format : List Byte} (w : Written) (h : w.body ++ t = c :: format) :
    ∃ c₁ rest₁ c₂ rest₂ c₃ rest₃, w.length.render ++ [w.letter.toByte] ++ t = c₃ :: rest₃ ∧
      renderPrecision w.precision ++ c₃ :: rest₃ = c₂ :: rest₂ ∧
      w.width.number.render ++ c₂ :: rest₂ = c₁ :: rest₁ ∧
      w.flags.map Flag.char ++ c₁ :: rest₁ = c :: format ∧ Follows c₁ ∧
      (isdigit c₂ = false ∧ c₂ ≠ '*'.toUInt8) ∧ EndsNumbers c₃ := by
  obtain ⟨c₃, rest₃, h3, hf3, hend⟩ := head_of_letter w.length w.letter t
  obtain ⟨c₂, rest₂, h2, hf2, hnumber⟩ :=
    head_of_precision w.precision rest₃ hf3 hend.1 hend.2.1
  obtain ⟨c₁, rest₁, h1, hf1⟩ := head_of_width w.width.number w.width_head rest₂ hf2
  refine ⟨c₁, rest₁, c₂, rest₂, c₃, rest₃, h3, h2, h1, ?_, hf1, hnumber, hend⟩
  rw [← h1, ← h2, ← h3, ← h, Written.body]
  simp only [List.append_assoc]

theorem Written.body_head {t format : List Byte} (w : Written) (h : w.body ++ t = c :: format) :
    c ≠ '%'.toUInt8 ∧ c ≠ 0 := by
  obtain ⟨c₁, rest₁, c₂, rest₂, c₃, rest₃, -, -, -, hflags, hf1, -⟩ := w.parts h
  exact head_of_flags w.flags hflags hf1

theorem Written.body_append_ne_cons (w : Written) (t t' : List Byte) :
    w.body ++ t ≠ '%'.toUInt8 :: t' := fun h => (w.body_head h).1 rfl

/-- **No token begins with another one.** -/
theorem Token.prefixFree : PrefixFree Token.render := by
  intro a a' t t' h
  cases a with
  | char c h0 hc =>
    cases a' with
    | char c' h0' hc' =>
      obtain ⟨rfl, ht⟩ := List.cons.inj h
      exact ⟨rfl, ht⟩
    | percent => exact absurd (List.cons.inj h).1 hc
    | directive w' => exact absurd (List.cons.inj h).1 hc
  | percent =>
    cases a' with
    | char c' h0' hc' => exact absurd (List.cons.inj h).1.symm hc'
    | percent => exact ⟨rfl, (List.cons.inj (List.cons.inj h).2).2⟩
    | directive w' => exact absurd (List.cons.inj h).2.symm (w'.body_append_ne_cons t' t)
  | directive w =>
    cases a' with
    | char c' h0' hc' => exact absurd (List.cons.inj h).1.symm hc'
    | percent => exact absurd (List.cons.inj h).2 (w.body_append_ne_cons t t')
    | directive w' =>
      obtain ⟨rfl, ht⟩ := body_prefixFree w w' t t' (List.cons.inj h).2
      exact ⟨rfl, ht⟩

/-- A token is no NUL. -/
theorem Token.render_ne_nul (token : Token) (t t' : List Byte) :
    token.render ++ t ≠ 0 :: t' := by
  intro h
  cases token with
  | char c h0 hc => exact h0 (List.cons.inj h).1
  | percent => cases (List.cons.inj h).1
  | directive w => cases (List.cons.inj h).1

/-- A format has one reading. -/
theorem Reads.unique {format : List Byte} {ts ts' : List Token} (h : Reads format ts)
    (h' : Reads format ts') : ts' = ts := by
  obtain ⟨t, ht⟩ := h
  obtain ⟨t', ht'⟩ := h'
  have hcode : Delimited (fun l : List Token => l.flatMap Token.render) fun c => c = 0 :=
    Token.prefixFree.flatMap fun c hc token t t' => hc ▸ token.render_ne_nul t t'
  exact (hcode ts' ts 0 0 t' t rfl rfl (ht'.trans ht.symm)).1

end Code

/-! ### Formats -/

/-- The characters of a conversion: its length and its letter. -/
def Conversion.letter : Conversion → Length × Letter
  | .integer length r => (length, .radix r)
  | .pointer => (.none, .pointer)
  | .char => (.none, .char)
  | .string => (.none, .string)
  | .dump => (.none, .dump)

theorem Conversion.letter_bare (conv : Conversion) :
    conv.letter.2 = .string ∨ conv.letter.2 = .dump → conv.letter.1 = .none := by
  cases conv with
  | integer length r => exact fun h => by rcases h with h | h <;> cases h
  | _ => exact fun _ => rfl

/-- A directive of a format. -/
def Spec.toWritten (s : Spec) : Written where
  flags := s.flags
  width := ⟨s.width, s.width_head⟩
  precision := s.precision
  length := s.conversion.letter.1
  letter := s.conversion.letter.2
  bare := s.conversion.letter_bare

theorem Spec.token_body (s : Spec) : s.toWritten.body = s.body := by
  have hconv : s.conversion.letter.1.render ++ [s.conversion.letter.2.toByte] =
      s.conversion.render := by
    cases s.conversion <;> rfl
  rw [Written.body, Spec.body, ← hconv]
  rfl

theorem Spec.token_spec (s : Spec) : s.toWritten.spec = s := by
  have hconv : s.conversion.letter.2.conversion s.conversion.letter.1 = s.conversion := by
    cases s.conversion <;> rfl
  obtain ⟨fs, width, precision, conv, hhead⟩ := s
  rw [Written.spec]
  dsimp only [Spec.toWritten] at hconv ⊢
  rw [hconv]

def Item.token : Item → Token
  | .char c h0 hc => .char c h0 hc
  | .percent => .percent
  | .directive s => .directive s.toWritten

theorem Item.render_token (item : Item) : item.token.render = item.render := by
  cases item with
  | directive s => exact congrArg ('%'.toUInt8 :: ·) s.token_body
  | _ => rfl

theorem Item.token_injective : Function.Injective Item.token := by
  intro item item' h
  cases item <;> cases item' <;> simp only [Item.token, Token.char.injEq, reduceCtorEq,
    Token.directive.injEq] at h
  · subst h
    rfl
  · rfl
  · rename_i s s'
    rw [← s.token_spec, ← s'.token_spec, h]

/-- A format is read as its items. -/
theorem Format.reads (format : Format) (t : List Byte) :
    Reads (format.render ++ 0 :: t) (format.map Item.token) := by
  refine ⟨t, ?_⟩
  rw [List.flatMap_map, Format.render]
  simp only [Item.render_token]

/-- **The text of a format determines it.** -/
theorem Format.render_injective : Function.Injective Format.render := by
  intro format format' h
  have hreads := format.reads []
  rw [h] at hreads
  exact (List.map_injective_iff.mpr Item.token_injective) ((format'.reads []).unique hreads)

end Noc.Printf
