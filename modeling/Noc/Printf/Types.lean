import Noc.Printf.Args
import Noc.Printf.Run
import Noc.Printf.Syntax
import Mathlib.Data.List.Forall2

/-! # The types of the arguments

C prescribes the types of the arguments of a format (`Spec.argTypes`). With such arguments, the
formatter asks for every one with its own size, so that it reads the arguments one after the other,
on a target where a `long` has 64 bits; with a `long` of 32 bits it asks for 64 bits for the
modifier `l`.

* `Spec.read_args`: the arguments that one directive takes.
* `run_args`: those of a run, by induction on the format.
* `formatter_args_iff`: all arguments are read with their sizes exactly if there is no such `l`. -/

namespace Noc.Printf

open Noc.Targets

variable {T : Target}

/-- The types of arguments, signed or unsigned. -/
inductive CType where
  | int
  | long
  | longLong
  | size
  | ptrdiff
  | intmax
  | pointer
deriving DecidableEq

/-- `sizeof`: the data models are ILP32 and LP64. -/
def CType.sizeof (T : Target) : CType → ℕ
  | .int => 4
  | .long => T.ptrBytes
  | .longLong => 8
  | .size => T.ptrBytes
  | .ptrdiff => T.ptrBytes
  | .intmax => 8
  | .pointer => T.ptrBytes

/-- The argument is an object of the type. -/
def Arg.HasType (T : Target) (a : Arg) (t : CType) : Prop :=
  match a with
  | .word32 _ => t ≠ .pointer ∧ t.sizeof T = 4
  | .word64 _ => t ≠ .pointer ∧ t.sizeof T = 8
  | .pointer _ => t = .pointer

theorem Arg.HasType.size_eq {a : Arg} {t : CType} (h : a.HasType T t) : a.size T = t.sizeof T := by
  cases a with
  | word32 w => exact h.2.symm
  | word64 w => exact h.2.symm
  | pointer p =>
    rw [show t = .pointer from h]
    rfl

/-! ### What C prescribes -/

/-- The type of an integer with the length modifier. -/
def Length.argType : Length → CType
  | .none | .hh | .h => .int
  | .l => .long
  | .ll => .longLong
  | .z => .size
  | .t => .ptrdiff
  | .j => .intmax

def Number.argTypes : Number → List CType
  | .star => [.int]
  | .digits _ => []

def precisionTypes : Option Number → List CType
  | none => []
  | some n => n.argTypes

def Conversion.argType : Conversion → CType
  | .integer length _ => length.argType
  | .char => .int
  | .pointer | .string | .dump => .pointer

/-- The arguments of a directive. -/
def Spec.argTypes (s : Spec) : List CType :=
  s.width.argTypes ++ (precisionTypes s.precision ++ [s.conversion.argType])

def Item.argTypes : Item → List CType
  | .directive s => s.argTypes
  | _ => []

/-- The arguments of a format. -/
def Format.argTypes (format : Format) : List CType := format.flatMap Item.argTypes

/-- A list of arguments with the types. -/
def Typed (T : Target) (args : List Arg) (types : List CType) : Prop :=
  List.Forall₂ (Arg.HasType T) args types

theorem Typed.split {args : List Arg} {types types' : List CType}
    (h : Typed T args (types ++ types')) :
    ∃ args₁ args₂, args = args₁ ++ args₂ ∧ Typed T args₁ types ∧ Typed T args₂ types' :=
  ⟨_, _, (List.take_append_drop _ args).symm, List.forall₂_take_append args types types' h,
    List.forall₂_drop_append args types types' h⟩

/-! ### What the formatter reads -/

/-- The size of the object that the formatter asks for. -/
def Length.asks (T : Target) : Length → ℕ
  | .none | .hh | .h => 4
  | .l | .ll | .j => 8
  | .z | .t => T.ptrBytes

def Conversion.asks (T : Target) : Conversion → ℕ
  | .integer length _ => length.asks T
  | .char => 4
  | .pointer | .string | .dump => T.ptrBytes

/-- The conversion has the length modifier `l`. -/
def Conversion.isLong : Conversion → Bool
  | .integer .l _ => true
  | _ => false

theorem Length.asks_eq_sizeof_iff (length : Length) :
    length.argType.sizeof T = length.asks T ↔ (length = .l → T.ptrBytes = 8) := by
  cases length with
  | l => exact ⟨fun h _ => h, fun h => h rfl⟩
  | _ => exact iff_of_true rfl (by rintro ⟨⟩)

theorem isLong_integer (length : Length) (radix : Radix) :
    (Conversion.integer length radix).isLong ↔ length = .l := by
  cases length with
  | l => exact iff_of_true rfl rfl
  | _ => exact iff_of_false Bool.false_ne_true (by rintro ⟨⟩)

/-- **The size is the right one** but for a `long` of 32 bits. -/
theorem asks_eq_sizeof_iff (conv : Conversion) :
    conv.argType.sizeof T = conv.asks T ↔ T.ptrBytes = 8 ∨ ¬ conv.isLong := by
  cases conv with
  | integer length radix =>
    rw [isLong_integer, or_comm, ← imp_iff_not_or]
    exact length.asks_eq_sizeof_iff
  | _ => exact iff_of_true rfl (Or.inr Bool.false_ne_true)

theorem number_read_args (n : Number) {args : List Arg} (h : Typed T args n.argTypes)
    (rest : List Arg) (m : Bool) : (n.read (argList T) ⟨args ++ rest, m⟩).2 = ⟨rest, m⟩ := by
  cases n with
  | star =>
    rcases h with _ | ⟨ha, _ | _⟩
    have hsize := ha.size_eq
    simp [Number.read, argList, Unread.ask, hsize, CType.sizeof]
  | digits ds =>
    cases h
    rfl

theorem precision_read_args (p : Option Number) {args : List Arg}
    (h : Typed T args (precisionTypes p)) (rest : List Arg) (m : Bool) :
    (readPrecision (argList T) p ⟨args ++ rest, m⟩).2 = ⟨rest, m⟩ := by
  cases p with
  | none =>
    cases h
    rfl
  | some n => exact number_read_args n h rest m

theorem integerArg_args (flags : Flags) (u : Unread) :
    (integerArg (argList T) flags u).2 = (u.ask T (if flags.bit64 then 8 else 4)).2 := by
  unfold integerArg
  split_ifs <;> rfl

theorem Length.asks_eq (length : Length) {flags : Flags} (h : flags.bit64 = false) :
    (if (length.apply T flags).bit64 then 8 else 4) = length.asks T := by
  have hptr : (if (if T.ptrBytes = 8 then { flags with bit64 := true } else flags).bit64
      then 8 else 4) = T.ptrBytes := by
    rcases T.ptr_cases with hp | hp <;> simp [hp, h]
  cases length with
  | z => exact hptr
  | t => exact hptr
  | l => rfl
  | ll => rfl
  | j => rfl
  | _ => exact if_neg (by rw [Bool.not_eq_true]; exact h)

theorem conversion_read_args (conv : Conversion) {flags : Flags} (h : flags.bit64 = false)
    (u : Unread) :
    (conv.read (argList T) (conv.apply T flags) u).2 = (u.ask T (conv.asks T)).2 := by
  cases conv with
  | integer length radix =>
    show (integerArg (argList T) (length.apply T flags) u).2 = _
    rw [integerArg_args, length.asks_eq h]
    rfl
  | pointer =>
    show (integerArg (argList T) _ u).2 = _
    rw [integerArg_args]
    exact congrArg (fun k => (u.ask T k).2) (Length.asks_eq .z h)
  | char => rfl
  | string => rfl
  | dump => rfl

/-- **The numbers of a directive** and the arguments behind them. -/
theorem Spec.numbers_args (s : Spec) {args₁ args₂ : List Arg} (h₁ : Typed T args₁ s.width.argTypes)
    (h₂ : Typed T args₂ (precisionTypes s.precision)) (rest : List Arg) (m : Bool) :
    (s.numbers (argList T) ⟨args₁ ++ (args₂ ++ rest), m⟩).2.2 = ⟨rest, m⟩ := by
  unfold Spec.numbers
  dsimp only
  rw [number_read_args s.width h₁, precision_read_args s.precision h₂]

/-- **The arguments of a directive.** -/
theorem Spec.read_args (s : Spec) {args : List Arg} (h : Typed T args s.argTypes) (rest : List Arg)
    (m : Bool) : (s.read T (argList T) ⟨args ++ rest, m⟩).2 =
      ⟨rest, m && (T.ptrBytes = 8 ∨ ¬ s.conversion.isLong)⟩ := by
  obtain ⟨args₁, args', rfl, h₁, h'⟩ := Typed.split h
  obtain ⟨args₂, args₃, rfl, h₂, h₃⟩ := Typed.split h'
  rcases h₃ with _ | ⟨ha, _ | _⟩
  rename_i a
  have hsize : (a.size T = s.conversion.asks T) ↔ (T.ptrBytes = 8 ∨ ¬ s.conversion.isLong) := by
    rw [ha.size_eq, asks_eq_sizeof_iff]
  rw [List.append_assoc, List.append_assoc]
  show (s.conversion.read (argList T) (s.conversion.apply T s.setFlags)
    (s.numbers (argList T) _).2.2).2 = _
  rw [s.numbers_args h₁ h₂, conversion_read_args s.conversion s.setFlags_sizes.1]
  simp only [List.singleton_append, Unread.ask, hsize]

/-! ### The run -/

/-- The directives that the formatter gets to, and whose width and precision are not too big. -/
def reached (T : Target) : Format → Unread → List Spec
  | [], _ => []
  | .directive s :: format, args =>
    if s.TooBig (argList T) args then []
    else
      let (d, args) := s.read T (argList T) args
      s :: if (convert T d).ending = .value true then reached T format args else []
  | _ :: format, args => reached T format args

/-- A run that comes out with the right sizes had them at the beginning. -/
theorem Run.matched {format : List Byte} {args : Unread} {text : List Byte} {o : Outcome Unread}
    (h : Run T (argList T) format args text o) (hm : o.unread.matched) : args.matched := by
  induction h with
  | nul => exact hm
  | truncated => exact hm
  | char _ _ _ ih => exact ih hm
  | percent _ ih => exact ih hm
  | directive _ _ hd _ _ ih => exact (parse_extends (argList_extends T []) hd (ih hm)).1
  | error _ _ hd _ => exact (parse_extends (argList_extends T []) hd hm).1
  | eof _ _ hd _ => exact (parse_extends (argList_extends T []) hd hm).1
  | fault _ _ hd _ => exact (parse_extends (argList_extends T []) hd hm).1

/-- A run that begins with a directive: it ends there, or it goes on with the arguments behind. -/
theorem Spec.run_args (s : Spec) {args rest : List Arg} (hargs : Typed T args s.argTypes)
    {t text : List Byte} {o : Outcome Unread}
    (h : Run T (argList T) ('%'.toUInt8 :: (s.body ++ t)) ⟨args ++ rest, true⟩ text o)
    (ht : t ≠ []) :
    (s.TooBig (argList T) ⟨args ++ rest, true⟩ ∧ o.unread.matched ∧ ∀ left, o ≠ .whole left) ∨
    (¬ s.TooBig (argList T) ⟨args ++ rest, true⟩ ∧
      ((∃ text', (convert T (s.read T (argList T) ⟨args ++ rest, true⟩).1).ending = .value true ∧
          Run T (argList T) t ⟨rest, T.ptrBytes = 8 ∨ ¬ s.conversion.isLong⟩ text' o) ∨
        ((convert T (s.read T (argList T) ⟨args ++ rest, true⟩).1).ending ≠ .value true ∧
          o.unread = ⟨rest, T.ptrBytes = 8 ∨ ¬ s.conversion.isLong⟩ ∧
          ∀ left, o ≠ .whole left))) := by
  rcases hbody : s.body ++ t with _ | ⟨c, tail⟩
  · exact absurd (List.append_eq_nil_iff.mp hbody).2 ht
  obtain ⟨hc, h0⟩ := s.body_head hbody
  rw [hbody] at h
  by_cases hbig : s.TooBig (argList T) ⟨args ++ rest, true⟩
  · obtain ⟨d, tail', hparse, hd⟩ := parse_render_error (T := T) s hbody hbig
    rcases h.of_directive hc h0 hparse with ⟨_, _, hconv, -⟩ | ⟨-, hun, hwhole⟩
    · rw [convert, hd] at hconv
      cases hconv
    · obtain ⟨args₁, args', rfl, h₁, h'⟩ := Typed.split hargs
      obtain ⟨args₂, args₃, rfl, h₂, -⟩ := Typed.split h'
      refine Or.inl ⟨hbig, ?_, hwhole⟩
      rw [hun, List.append_assoc, List.append_assoc, s.numbers_args h₁ h₂]
  · have hparse := parse_render (T := T) s hbody hbig
    rw [s.read_args hargs, Bool.true_and] at hparse
    refine Or.inr ⟨hbig, ?_⟩
    rcases h.of_directive hc h0 hparse with ⟨_, text', hconv, -, hrun⟩ | hend
    · exact Or.inl ⟨text', congrArg _ hconv, hrun⟩
    · exact Or.inr hend

/-- **The arguments of a run.** The induction is on the format, with the arguments of its first item
in front of the others. -/
theorem run_args (format : Format) {args : List Arg} (rest : List Arg)
    (hargs : Typed T args format.argTypes) {text : List Byte} {o : Outcome Unread}
    (h : Run T (argList T) (format.render ++ [0]) ⟨args ++ rest, true⟩ text o) :
    (o.unread.matched ↔ T.ptrBytes = 8 ∨
      ∀ s ∈ reached T format ⟨args ++ rest, true⟩, ¬ s.conversion.isLong) ∧
    ∀ left, o = .whole left → left.matched → left.args = rest := by
  induction format generalizing args text with
  | nil =>
    cases hargs
    cases h with
    | nul => exact ⟨iff_of_true rfl (Or.inr fun s hs => by cases hs), fun _ h _ => by cases h; rfl⟩
    | char h0 => exact absurd rfl h0
  | cons item format ih =>
    obtain ⟨args₁, args₂, rfl, h₁, h₂⟩ := Typed.split hargs
    cases item with
    | char c h0 hc =>
      cases h₁
      obtain ⟨text', rfl, hrun⟩ := Run.of_char h h0 hc
      exact ih h₂ hrun
    | percent =>
      cases h₁
      obtain ⟨text', rfl, hrun⟩ := Run.of_percent h
      exact ih h₂ hrun
    | directive s =>
      have hrender : Format.render (.directive s :: format) ++ [0] =
          '%'.toUInt8 :: (s.body ++ (Format.render format ++ [0])) := by
        rw [← List.append_assoc]
        rfl
      rw [hrender] at h
      rw [List.append_assoc] at h ⊢
      rw [reached]
      rcases s.run_args h₁ h (by simp) with ⟨hbig, hm, hwhole⟩ | ⟨hbig, hread⟩
      · rw [if_pos hbig]
        exact ⟨iff_of_true hm (Or.inr fun s hs => by cases hs),
          fun left h => absurd h (hwhole left)⟩
      rw [if_neg hbig]
      dsimp only
      rw [s.read_args h₁, Bool.true_and]
      by_cases hlong : T.ptrBytes = 8 ∨ ¬ s.conversion.isLong
      · rw [decide_eq_true hlong] at hread ⊢
        rcases hread with ⟨text', hconv, hrun⟩ | ⟨hconv, hun, hwhole⟩
        · obtain ⟨hmatched, hleft⟩ := ih h₂ hrun
          rw [if_pos hconv, hmatched, List.forall_mem_cons]
          exact ⟨by tauto, hleft⟩
        · rw [if_neg hconv, hun, List.forall_mem_singleton]
          exact ⟨iff_of_true rfl hlong, fun left h => absurd h (hwhole left)⟩
      · have hm : ¬ o.unread.matched := by
          rw [decide_eq_false hlong] at hread
          rcases hread with ⟨text', -, hrun⟩ | ⟨-, hun, -⟩
          · exact fun hm => Bool.false_ne_true (hrun.matched hm)
          · rw [hun]
            exact Bool.false_ne_true
        refine ⟨iff_of_false hm fun h => ?_, fun left h hleft => absurd (h ▸ hleft) hm⟩
        exact hlong (h.imp_right fun h => h s List.mem_cons_self)

/-- What the formatter gets to in the first part of a format. -/
theorem reached_append {format format' : Format} {args : Unread} {s : Spec}
    (h : s ∈ reached T format args) : s ∈ reached T (format ++ format') args := by
  induction format generalizing args with
  | nil => cases h
  | cons item format ih =>
    cases item with
    | char => exact ih h
    | percent => exact ih h
    | directive s' =>
      rw [List.cons_append]
      rw [reached] at h ⊢
      by_cases hbig : s'.TooBig (argList T) args
      · rw [if_pos hbig] at h
        cases h
      rw [if_neg hbig] at h ⊢
      rcases List.mem_cons.mp h with rfl | h
      · exact List.mem_cons_self
      · refine List.mem_cons_of_mem _ ?_
        split_ifs at h ⊢
        · exact ih h
        · cases h

/-- The formatter reads the arguments one after the other: every `va_arg` asks for the size that its
argument has, and behind every part of the format exactly the arguments of the rest are left. -/
structure InStep (T : Target) (format : Format) (args : List Arg) : Prop where
  sizes : ∀ text o, Run T (argList T) (format.render ++ [0]) (.start args) text o → o.unread.matched
  left : ∀ format₁ format₂ args₁ args₂, format = format₁ ++ format₂ → args = args₁ ++ args₂ →
    Typed T args₁ format₁.argTypes → ∀ text rest,
    Run T (argList T) (format₁.render ++ [0]) (.start args) text (.whole rest) → rest = .start args₂

/-- **When all arguments are read with their sizes**: for every format of directives, and arguments
of the types that C prescribes, exactly where a `long` has 64 bits, or if the formatter gets to no
directive with the modifier `l`. -/
theorem formatter_args_iff (T : Target) (format : Format) {args : List Arg}
    (hargs : Typed T args format.argTypes) : InStep T format args ↔
      T.ptrBytes = 8 ∨ ∀ s ∈ reached T format (.start args), ¬ s.conversion.isLong := by
  have hall : ∀ {text : List Byte} {o : Outcome Unread},
      Run T (argList T) (format.render ++ [0]) (.start args) text o → (o.unread.matched ↔
        T.ptrBytes = 8 ∨ ∀ s ∈ reached T format (.start args), ¬ s.conversion.isLong) := by
    intro text o h
    have hrun := run_args format [] hargs (by rwa [List.append_nil])
    rw [List.append_nil] at hrun
    exact hrun.1
  constructor
  · intro h
    obtain ⟨text, o, hrun⟩ := exists_run T (argList T) (.start args) le_rfl
      (List.mem_append_right format.render (List.mem_singleton.mpr rfl))
    exact (hall hrun).mp (h.sizes text o hrun)
  · intro hsafe
    refine ⟨fun text o h => (hall h).mpr hsafe, ?_⟩
    rintro format₁ format₂ args₁ args₂ rfl rfl hargs₁ text rest h
    obtain ⟨hmatched, hleft⟩ := run_args format₁ args₂ hargs₁ h
    have hm : rest.matched :=
      hmatched.mpr (hsafe.imp_right fun h s hs => h s (reached_append hs))
    exact congrArg₂ Unread.mk (hleft rest rfl hm) hm

/-- A directive with a conversion only. -/
def Spec.plain (conversion : Conversion) : Spec where
  flags := []
  width := .digits []
  precision := none
  conversion := conversion
  width_head := by
    rintro ds ⟨⟩
    decide

theorem formatter_args_iff_sizes : InStep .riscv32
    [.directive (.plain (.integer .ll .d)), .percent, .directive (.plain (.integer .z .u))]
    [.word64 (-1), .word32 7] := by
  have hargs : Typed .riscv32 [.word64 (-1), .word32 7] [.longLong, .size] :=
    .cons ⟨by decide, rfl⟩ (.cons ⟨by decide, rfl⟩ .nil)
  exact (formatter_args_iff .riscv32 _ hargs).mpr (by decide)

/-- A `long` of 32 bits is read together with the argument behind it. -/
theorem formatter_args_long : Typed .riscv32 [.word32 1, .word32 2] [.long, .int] ∧
    ¬ InStep .riscv32
      [.directive (.plain (.integer .l .d)), .directive (.plain (.integer .none .d))]
      [.word32 1, .word32 2] := by
  refine ⟨.cons ⟨by decide, rfl⟩ (.cons ⟨by decide, rfl⟩ .nil), fun h => ?_⟩
  obtain ⟨text, hrun⟩ : ∃ text, Run .riscv32 (argList .riscv32)
      ("%ld%d".toList.map Char.toUInt8 ++ [0]) (.start [.word32 1, .word32 2]) text
      (.whole ⟨[], false⟩) :=
    ⟨_, .directive (by decide) (by decide) rfl rfl
      (.directive (by decide) (by decide) rfl rfl .nul)⟩
  exact Bool.false_ne_true (h.sizes text _ hrun)

end Noc.Printf
