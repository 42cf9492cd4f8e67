import Noc.Printf.Args
import Noc.Printf.Run

/-! # Formats one after the other

Nothing is carried over from one directive to the next but the place in the format and the unread
arguments.

* `Run.append`: a run over a format that it gets through, with arguments that it uses up, is
  followed by the run over the next format on the next arguments.
* `formatter_append`: so the formatter on both formats emits what it emits on each, and returns the
  sum of the counts. -/

namespace Noc.Printf

open Noc.Lib.Output Noc.Lib.Output.Emission Noc.Targets

/-! ### Runs -/

section Run
variable {ν : Type} {T : Target} {va : VaArg ν} {good : ν → Prop} {more : ν → ν}
variable {args rest : ν} {text text' : List Byte} {o : Outcome ν}

/-- The last byte of a list that goes on behind a prefix. -/
theorem exists_of_append_singleton {p rest f : List Byte} {b : Byte} (h : p ++ rest = f ++ [b])
    (hrest : rest ≠ []) : ∃ r, rest = r ++ [b] ∧ f = p ++ r := by
  rcases List.eq_nil_or_concat rest with rfl | ⟨r, b', rfl⟩
  · exact absurd rfl hrest
  · rw [List.concat_eq_append, ← List.append_assoc] at h
    obtain ⟨h1, h2⟩ := List.append_inj' h rfl
    cases h2
    exact ⟨r, List.concat_eq_append, h1.symm⟩

/-- **A run is followed by the next run.** The NUL that ends the first format is its only one, so
the induction is on the run, with the part of the format that is ahead. -/
theorem Run.append (hva : Extends va good more) {g : List Byte} (hgood : good rest)
    (hg : Run T va g (more rest) text' o) :
    ∀ {f : List Byte} {args : ν} {text : List Byte}, (0 : Byte) ∉ f →
      Run T va (f ++ [0]) args text (.whole rest) →
      good args ∧ Run T va (f ++ g) (more args) (text ++ text') o := by
  intro f args text hf h
  generalize hformat : f ++ [0] = format at h
  generalize ho : Outcome.whole rest = o₁ at h
  induction h generalizing f with
  | @nul tail args =>
    cases ho
    cases f with
    | nil => exact ⟨hgood, hg⟩
    | cons c f =>
      cases hformat
      exact absurd List.mem_cons_self hf
  | @char c tail args text o₁ h0 hc _ ih =>
    cases f with
    | nil =>
      cases hformat
      exact absurd rfl h0
    | cons c f =>
      cases hformat
      obtain ⟨h1, h2⟩ := ih (fun h => hf (List.mem_cons_of_mem _ h)) rfl ho
      exact ⟨h1, .char h0 hc h2⟩
  | @percent tail args text o₁ _ ih =>
    rcases f with _ | ⟨c, _ | ⟨c', f⟩⟩
    · cases hformat
    · cases hformat
    · cases hformat
      obtain ⟨h1, h2⟩ :=
        ih (fun h => hf (List.mem_cons_of_mem _ (List.mem_cons_of_mem _ h))) rfl ho
      exact ⟨h1, .percent h2⟩
  | @directive c format args d tail args' text₁ text₂ o₁ hc h0 hd hconv hrun ih =>
    rcases f with _ | ⟨c₁, _ | ⟨c₂, f⟩⟩
    · cases hformat
    · cases hformat
      exact absurd rfl h0
    · cases hformat
      obtain ⟨p, hp, hparse⟩ := parse_prefix hd
      obtain ⟨f', rfl, rfl⟩ := exists_of_append_singleton hp.symm hrun.ne_nil
      have hf' : (0 : Byte) ∉ f' := fun h =>
        hf (List.mem_cons_of_mem _ (List.mem_cons_of_mem _ (List.mem_append_right p h)))
      obtain ⟨h1, h2⟩ := ih hf' rfl ho
      obtain ⟨h3, h4⟩ := parse_extends hva (hparse (f' ++ g)) h1
      rw [List.append_assoc]
      refine ⟨h3, ?_⟩
      rw [List.cons_append, List.cons_append, List.append_assoc]
      exact .directive hc h0 h4 hconv h2
  | truncated => cases ho
  | error => cases ho
  | eof => cases ho
  | fault => cases ho

end Run

/-! ### The formatter -/

section Formatter
variable {ν σ : Type} {T : Target} {va : VaArg ν} {write : Byte → σ → Bool × σ}
variable {s s₁ : σ} {args : ν} {text : List Byte}

/-- The formatter on a text with a first part that the sink has accepted. -/
theorem formatter_of_append {format format' : Ptr} {args' : ν}
    (h0 : format.addr ≠ 0) (h0' : format'.addr ≠ 0)
    (hfirst : deliver write text 0 s = (true, text.length, s₁))
    (happ : formatted T va format'.bytes args' =
      ⟨text ++ (formatted T va format.bytes args).text, (formatted T va format.bytes args).ending⟩)
    (hcount : text.length + (formatted T va format.bytes args).text.length ≤ intMax) :
    formatter T va write s format' args' =
      (formatter T va write s₁ format args).map
        fun r => (if r.1 < 0 then EOF else text.length + r.1, r.2) := by
  have hle := deliver_count_le write (formatted T va format.bytes args).text 0 s₁
  have hadd := deliver_add write (formatted T va format.bytes args).text text.length 0 s₁
  rw [Nat.add_zero] at hadd
  unfold formatter
  rw [if_neg h0, if_neg h0', happ]
  dsimp only
  rw [deliver_append, hfirst]
  dsimp only
  rw [if_pos rfl, hadd]
  rcases hd : deliver write (formatted T va format.bytes args).text 0 s₁ with
    ⟨accepted, count, s₂⟩
  rw [hd] at hle
  dsimp only at hle ⊢
  have hsum : ¬ intMax < text.length + count := by omega
  have hsecond : ¬ intMax < count := by omega
  cases accepted with
  | false =>
    rw [if_neg Bool.false_ne_true, if_neg Bool.false_ne_true, if_neg hsum, if_neg hsecond]
    rfl
  | true =>
    rw [if_pos rfl, if_pos rfl]
    rcases (formatted T va format.bytes args).ending with ⟨⟩ | _ | f
    · dsimp only
      rw [if_neg hsum, if_neg hsecond]
      simp [Except.map, Int.not_lt.mpr (Int.natCast_nonneg count)]
    · dsimp only
      rw [if_neg hsum, if_neg hsecond]
      rfl
    · rfl

end Formatter

/-- **The formatter on two formats one after the other**: for every format `f` that it gets through,
with arguments `A` of the right sizes that it uses up, and every format `g` with arguments `B`. It
emits what it emits on `f` and then what it emits on `g`, ends like the latter, and, for every sink,
returns the sum of the counts or `EOF`. -/
theorem formatter_append (T : Target) {f text : List Byte} {A : List Arg} (hf : (0 : Byte) ∉ f)
    (hrun : Run T (argList T) (f ++ [0]) (.start A) text (.whole (.start [])))
    (g : List Byte) (B : List Arg) :
    (formatted T (argList T) (f ++ (g ++ [0])) (.start (A ++ B)) =
      ⟨(formatted T (argList T) (f ++ [0]) (.start A)).text ++
          (formatted T (argList T) (g ++ [0]) (.start B)).text,
        (formatted T (argList T) (g ++ [0]) (.start B)).ending⟩) ∧
    ∀ {σ : Type} (write : Byte → σ → Bool × σ) (s s₁ : σ) (addr addr' : ℕ) (m : ℤ),
      formatter T (argList T) write s ⟨addr, f ++ [0]⟩ (.start A) = .ok (m, s₁) → 0 ≤ m →
      addr' ≠ 0 →
      text.length + (formatted T (argList T) (g ++ [0]) (.start B)).text.length ≤ intMax →
      formatter T (argList T) write s ⟨addr, f ++ (g ++ [0])⟩ (.start (A ++ B)) =
        (formatter T (argList T) write s₁ ⟨addr', g ++ [0]⟩ (.start B)).map
          fun r => (if r.1 < 0 then EOF else m + r.1, r.2) := by
  have hzero : (0 : Byte) ∈ g ++ [0] := List.mem_append_right g (List.mem_singleton.mpr rfl)
  obtain ⟨text', o, hg⟩ := exists_run T (argList T) (.start B) le_rfl hzero
  have hboth := (Run.append (argList_extends T B) rfl hg hf hrun).2.formatted_eq
  have hfirst := hrun.formatted_eq
  have hsecond := hg.formatted_eq
  have happ : formatted T (argList T) (f ++ (g ++ [0])) (.start (A ++ B)) =
      ⟨text ++ (formatted T (argList T) (g ++ [0]) (.start B)).text,
        (formatted T (argList T) (g ++ [0]) (.start B)).ending⟩ := by
    rw [hsecond]
    refine Eq.trans hboth ?_
    cases o <;> simp [Outcome.emission]
  refine ⟨?_, ?_⟩
  · rw [hfirst]
    exact happ
  · intro σ write s s₁ addr addr' m hok hm haddr' hcount
    obtain ⟨haddr, -, hd, -, rfl⟩ := formatter_of_nonneg hok hm
    rw [hfirst] at hd ⊢
    exact formatter_of_append haddr' haddr hd happ hcount

theorem formatter_append_number :
    (formatted .riscv32 (argList .riscv32) ("%*d,".toList.map Char.toUInt8 ++
        ("%x".toList.map Char.toUInt8 ++ [0])) (.start [.word32 4, .word32 42, .word32 255])).text =
      "  42,ff".toList.map Char.toUInt8 ∧
    formatter .riscv32 (argList .riscv32) (fun _ n => (true, n + 1)) 0
        ⟨1, "%*d,".toList.map Char.toUInt8 ++ ("%x".toList.map Char.toUInt8 ++ [0])⟩
        (.start [.word32 4, .word32 42, .word32 255]) = .ok (7, 7) := by
  have h := formatter_append .riscv32 (f := "%*d,".toList.map Char.toUInt8)
    (A := [.word32 4, .word32 42]) (by decide)
    (.directive (by decide) (by decide) rfl rfl (.char (by decide) (by decide) .nul))
    ("%x".toList.map Char.toUInt8) [.word32 255]
  refine ⟨congrArg Emission.text h.1, ?_⟩
  exact h.2 (fun _ n => (true, n + 1)) 0 5 1 1 5 rfl (by decide) (by decide) (by decide)

end Noc.Printf
