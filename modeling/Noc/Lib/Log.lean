import Mathlib.Data.List.Infix
import Mathlib.Tactic.SplitIfs
import Mathlib.Tactic.Push

/-! # Logs of calls that write

A log is a list of calls, each with the text that it was given, of which some fail. `sent` is the
text up to the first call that fails, and `Writes` says that a log writes a text as far as its calls
succeed.

* `Writes.of_flatMap`, `Writes.of_failed`: a log with all of a text, and one with the beginning of a
  text and a failure.
* `Writes.append`: two logs, one after the other. -/

namespace Noc.Lib.Log

variable {α β : Type} {text : α → List β} {failed : α → Prop} [DecidablePred failed]
variable {log log' : List α} {t t' : List β}

/-- The text of the calls up to the first one that fails. -/
def sent (text : α → List β) (failed : α → Prop) [DecidablePred failed] : List α → List β
  | [] => []
  | a :: log => text a ++ if failed a then [] else sent text failed log

/-- The log writes the text as far as its calls succeed. -/
structure Writes (text : α → List β) (failed : α → Prop) [DecidablePred failed] (log : List α)
    (t : List β) : Prop where
  sent_prefix : sent text failed log <+: t
  all : (∀ a ∈ log, ¬ failed a) → log.flatMap text = t

theorem sent_prefix_flatMap (log : List α) : sent text failed log <+: log.flatMap text := by
  induction log with
  | nil => exact List.prefix_rfl
  | cons a log ih =>
    rw [sent, List.flatMap_cons, List.prefix_append_right_inj]
    split_ifs
    · exact List.nil_prefix
    · exact ih

theorem sent_append_of_failed (log' : List α) (h : ∃ a ∈ log, failed a) :
    sent text failed (log ++ log') = sent text failed log := by
  induction log with
  | nil => simp at h
  | cons a log ih =>
    rw [List.cons_append, sent, sent]
    by_cases hf : failed a
    · rw [if_pos hf, if_pos hf]
    · obtain ⟨b, hmem, hb⟩ := h
      rcases List.mem_cons.mp hmem with rfl | hmem
      · exact absurd hb hf
      · rw [if_neg hf, if_neg hf, ih ⟨b, hmem, hb⟩]

theorem sent_append (log' : List α) (h : ∀ a ∈ log, ¬ failed a) :
    sent text failed (log ++ log') = log.flatMap text ++ sent text failed log' := by
  induction log with
  | nil => rfl
  | cons a log ih =>
    obtain ⟨hf, h⟩ := List.forall_mem_cons.mp h
    rw [List.cons_append, sent, if_neg hf, ih h, List.flatMap_cons, List.append_assoc]

namespace Writes

theorem of_flatMap (h : log.flatMap text = t) : Writes text failed log t where
  sent_prefix := h ▸ sent_prefix_flatMap log
  all _ := h

/-- Behind a call that fails, nothing counts. -/
theorem of_failed (hf : ∃ a ∈ log, failed a) (h : log.flatMap text <+: t) (log' : List α) :
    Writes text failed (log ++ log') t where
  sent_prefix := by
    rw [sent_append_of_failed log' hf]
    exact (sent_prefix_flatMap log).trans h
  all hall := by
    obtain ⟨a, hmem, hf⟩ := hf
    exact absurd hf (hall a (List.mem_append_left _ hmem))

theorem append (h : Writes text failed log t) (h' : Writes text failed log' t') :
    Writes text failed (log ++ log') (t ++ t') := by
  by_cases hf : ∃ a ∈ log, failed a
  · refine ⟨?_, fun hall => ?_⟩
    · rw [sent_append_of_failed log' hf]
      exact h.sent_prefix.trans (List.prefix_append _ _)
    · obtain ⟨a, hmem, hf⟩ := hf
      exact absurd hf (hall a (List.mem_append_left _ hmem))
  · push Not at hf
    have ht := h.all hf
    refine ⟨?_, fun hall => ?_⟩
    · rw [sent_append log' hf, ht, List.prefix_append_right_inj]
      exact h'.sent_prefix
    · rw [List.flatMap_append, ht, h'.all fun a hmem => hall a (List.mem_append_right _ hmem)]

end Writes

end Noc.Lib.Log
