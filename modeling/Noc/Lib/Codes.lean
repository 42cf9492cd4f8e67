import Mathlib.Data.List.Basic

/-! # Codes

A code writes each value as a word. `PrefixFree`: a word ends by itself, so that nothing that stands
behind it can be taken for a part of it. `Delimited enc next`: a word ends where a letter of `next`
stands.

* `Delimited.append`: one word behind another, if the second begins as the first demands.
* `PrefixFree.flatMap`: a text of words that end by themselves has one reading.
* `Delimited.map`: letters of one class end at the first letter that is not in it. -/

namespace Noc.Lib.Codes

variable {α α' β : Type}

/-- No word, with something behind it, begins with another one. -/
def PrefixFree (enc : α → List β) : Prop :=
  ∀ a a' t t', enc a ++ t = enc a' ++ t' → a = a' ∧ t = t'

/-- No word with a letter of `next` behind it begins with another one. -/
def Delimited (enc : α → List β) (next : β → Prop) : Prop :=
  ∀ a a' c c' t t', next c → next c' → enc a ++ c :: t = enc a' ++ c' :: t' →
    a = a' ∧ c = c' ∧ t = t'

variable {enc : α → List β} {enc' : α' → List β} {next next' : β → Prop}

/-- Fewer letters behind a word. -/
theorem Delimited.mono (h : Delimited enc next) (hnext : ∀ c, next' c → next c) :
    Delimited enc next' := fun a a' c c' t t' hc hc' =>
  h a a' c c' t t' (hnext c hc) (hnext c' hc')

/-- Some of the words, under other names. -/
theorem Delimited.comp {g : α' → α} (h : Delimited enc next) (hg : Function.Injective g) :
    Delimited (fun a => enc (g a)) next := by
  intro a a' c c' t t' hc hc' heq
  obtain ⟨ha, hct⟩ := h (g a) (g a') c c' t t' hc hc' heq
  exact ⟨hg ha, hct⟩

/-- A letter. -/
theorem PrefixFree.singleton {f : α → β} (hf : Function.Injective f) :
    PrefixFree fun a => [f a] := by
  intro a a' t t' h
  obtain ⟨ha, ht⟩ := List.cons.inj h
  exact ⟨hf ha, ht⟩

theorem PrefixFree.comp {g : α' → α} (h : PrefixFree enc) (hg : Function.Injective g) :
    PrefixFree fun a => enc (g a) := by
  intro a a' t t' heq
  obtain ⟨ha, ht⟩ := h (g a) (g a') t t' heq
  exact ⟨hg ha, ht⟩

/-- **Two words**: the second ends by itself, and begins with a letter that ends the first. -/
theorem Delimited.append (h : Delimited enc next) (h' : PrefixFree enc')
    (hhead : ∀ b t, ∃ c u, enc' b ++ t = c :: u ∧ next c) :
    PrefixFree fun p : α × α' => enc p.1 ++ enc' p.2 := by
  rintro ⟨a, b⟩ ⟨a', b'⟩ t t' heq
  rw [List.append_assoc, List.append_assoc] at heq
  obtain ⟨c, u, hu, hc⟩ := hhead b t
  obtain ⟨c', u', hu', hc'⟩ := hhead b' t'
  dsimp only at heq
  rw [hu, hu'] at heq
  obtain ⟨rfl, rfl, rfl⟩ := h a a' c c' u u' hc hc' heq
  obtain ⟨rfl, ht⟩ := h' b b' t t' (hu.trans hu'.symm)
  exact ⟨rfl, ht⟩

/-- **One reading**: a text of words that end by themselves is read in one way only, if a letter
that begins no word stands behind it. -/
theorem PrefixFree.flatMap (h : PrefixFree enc)
    (hnext : ∀ c, next c → ∀ a t t', enc a ++ t ≠ c :: t') :
    Delimited (fun l : List α => l.flatMap enc) next := by
  intro l
  dsimp only
  induction l with
  | nil =>
    intro l' c c' t t' hc _ heq
    cases l' with
    | nil => exact ⟨rfl, List.cons.inj heq⟩
    | cons a' l' =>
      rw [List.flatMap_cons, List.append_assoc] at heq
      exact absurd heq.symm (hnext c hc a' _ t)
  | cons a l ih =>
    intro l' c c' t t' hc hc' heq
    cases l' with
    | nil =>
      rw [List.flatMap_cons, List.append_assoc] at heq
      exact absurd heq (hnext c' hc' a _ t')
    | cons a' l' =>
      rw [List.flatMap_cons, List.flatMap_cons, List.append_assoc, List.append_assoc] at heq
      obtain ⟨rfl, hrest⟩ := h a a' _ _ heq
      obtain ⟨rfl, hct⟩ := ih l' c c' t t' hc hc' hrest
      exact ⟨rfl, hct⟩

/-- Letters of one class. -/
theorem Delimited.map {f : α → β} (hf : Function.Injective f) :
    Delimited (List.map f) fun c => ∀ a, c ≠ f a := by
  have h : Delimited (fun l : List α => l.flatMap fun a => [f a]) fun c => ∀ a, c ≠ f a :=
    (PrefixFree.singleton hf).flatMap fun c hc a t t' heq => hc a (List.cons.inj heq).1.symm
  intro l l' c c' t t' hc hc' heq
  rw [List.map_eq_flatMap, List.map_eq_flatMap] at heq
  exact h l l' c c' t t' hc hc' heq

end Noc.Lib.Codes
