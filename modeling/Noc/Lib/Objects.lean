import Mathlib.Data.List.GetD
import Mathlib.Logic.Function.Basic
import Mathlib.Tactic.SplitIfs

/-! # Objects

The memory of a program as the language sees it: a store of objects, each a list of bytes with an
address, of which those that nobody has written yet are indeterminate (`none`). `Call` is the
interface that creates, resizes, writes and destroys objects; `Store.step` is its effect, given the
address that the environment chose.

* `Store.Apart`: objects do not overlap.
* `Store.Held`: a memory has the bytes of the objects, where they are determinate. The rules
  `Held.mono`, `Held.put` and `Held.set` follow the steps, the last for objects apart. -/

namespace Noc.Lib.Objects

variable {β : Type}

/-- The objects, by their addresses. -/
abbrev Store (β : Type) := ℕ → Option (List (Option β))

/-- The bytes of an object with another size; the new ones are indeterminate. -/
def resize (n : ℕ) (o : List (Option β)) : List (Option β) :=
  o.take n ++ List.replicate (n - o.length) none

theorem length_resize (n : ℕ) (o : List (Option β)) : (resize n o).length = n := by
  simp only [resize, List.length_append, List.length_take, List.length_replicate]
  omega

/-- What is determinate after a resizing, was so before. -/
theorem getElem?_resize {n i : ℕ} {o : List (Option β)} {b : β}
    (h : (resize n o)[i]? = some (some b)) : i < n ∧ o[i]? = some (some b) := by
  unfold resize at h
  rw [List.getElem?_append] at h
  split_ifs at h with hi
  · rw [List.length_take] at hi
    rw [List.getElem?_take_of_lt (by omega)] at h
    exact ⟨by omega, h⟩
  · rw [List.getElem?_replicate] at h
    split_ifs at h
    cases h

/-- The interface of the objects. -/
inductive Call (β : Type) where
  | malloc (n : ℕ)
  | free (p : ℕ)
  | realloc (p n : ℕ)
  | write (p i : ℕ) (b : β)

namespace Store

/-- No objects. -/
def empty : Store β := fun _ => none

/-- An object at `p`. -/
def put (σ : Store β) (p : ℕ) (o : List (Option β)) : Store β := Function.update σ p (some o)

/-- No object at `p`. -/
def drop (σ : Store β) (p : ℕ) : Store β := Function.update σ p none

/-- The effect of a call that returns `r`. -/
def step (σ : Store β) (r : ℕ) : Call β → Store β
  | .malloc n => if r = 0 then σ else σ.put r (List.replicate n none)
  | .free p => σ.drop p
  | .realloc p n =>
    if n = 0 then σ.drop p
    else if r = 0 then σ
    else (σ.drop p).put r (resize n ((σ p).getD []))
  | .write p i b => σ.put p (((σ p).getD []).set i (some b))

/-- The objects have bytes, none of them at `NULL`, and do not overlap. -/
structure Apart (σ : Store β) : Prop where
  pos : ∀ p o, σ p = some o → 0 < p ∧ 0 < o.length
  disj : ∀ p o q o', σ p = some o → σ q = some o' → p ≠ q →
    p + o.length ≤ q ∨ q + o'.length ≤ p

/-- The memory has the determinate bytes of the objects. -/
def Held (σ : Store β) (m : ℕ → β) : Prop :=
  ∀ p o, σ p = some o → ∀ i b, o[i]? = some (some b) → m (p + i) = b

variable {σ : Store β} {p q i n r : ℕ} {o o' : List (Option β)} {b : β} {m m' : ℕ → β}

@[simp] theorem put_self : (σ.put p o) p = some o := Function.update_self p _ σ

theorem put_of_ne (h : q ≠ p) : (σ.put p o) q = σ q := Function.update_of_ne h _ σ

@[simp] theorem drop_self : (σ.drop p) p = none := Function.update_self p _ σ

theorem drop_of_ne (h : q ≠ p) : (σ.drop p) q = σ q := Function.update_of_ne h _ σ

/-- An object that is left was there. -/
theorem of_drop (h : (σ.drop p) q = some o) : q ≠ p ∧ σ q = some o := by
  by_cases hq : q = p
  · rw [hq, drop_self] at h
    cases h
  · rw [drop_of_ne hq] at h
    exact ⟨hq, h⟩

/-- An object is the new one or was there. -/
theorem of_put (h : (σ.put p o) q = some o') : (q = p ∧ o' = o) ∨ (q ≠ p ∧ σ q = some o') := by
  by_cases hq : q = p
  · rw [hq, put_self] at h
    exact Or.inl ⟨hq, (Option.some.inj h).symm⟩
  · rw [put_of_ne hq] at h
    exact Or.inr ⟨hq, h⟩

theorem held_empty (m : ℕ → β) : Held empty m := fun _ _ h => by cases h

/-- Another memory with the bytes of the objects, and fewer objects. -/
theorem Held.mono {σ' : Store β} (h : Held σ m) (hsub : ∀ p o, σ' p = some o → σ p = some o)
    (hm : ∀ p o, σ' p = some o → ∀ i < o.length, m' (p + i) = m (p + i)) : Held σ' m' := by
  intro p o hp i b hb
  have hi : i < o.length := (List.getElem?_eq_some_iff.mp hb).1
  rw [hm p o hp i hi]
  exact h p o (hsub p o hp) i b hb

theorem Held.put (h : Held σ m) (hp : ∀ i b, o[i]? = some (some b) → m (p + i) = b) :
    Held (σ.put p o) m := by
  intro q o' hq i b hb
  rcases of_put hq with ⟨rfl, rfl⟩ | ⟨-, hq⟩
  · exact hp i b hb
  · exact h q o' hq i b hb

/-- A byte is written, in memory and in its object. -/
theorem Held.set (h : Held σ m) (ha : Apart σ) (ho : σ p = some o) (hi : i < o.length) :
    Held (σ.put p (o.set i (some b))) (Function.update m (p + i) b) := by
  intro q o' hq j c hc
  rcases of_put hq with ⟨rfl, rfl⟩ | ⟨hne, hq⟩
  · by_cases hij : i = j
    · subst hij
      rw [List.getElem?_set_self hi] at hc
      rw [Function.update_self]
      exact Option.some.inj (Option.some.inj hc)
    · rw [List.getElem?_set_ne hij] at hc
      rw [Function.update_of_ne (by omega)]
      exact h q o ho j c hc
  · have hj : j < o'.length := (List.getElem?_eq_some_iff.mp hc).1
    have hdis := ha.disj p o q o' ho hq (Ne.symm hne)
    rw [Function.update_of_ne (by omega)]
    exact h q o' hq j c hc

end Store

end Noc.Lib.Objects
