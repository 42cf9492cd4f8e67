import Mathlib.Data.Nat.Notation
import Mathlib.Tactic.SplitIfs

/-! # Computations that emit characters

An `Emission` is what a computation emits and how it ends: with a value, by stopping early, or with
a fault. In a sequence the second computation runs if the first ends with a value. `deliver` gives a
text to a sink, one character after the other, until the sink refuses one.

* `text_bind_value`, `ending_bind_value`, `bind_stop`, `bind_fault`: a sequence, by how its first
  part ends; `ending_bind_eq_fault`, `exists_of_ending_bind`: where a fault or a value of a sequence
  comes from.
* `deliver_of_accepts`: a sink that accepts everything sees the whole text.
* `deliver_append`: two texts given to a sink one after the other.
* `deliver_of_collects`: a sink that keeps what it accepts has the whole text if it accepts all of
  it; `deliver_of_refused`: else it is in a state that refusing leads to. -/

namespace Noc.Lib.Output

/-- How a computation ends. -/
inductive Ending (φ α : Type) where
  | value (a : α)
  | stop
  | fault (f : φ)
deriving DecidableEq, Repr

/-- What a computation emits, and how it ends. -/
structure Emission (β φ α : Type) where
  text : List β
  ending : Ending φ α
deriving DecidableEq, Repr

variable {β φ α γ σ : Type}

namespace Emission

/-- End with a value. -/
def value (a : α) : Emission β φ α := ⟨[], .value a⟩

/-- Stop early. -/
def stop : Emission β φ α := ⟨[], .stop⟩

/-- End with a fault. -/
def fault (f : φ) : Emission β φ α := ⟨[], .fault f⟩

/-- Emit a character. -/
def emit (b : β) : Emission β φ Unit := ⟨[b], .value ()⟩

/-- A sequence. -/
def seq (e : Emission β φ α) (k : α → Emission β φ γ) : Emission β φ γ :=
  match e.ending with
  | .value a => ⟨e.text ++ (k a).text, (k a).ending⟩
  | .stop => ⟨e.text, .stop⟩
  | .fault f => ⟨e.text, .fault f⟩

/-- A computation that emits nothing. -/
def ofExcept : Except φ α → Emission β φ α
  | .ok a => value a
  | .error f => fault f

instance : Monad (Emission β φ) where
  pure := value
  bind := seq

instance : MonadLift (Except φ) (Emission β φ) where
  monadLift := ofExcept

variable {e : Emission β φ α} {k : α → Emission β φ γ} {a : α} {f : φ} {b : β}

@[simp] theorem pure_eq : (pure a : Emission β φ α) = ⟨[], .value a⟩ := rfl

@[simp] theorem value_bind : (⟨[], .value a⟩ : Emission β φ α) >>= k = k a := rfl

@[simp] theorem emit_bind {k : Unit → Emission β φ γ} :
    emit b >>= k = ⟨b :: (k ()).text, (k ()).ending⟩ := rfl

@[simp] theorem ok_lift : (liftM (Except.ok a : Except φ α) : Emission β φ α) = ⟨[], .value a⟩ :=
  rfl

@[simp] theorem error_lift :
    (liftM (Except.error f : Except φ α) : Emission β φ α) = ⟨[], .fault f⟩ := rfl

theorem bind_value (h : e.ending = .value a) :
    e >>= k = ⟨e.text ++ (k a).text, (k a).ending⟩ := by
  show seq e k = _
  unfold seq
  rw [h]

theorem bind_stop (h : e.ending = .stop) : e >>= k = ⟨e.text, .stop⟩ := by
  show seq e k = _
  unfold seq
  rw [h]

theorem bind_fault (h : e.ending = .fault f) : e >>= k = ⟨e.text, .fault f⟩ := by
  show seq e k = _
  unfold seq
  rw [h]

theorem ending_bind_of_value (h : e.ending = .value a) : (e >>= k).ending = (k a).ending := by
  rw [bind_value h]

/-- A sequence emits at least what its first part emits. -/
theorem text_bind (e : Emission β φ α) (k : α → Emission β φ γ) :
    ∃ l, (e >>= k).text = e.text ++ l := by
  rcases h : e.ending with a | _ | f
  · exact ⟨_, by rw [bind_value h]⟩
  · exact ⟨[], by rw [bind_stop h, List.append_nil]⟩
  · exact ⟨[], by rw [bind_fault h, List.append_nil]⟩

/-- The value of a sequence comes from its second part. -/
theorem exists_of_ending_bind {b : γ} (h : (e >>= k).ending = .value b) :
    ∃ a, e.ending = .value a ∧ (k a).ending = .value b ∧ (e >>= k).text = e.text ++ (k a).text := by
  rcases he : e.ending with a | _ | f
  · rw [bind_value he] at h ⊢
    exact ⟨a, rfl, h, rfl⟩
  · rw [bind_stop he] at h
    cases h
  · rw [bind_fault he] at h
    cases h

/-- A fault of a sequence is a fault of its first part, or of its second after a value. -/
theorem ending_bind_eq_fault : (e >>= k).ending = .fault f ↔
    e.ending = .fault f ∨ ∃ a, e.ending = .value a ∧ (k a).ending = .fault f := by
  rcases h : e.ending with a | _ | g
  · rw [bind_value h]
    simp
  · rw [bind_stop h]
    simp
  · rw [bind_fault h]
    simp

end Emission

/-! ### Sinks -/

/-- Give a text to a sink until it refuses a character: whether it has taken all, how many
characters it has taken, and its state. -/
def deliver (write : β → σ → Bool × σ) : List β → ℕ → σ → Bool × ℕ × σ
  | [], count, s => (true, count, s)
  | b :: l, count, s =>
    let r := write b s
    if r.1 then deliver write l (count + 1) r.2 else (false, count, r.2)

/-- The sink refuses nothing. -/
def Accepts (write : β → σ → Bool × σ) : Prop := ∀ b s, (write b s).1 = true

theorem deliver_of_accepts {write : β → σ → Bool × σ} (hw : Accepts write) (l : List β) (count : ℕ)
    (s : σ) : deliver write l count s =
      (true, count + l.length, l.foldl (fun s b => (write b s).2) s) := by
  induction l generalizing count s with
  | nil => rfl
  | cons b l ih =>
    rw [deliver]
    rw [if_pos (hw b s), ih, List.foldl_cons, List.length_cons, Nat.add_assoc, Nat.add_comm 1]

/-- The characters are counted. -/
theorem deliver_count {write : β → σ → Bool × σ} {l : List β} {count : ℕ} {s : σ}
    (h : (deliver write l count s).1 = true) :
    (deliver write l count s).2.1 = count + l.length := by
  induction l generalizing count s with
  | nil => rfl
  | cons b l ih =>
    rw [deliver] at h ⊢
    by_cases hb : (write b s).1 = true
    · rw [if_pos hb] at h ⊢
      rw [ih h, List.length_cons]
      omega
    · rw [if_neg hb] at h
      cases h

theorem deliver_count_le (write : β → σ → Bool × σ) (l : List β) (count : ℕ) (s : σ) :
    (deliver write l count s).2.1 ≤ count + l.length := by
  induction l generalizing count s with
  | nil => exact Nat.le_refl _
  | cons b l ih =>
    rw [deliver, List.length_cons]
    by_cases hb : (write b s).1 = true
    · rw [if_pos hb]
      have := ih (count + 1) (write b s).2
      omega
    · rw [if_neg hb]
      exact Nat.le_add_right _ _

/-- The count starts where it is told to. -/
theorem deliver_add (write : β → σ → Bool × σ) (l : List β) (n count : ℕ) (s : σ) :
    deliver write l (n + count) s =
      ((deliver write l count s).1, n + (deliver write l count s).2.1,
        (deliver write l count s).2.2) := by
  induction l generalizing count s with
  | nil => rfl
  | cons b l ih =>
    rw [deliver, deliver]
    by_cases hb : (write b s).1 = true
    · rw [if_pos hb, if_pos hb, Nat.add_assoc, ih]
    · rw [if_neg hb, if_neg hb]

/-- Two texts one after the other. -/
theorem deliver_append (write : β → σ → Bool × σ) (l l' : List β) (count : ℕ) (s : σ) :
    deliver write (l ++ l') count s =
      if (deliver write l count s).1 then
        deliver write l' (deliver write l count s).2.1 (deliver write l count s).2.2
      else deliver write l count s := by
  induction l generalizing count s with
  | nil => rfl
  | cons b l ih =>
    rw [List.cons_append, deliver, deliver]
    by_cases hb : (write b s).1 = true
    · rw [if_pos hb, if_pos hb, ih]
    · rw [if_neg hb, if_neg hb]
      rfl

/-- What the sink accepts is added at the end of its `view`. -/
def Collects (write : β → σ → Bool × σ) (view : σ → List β) : Prop :=
  ∀ b s, (write b s).1 = true → view (write b s).2 = view s ++ [b]

theorem deliver_of_collects {write : β → σ → Bool × σ} {view : σ → List β}
    (hw : Collects write view) {l : List β} {count : ℕ} {s : σ}
    (h : (deliver write l count s).1 = true) :
    view (deliver write l count s).2.2 = view s ++ l := by
  induction l generalizing count s with
  | nil => exact (List.append_nil _).symm
  | cons b l ih =>
    rw [deliver] at h ⊢
    by_cases hb : (write b s).1 = true
    · rw [if_pos hb] at h ⊢
      rw [ih h, hw b s hb, List.append_assoc, List.singleton_append]
    · rw [if_neg hb] at h
      cases h

theorem deliver_of_refused {write : β → σ → Bool × σ} {P : σ → Prop}
    (hp : ∀ b s, (write b s).1 = false → P (write b s).2) {l : List β} {count : ℕ} {s : σ}
    (h : (deliver write l count s).1 = false) : P (deliver write l count s).2.2 := by
  induction l generalizing count s with
  | nil => cases h
  | cons b l ih =>
    rw [deliver] at h ⊢
    by_cases hb : (write b s).1 = true
    · rw [if_pos hb] at h ⊢
      exact ih h
    · rw [if_neg hb]
      exact hp b s (Bool.eq_false_iff.mpr hb)

end Noc.Lib.Output
