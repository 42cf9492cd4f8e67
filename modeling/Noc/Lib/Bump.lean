import Noc.Lib.Spans

/-! # Spans laid out by a moving pointer

A bump allocator moves a pointer up by the cost of each item. `fitting` lists the items that fit
into a room, and `spansAfter` places for each item a span behind the pointer as it is *after* the
move. Such a span is not the room the item has paid for, so the spans may overlap:
`spansAfter_apart_iff` says exactly when they do not, and end below a limit. -/

namespace Noc.Lib.Bump

open Noc.Lib.Spans Noc.Lib.Spans.Span

variable {α : Type} {cost len : α → ℕ} {off b room limit : ℕ} {x : α} {xs : List α}

/-- The items that are served in turn from `room`: each that costs no more than what is left. -/
def fitting (cost : α → ℕ) : ℕ → List α → List α
  | _, [] => []
  | room, x :: xs =>
    if cost x ≤ room then x :: fitting cost (room - cost x) xs else fitting cost room xs

/-- For each item a span of `len` addresses, `off` behind the pointer that its cost has moved. -/
def spansAfter (cost len : α → ℕ) (off : ℕ) : ℕ → List α → List Span
  | _, [] => []
  | b, x :: xs => ⟨b + cost x + off, len x⟩ :: spansAfter cost len off (b + cost x) xs

theorem fitting_cons_of_le (h : cost x ≤ room) :
    fitting cost room (x :: xs) = x :: fitting cost (room - cost x) xs := if_pos h

theorem fitting_cons_of_lt (h : room < cost x) :
    fitting cost room (x :: xs) = fitting cost room xs := if_neg (by omega)

theorem mem_of_mem_fitting : ∀ {room : ℕ} {xs : List α}, x ∈ fitting cost room xs → x ∈ xs
  | _, [], h => h
  | room, y :: xs, h => by
    by_cases hy : cost y ≤ room
    · rw [fitting_cons_of_le hy] at h
      rcases List.mem_cons.mp h with rfl | h
      · exact List.mem_cons_self
      · exact List.mem_cons_of_mem _ (mem_of_mem_fitting h)
    · rw [fitting_cons_of_lt (by omega)] at h
      exact List.mem_cons_of_mem _ (mem_of_mem_fitting h)

theorem le_start_of_mem : ∀ {b : ℕ} {xs : List α} {s : Span},
    s ∈ spansAfter cost len off b xs → b + off ≤ s.start
  | _, [], _, h => by cases h
  | b, x :: xs, s, h => by
    rcases List.mem_cons.mp h with rfl | h
    · show b + off ≤ b + cost x + off
      omega
    · have ih := le_start_of_mem h
      omega

/-- The first span against the second. -/
theorem disj_next_iff {y : α} (hy : 0 < len y) :
    Disj ⟨b + cost x + off, len x⟩ ⟨b + cost x + cost y + off, len y⟩ ↔ len x ≤ cost y := by
  unfold Disj
  simp only [stop_mk]
  omega

/-- **When the spans are apart and end below the limit**: no span is longer than the cost of the
next item, and the last one ends below the limit. -/
theorem spansAfter_apart_iff : ∀ {b : ℕ} {xs : List α}, (∀ x ∈ xs, 0 < len x) →
    ((spansAfter cost len off b xs).Pairwise Disj ∧
        (∀ s ∈ spansAfter cost len off b xs, s.stop ≤ limit) ↔
      xs.IsChain (fun x y => len x ≤ cost y) ∧
        ∀ x ∈ xs.getLast?, b + (xs.map cost).sum + off + len x ≤ limit)
  | b, [], _ => by simp [spansAfter]
  | b, [x], _ => by simp [spansAfter, Nat.add_assoc]
  | b, x :: y :: xs, hlen => by
    have ih := spansAfter_apart_iff (b := b + cost x)
      fun z hz => hlen z (List.mem_cons_of_mem _ hz)
    have hnext : Disj ⟨b + cost x + off, len x⟩ ⟨b + cost x + cost y + off, len y⟩ ↔
        len x ≤ cost y := disj_next_iff (hlen y (by simp))
    have hsum : b + ((x :: y :: xs).map cost).sum = b + cost x + ((y :: xs).map cost).sum := by
      rw [List.map_cons, List.sum_cons, Nat.add_assoc]
    rw [List.isChain_cons_cons, List.getLast?_cons_cons, hsum, and_assoc, ← ih]
    constructor
    · rintro ⟨hp, hs⟩
      obtain ⟨hp1, hp2⟩ := List.pairwise_cons.mp hp
      exact ⟨hnext.mp (hp1 _ List.mem_cons_self), hp2,
        fun s h => hs s (List.mem_cons_of_mem _ h)⟩
    · rintro ⟨hxy, hp, hs⟩
      have hy := hs ⟨b + cost x + cost y + off, len y⟩ List.mem_cons_self
      -- every later span starts behind the cost of `y`
      have hlater : ∀ s ∈ spansAfter cost len off (b + cost x) (y :: xs),
          b + cost x + cost y + off ≤ s.start := by
        intro s h
        rcases List.mem_cons.mp h with rfl | h
        · exact le_rfl
        · exact le_start_of_mem h
      refine ⟨List.pairwise_cons.mpr ⟨fun s h => Or.inl ?_, hp⟩, fun s h => ?_⟩
      · have := hlater s h
        rw [stop_mk]; omega
      · rcases List.mem_cons.mp h with rfl | h
        · rw [stop_mk] at hy ⊢; omega
        · exact hs s h

end Noc.Lib.Bump
