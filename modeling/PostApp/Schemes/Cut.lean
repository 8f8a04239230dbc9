import Mathlib.Algebra.BigOperators.Group.List.Basic
import Mathlib.Algebra.Order.BigOperators.Group.List
import Mathlib.Algebra.GroupWithZero.Nat

/-! Cutting a list at an offset that is measured in the weights of its elements.

    `cut w xs n` splits off the front of weight `n`, and fails when the offset lies inside an element
    or behind the end. With positive weights the cut is the only one of that weight. -/

namespace Schemes
variable {α : Type} {w : α → ℕ}

def cut (w : α → ℕ) : List α → ℕ → Option (List α × List α)
  | xs, 0 => some ([], xs)
  | [], _ + 1 => none
  | x :: xs, n + 1 =>
    if w x ≤ n + 1 then (cut w xs (n + 1 - w x)).map (fun p => (x :: p.1, p.2)) else none

/-- The weight of a list. -/
def weight (w : α → ℕ) (xs : List α) : ℕ := (xs.map w).sum

@[simp] theorem weight_nil : weight w [] = 0 := rfl

@[simp] theorem weight_cons (x : α) (xs : List α) : weight w (x :: xs) = w x + weight w xs := by
  simp [weight]

theorem length_le_weight (hw : ∀ a, 0 < w a) (xs : List α) : xs.length ≤ weight w xs := by
  induction xs with
  | nil => exact le_rfl
  | cons x xs ih =>
    have := hw x
    rw [List.length_cons, weight_cons]
    omega

/-- What a cut yields, put together, is the list; the front has the weight asked for. -/
theorem cut_sound : ∀ {xs : List α} {n : ℕ} {front rest : List α},
    cut w xs n = some (front, rest) → xs = front ++ rest ∧ weight w front = n
  | xs, 0, front, rest, h => by
    rw [cut] at h
    cases h
    exact ⟨rfl, rfl⟩
  | [], n + 1, front, rest, h => by
    rw [cut] at h
    cases h
  | x :: xs, n + 1, front, rest, h => by
    rw [cut] at h
    split_ifs at h with hle
    obtain ⟨⟨front', rest'⟩, hcut, heq⟩ := Option.map_eq_some_iff.mp h
    cases heq
    obtain ⟨hxs, hweight⟩ := cut_sound hcut
    refine ⟨by rw [hxs, List.cons_append], ?_⟩
    simp only [weight_cons]
    omega

/-- Every front can be cut off. -/
theorem cut_complete (hw : ∀ a, 0 < w a) : ∀ front rest : List α,
    cut w (front ++ rest) (weight w front) = some (front, rest)
  | [], rest => by rw [List.nil_append, weight_nil, cut]
  | x :: front, rest => by
    have hpos := hw x
    obtain ⟨n, hn⟩ : ∃ n, w x + weight w front = n + 1 := ⟨w x + weight w front - 1, by omega⟩
    have hrest : n + 1 - w x = weight w front := by omega
    rw [List.cons_append, weight_cons, hn, cut, if_pos (by omega), hrest, cut_complete hw front rest]
    rfl

end Schemes
