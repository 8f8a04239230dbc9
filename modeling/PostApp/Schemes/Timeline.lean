import Mathlib.Data.List.Pairwise
import Mathlib.Order.Lattice

/-! Lists of entries whose stamps increase.

    In such a list the order of two entries is the order of their stamps, whether it is read off the
    positions of the stamps or off the entries alone; and the position of a stamp is its rank, the
    number of stamps below it. -/

namespace Schemes
variable {α κ : Type} [LinearOrder κ]

/-- In an increasing list, positions compare as their elements do. -/
theorem getElem?_lt_iff {xs : List κ} (h : xs.Pairwise (· < ·)) {i j : ℕ} {k l : κ}
    (hi : xs[i]? = some k) (hj : xs[j]? = some l) : i < j ↔ k < l := by
  have hmono : ∀ {i j : ℕ} {k l : κ}, xs[i]? = some k → xs[j]? = some l → i < j → k < l := by
    intro i j k l hi hj hlt
    obtain ⟨hi', rfl⟩ := List.getElem?_eq_some_iff.mp hi
    obtain ⟨hj', rfl⟩ := List.getElem?_eq_some_iff.mp hj
    exact List.pairwise_iff_getElem.mp h i j hi' hj' hlt
  constructor
  · exact hmono hi hj
  · intro hlt
    by_contra hnot
    rcases Nat.eq_or_lt_of_le (Nat.not_lt.mp hnot) with rfl | hgt
    · rw [hi] at hj
      cases hj
      exact lt_irrefl _ hlt
    · exact lt_asymm hlt (hmono hj hi hgt)

/-- The number of elements below `k`. -/
def rank (xs : List κ) (k : κ) : ℕ := xs.countP (· < k)

theorem rank_eq_zero {xs : List κ} {k : κ} (h : ∀ x ∈ xs, k ≤ x) : rank xs k = 0 := by
  refine List.countP_eq_zero.mpr ?_
  intro x hx hlt
  exact absurd (of_decide_eq_true hlt) (not_lt.mpr (h x hx))

theorem rank_cons_of_lt {x k : κ} (h : x < k) (xs : List κ) : rank (x :: xs) k = rank xs k + 1 :=
  List.countP_cons_of_pos (decide_eq_true h)

/-- In an increasing list, an element stands at its rank. -/
theorem getElem?_iff_rank {xs : List κ} (h : xs.Pairwise (· < ·)) {i : ℕ} {k : κ} :
    xs[i]? = some k ↔ k ∈ xs ∧ rank xs k = i := by
  induction xs generalizing i with
  | nil => simp
  | cons x xs ih =>
    obtain ⟨hx, hxs⟩ := List.pairwise_cons.mp h
    have hfirst : rank (x :: xs) x = 0 := by
      refine rank_eq_zero ?_
      intro y hy
      rcases List.mem_cons.mp hy with rfl | hy
      · exact le_refl y
      · exact le_of_lt (hx y hy)
    by_cases hk : k = x
    · subst hk
      have hnot : k ∉ xs := fun hmem => lt_irrefl k (hx k hmem)
      rw [hfirst]
      cases i with
      | zero => simp
      | succ i =>
        rw [List.getElem?_cons_succ]
        exact iff_of_false (fun hi => hnot (List.mem_of_getElem? hi)) (by omega)
    · have hmem : k ∈ x :: xs ↔ k ∈ xs := by rw [List.mem_cons, or_iff_right hk]
      rw [hmem]
      cases i with
      | zero =>
        rw [List.getElem?_cons_zero, Option.some.injEq]
        refine iff_of_false (Ne.symm hk) ?_
        rintro ⟨hin, hzero⟩
        rw [rank_cons_of_lt (hx k hin)] at hzero
        omega
      | succ i =>
        rw [List.getElem?_cons_succ, ih hxs]
        refine and_congr_right ?_
        intro hin
        rw [rank_cons_of_lt (hx k hin)]
        omega

/-- `a` comes before `b`. -/
def Before (xs : List α) (a b : α) : Prop := [a, b].Sublist xs

instance [DecidableEq α] (xs : List α) (a b : α) : Decidable (Before xs a b) :=
  inferInstanceAs (Decidable ([a, b].Sublist xs))

/-- Each entry has one stamp, and the stamps increase. -/
structure Stamped (g : List (α × κ)) : Prop where
  unique : ∀ a k l, (a, k) ∈ g → (a, l) ∈ g → k = l
  increasing : (g.map Prod.snd).Pairwise (· < ·)

/-- Entries come in the order of their stamps. -/
theorem Stamped.before_iff {g : List (α × κ)} (hg : Stamped g) {a b : α} {k l : κ}
    (ha : (a, k) ∈ g) (hb : (b, l) ∈ g) : Before (g.map Prod.fst) a b ↔ k < l := by
  have hpair : g.Pairwise (fun p q => p.2 < q.2) := List.pairwise_map.mp hg.increasing
  constructor
  · intro hbefore
    obtain ⟨ps, hps, heq⟩ := List.sublist_map_iff.mp hbefore
    match ps, heq with
    | [(_, k'), (_, l')], rfl =>
      have hk := hg.unique a k k' ha (hps.subset (by simp))
      have hl := hg.unique b l l' hb (hps.subset (by simp))
      rw [hk, hl]
      exact List.rel_of_pairwise_cons (hpair.sublist hps) (List.mem_singleton_self _)
  · intro hlt
    obtain ⟨pre, post, rfl⟩ := List.append_of_mem ha
    rcases List.mem_append.mp hb with hb | hb
    · -- a stamp further left is smaller
      have hgt := (List.pairwise_append.mp hpair).2.2 (b, l) hb (a, k) (List.mem_cons_self ..)
      exact absurd hlt (lt_asymm hgt)
    · rcases List.mem_cons.mp hb with heq | hb
      · cases heq
        exact absurd hlt (lt_irrefl _)
      · rw [List.map_append, List.map_cons]
        refine (List.Sublist.cons_cons a ?_).trans (List.sublist_append_right _ _)
        exact List.singleton_sublist.mpr (List.mem_map.mpr ⟨(b, l), hb, rfl⟩)

end Schemes
