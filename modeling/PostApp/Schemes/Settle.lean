import Mathlib.Algebra.GroupWithZero.Nat
import PostApp.Schemes.Run

/-! Systems that come to rest.

    Some events are the system's own: deliveries, answers, completions. If each of them lowers a rank,
    a run of them is no longer than the rank it starts from (`Lowers.length_le`); if one of them is
    enabled wherever work is left, the work gets done (`Lowers.exists_rest`). A rank that is a sum over
    the parts of a system changes by what one part changes (`sum_map_set`). Where they can lead from a
    state is built up event by event (`CanReach.cons`); an invariant that excludes the goal shows that
    they cannot lead there (`not_canReach`). -/

namespace Schemes
variable {σ ε : Type}

/-- Events of the kind `K` can lead from `s` to the goal. -/
def CanReach (step : σ → ε → Option σ) (K : ε → Prop) (G : σ → Prop) (s : σ) : Prop :=
  ∃ es s', (∀ e ∈ es, K e) ∧ run step s es = some s' ∧ G s'

section CanReach
variable {step : σ → ε → Option σ} {K : ε → Prop} {G I : σ → Prop} {s s' : σ} {e : ε}

theorem CanReach.now (h : G s) : CanReach step K G s :=
  ⟨[], s, fun _ he => absurd he List.not_mem_nil, rfl, h⟩

theorem CanReach.cons (h : CanReach step K G s') (he : K e) (hs : step s e = some s') :
    CanReach step K G s := by
  obtain ⟨es, t, hK, hr, hG⟩ := h
  refine ⟨e :: es, t, List.forall_mem_cons.mpr ⟨he, hK⟩, ?_, hG⟩
  rw [run, hs]
  exact hr

theorem not_canReach (hI : I s) (hkeep : ∀ s e s', I s → K e → step s e = some s' → I s')
    (hG : ∀ s, I s → ¬ G s) : ¬ CanReach step K G s := by
  rintro ⟨es, t, hK, hr, ht⟩
  induction es generalizing s with
  | nil =>
    cases hr
    exact hG _ hI ht
  | cons e es ih =>
    obtain ⟨m, hm, hr⟩ := Option.bind_eq_some_iff.mp hr
    obtain ⟨he, hK⟩ := List.forall_mem_cons.mp hK
    exact ih (hkeep s e m hI he hm) hK hr

end CanReach

/-- Events of the kind `K` keep the invariant and lower the rank. -/
structure Lowers (step : σ → ε → Option σ) (I : σ → Prop) (K : ε → Prop) (rank : σ → ℕ) : Prop where
  keeps : ∀ s e s', I s → K e → step s e = some s' → I s'
  lower : ∀ s e s', I s → K e → step s e = some s' → rank s' < rank s

namespace Lowers
variable {step : σ → ε → Option σ} {I G : σ → Prop} {K : ε → Prop} {rank : σ → ℕ}

/-- The rank pays for every event of a run. -/
theorem length_le (h : Lowers step I K rank) {es : List ε} : ∀ {s s' : σ}, I s → (∀ e ∈ es, K e) →
    run step s es = some s' → I s' ∧ rank s' + es.length ≤ rank s := by
  induction es with
  | nil =>
    intro s s' hI _ hr
    cases hr
    exact ⟨hI, Nat.le_refl _⟩
  | cons e es ih =>
    intro s s' hI hK hr
    obtain ⟨m, hm, hr⟩ := Option.bind_eq_some_iff.mp hr
    have he : K e := hK e (List.mem_cons_self ..)
    have hlt := h.lower s e m hI he hm
    obtain ⟨hI', hle⟩ := ih (h.keeps s e m hI he hm) (fun e' he' => hK e' (List.mem_cons_of_mem _ he')) hr
    refine ⟨hI', ?_⟩
    rw [List.length_cons]
    omega

/-- If some event is enabled wherever the goal is not reached, it is reached. -/
theorem exists_rest (h : Lowers step I K rank)
    (hprogress : ∀ s, I s → ¬ G s → ∃ e s', K e ∧ step s e = some s') :
    ∀ s, I s → CanReach step K G s := by
  intro s
  generalize hn : rank s = n
  induction n using Nat.strongRecOn generalizing s with
  | ind n ih =>
    intro hI
    by_cases hG : G s
    · exact .now hG
    · obtain ⟨e, m, he, hm⟩ := hprogress s hI hG
      have hlt := h.lower s e m hI he hm
      exact (ih (rank m) (by omega) m rfl (h.keeps s e m hI he hm)).cons he hm

end Lowers

/-! ### Ranks of parts -/

section Sum
variable {α : Type} {f g : α → ℕ} {xs : List α}

/-- When one part changes, the sum changes by as much. -/
theorem sum_map_set {i : ℕ} {x : α} (hi : xs[i]? = some x) (y : α) :
    ((xs.set i y).map f).sum + f x = (xs.map f).sum + f y := by
  induction xs generalizing i with
  | nil => cases hi
  | cons x' xs ih =>
    cases i with
    | zero =>
      cases hi
      simp only [List.set_cons_zero, List.map_cons, List.sum_cons]
      omega
    | succ i =>
      have hrest := ih hi
      simp only [List.set_cons_succ, List.map_cons, List.sum_cons]
      omega

/-- When every part grows by one at most, the sum grows by their number at most. -/
theorem sum_map_le (h : ∀ x, f x ≤ g x + 1) : (xs.map f).sum ≤ (xs.map g).sum + xs.length := by
  induction xs with
  | nil => exact Nat.le_refl 0
  | cons x xs ih =>
    have hx := h x
    simp only [List.map_cons, List.sum_cons, List.length_cons]
    omega

end Sum
end Schemes
