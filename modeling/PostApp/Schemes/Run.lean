import Mathlib.Data.List.Induction
import Mathlib.Tactic.SplitIfs

/-! Runs of a labelled step function.

    A system is a partial step function `step : σ → ε → Option σ`: `none` when the event is not
    enabled. `run` folds it over a list of events. The rules below are the ones every system here is
    verified with: invariants that may look at the events so far (`run_history`), conditions that
    characterise when a property holds along a run (`along_congr`), projections of a larger system
    onto a smaller one (`run_project`), dropping events (`run_filter`), and a forward simulation that
    holds as long as a condition on the steps does (`along_simulates`). -/

namespace Schemes
variable {σ ε : Type} {step : σ → ε → Option σ}

/-- Fold the step function over the events; `none` as soon as one of them is not enabled. -/
def run (step : σ → ε → Option σ) : σ → List ε → Option σ
  | s, [] => some s
  | s, e :: es => (step s e).bind (fun s' => run step s' es)

theorem run_append (s : σ) : ∀ es es' : List ε,
    run step s (es ++ es') = (run step s es).bind (fun m => run step m es')
  | [], _ => rfl
  | e :: es, es' => by
    simp only [List.cons_append, run, Option.bind_assoc]
    congr 1
    funext m
    exact run_append m es es'

theorem run_concat {s s' : σ} {es : List ε} {e : ε} :
    run step s (es ++ [e]) = some s' ↔ ∃ m, run step s es = some m ∧ step m e = some s' := by
  simp [run_append, run, Option.bind_eq_some_iff]

/-- Induction over a run; the invariant may mention the events so far. -/
theorem run_history {I : List ε → σ → Prop} {s₀ : σ} (h0 : I [] s₀)
    (hstep : ∀ pre s e s', I pre s → step s e = some s' → I (pre ++ [e]) s') :
    ∀ {es : List ε} {s : σ}, run step s₀ es = some s → I es s := by
  intro es
  induction es using List.reverseRecOn with
  | nil => intro s h; cases h; exact h0
  | append_singleton es e ih =>
    intro s h
    obtain ⟨m, hm, hs⟩ := run_concat.mp h
    exact hstep es m e s (ih hm) hs

/-- What holds at the start and is kept by every step holds at the end of every run. -/
theorem run_invariant {I : σ → Prop} {s₀ : σ} (h0 : I s₀)
    (hstep : ∀ s e s', I s → step s e = some s' → I s') {es : List ε} {s : σ}
    (h : run step s₀ es = some s) : I s :=
  run_history (I := fun _ s => I s) h0 (fun _ => hstep) h

/-- What each event changes in the same way from wherever it stands is, at the end of a run, the fold of
    the events. The steps may lean on an invariant. -/
theorem run_fold {β : Type} {I : σ → Prop} {f : σ → β} {g : β → ε → β} {s₀ : σ} (h0 : I s₀)
    (hI : ∀ s e s', I s → step s e = some s' → I s')
    (hf : ∀ s e s', I s → step s e = some s' → f s' = g (f s) e) {es : List ε} {s : σ}
    (h : run step s₀ es = some s) : f s = es.foldl g (f s₀) := by
  induction es using List.reverseRecOn generalizing s with
  | nil => cases h; rfl
  | append_singleton es e ih =>
    obtain ⟨m, hm, hs⟩ := run_concat.mp h
    rw [List.foldl_append, List.foldl_cons, List.foldl_nil, ← ih hm]
    exact hf m e s (run_invariant h0 hI hm) hs

/-- `R` holds of every step taken along the run; it may mention the events before the step. -/
def Along (step : σ → ε → Option σ) (R : List ε → σ → ε → σ → Prop) (s₀ : σ) (es : List ε) :
    Prop :=
  ∀ pre e post, es = pre ++ e :: post →
    ∀ s s', run step s₀ pre = some s → step s e = some s' → R pre s e s'

/-- `R` holds of the last step of the run. -/
theorem Along.last {R : List ε → σ → ε → σ → Prop} {s₀ s' : σ} {es : List ε} {e : ε}
    (h : Along step R s₀ (es ++ [e])) (hr : run step s₀ (es ++ [e]) = some s') :
    ∃ s, R es s e s' := by
  obtain ⟨s, hs, hs'⟩ := run_concat.mp hr
  exact ⟨s, h es e [] rfl s s' hs hs'⟩

/-- Along a run and then along another from where it has led. -/
theorem along_append {C : σ → ε → σ → Prop} {s₀ m : σ} {es es' : List ε}
    (h : Along step (fun _ => C) s₀ es) (hm : run step s₀ es = some m)
    (h' : Along step (fun _ => C) m es') : Along step (fun _ => C) s₀ (es ++ es') := by
  intro pre e post hes s s' hs hs'
  rcases List.append_eq_append_iff.mp hes with ⟨mid, rfl, hmid⟩ | ⟨mid, rfl, hmid⟩
  · -- the step is in the second run
    rw [run_append, hm] at hs
    exact h' mid e post hmid s s' hs hs'
  · cases mid with
    | nil =>
      rw [List.append_nil] at hm
      rw [hm] at hs
      cases hs
      exact h' [] e post (by simpa using hmid.symm) m s' rfl hs'
    | cons x mid =>
      obtain ⟨rfl, -⟩ := List.cons.inj hmid
      exact h pre e mid rfl s s' hs hs'

/-- Replay a concrete run and check its last state. -/
theorem exists_of_run_any (step : σ → ε → Option σ) (s₀ : σ) (es : List ε) (p : σ → Bool)
    (h : (run step s₀ es).any p = true) : ∃ s, run step s₀ es = some s ∧ p s = true := by
  cases hr : run step s₀ es with
  | none => rw [hr] at h; cases h
  | some s => rw [hr] at h; exact ⟨s, rfl, h⟩

/-- Replay a concrete run and check every step. -/
def checks (step : σ → ε → Option σ) (p : σ → ε → Bool) : σ → List ε → Bool
  | _, [] => true
  | s, e :: es => p s e && (step s e).all (fun s' => checks step p s' es)

theorem along_of_checks {p : σ → ε → Bool} {R : σ → ε → Prop} (hp : ∀ s e, p s e = true → R s e) :
    ∀ {es : List ε} {s₀ : σ}, checks step p s₀ es = true → Along step (fun _ s e _ => R s e) s₀ es
  | [], _, _ => by
    rintro pre e post hes
    simp at hes
  | e :: es, s₀, h => by
    rintro pre e' post hes s s' hs hs'
    rw [checks, Bool.and_eq_true] at h
    cases pre with
    | nil =>
      cases hs
      obtain ⟨rfl, -⟩ := List.cons.inj hes
      exact hp s₀ e h.1
    | cons x pre =>
      obtain ⟨rfl, hrest⟩ := List.cons.inj hes
      obtain ⟨m, hm, hs⟩ := Option.bind_eq_some_iff.mp hs
      have htail : checks step p m es = true := by
        have hall := h.2
        rwa [hm] at hall
      exact along_of_checks hp htail pre e' post hrest s s' hs hs'

/-- An invariant kept by the steps that satisfy `R` holds at every moment of a run along `R`. -/
theorem along_history {I : List ε → σ → Prop} {R : List ε → σ → ε → σ → Prop} {s₀ : σ}
    {es : List ε} (h0 : I [] s₀)
    (hstep : ∀ pre s e s', I pre s → step s e = some s' → R pre s e s' → I (pre ++ [e]) s')
    (hR : Along step R s₀ es) :
    ∀ pre post, es = pre ++ post → ∀ s, run step s₀ pre = some s → I pre s := by
  intro pre
  induction pre using List.reverseRecOn with
  | nil => intro _ _ s h; cases h; exact h0
  | append_singleton pre e ih =>
    intro post hes s h
    obtain ⟨m, hm, hs⟩ := run_concat.mp h
    have hsplit : es = pre ++ e :: post := by rw [hes, List.append_assoc]; rfl
    exact hstep pre m e s (ih (e :: post) hsplit m hm) hs (hR pre e post hsplit m s hm hs)

/-- Two step conditions that agree wherever the invariant holds describe the same runs. -/
theorem along_congr {I : List ε → σ → Prop} {R C : List ε → σ → ε → σ → Prop} {s₀ : σ}
    {es : List ε} (h0 : I [] s₀)
    (hiff : ∀ pre s e s', I pre s → step s e = some s' → (R pre s e s' ↔ C pre s e s'))
    (hkeep : ∀ pre s e s', I pre s → step s e = some s' → R pre s e s' → I (pre ++ [e]) s') :
    Along step R s₀ es ↔ Along step C s₀ es := by
  constructor
  · intro hR pre e post hes s s' hs hs'
    exact (hiff pre s e s' (along_history h0 hkeep hR pre (e :: post) hes s hs) hs').mp
      (hR pre e post hes s s' hs hs')
  · intro hC pre e post hes s s' hs hs'
    have hkeepC : ∀ pre s e s', I pre s → step s e = some s' → C pre s e s' →
        I (pre ++ [e]) s' :=
      fun pre s e s' hI h hc => hkeep pre s e s' hI h ((hiff pre s e s' hI h).mpr hc)
    exact (hiff pre s e s' (along_history h0 hkeepC hC pre (e :: post) hes s hs) hs').mpr
      (hC pre e post hes s s' hs hs')

/-- A step condition that always holds where the invariant does holds along every run. -/
theorem along_of_invariant {I : List ε → σ → Prop} {R : List ε → σ → ε → σ → Prop} {s₀ : σ}
    (es : List ε) (h0 : I [] s₀)
    (hstep : ∀ pre s e s', I pre s → step s e = some s' → I (pre ++ [e]) s')
    (hR : ∀ pre s e s', I pre s → step s e = some s' → R pre s e s') : Along step R s₀ es :=
  fun pre e _ _ s s' hs hs' => hR pre s e s' (run_history h0 hstep hs) hs'

theorem along_and {R S : List ε → σ → ε → σ → Prop} {s₀ : σ} {es : List ε} :
    Along step (fun pre s e s' => R pre s e s' ∧ S pre s e s') s₀ es ↔
      Along step R s₀ es ∧ Along step S s₀ es := by
  constructor
  · intro h
    exact ⟨fun pre e post hes s s' hs hs' => (h pre e post hes s s' hs hs').1,
      fun pre e post hes s s' hs hs' => (h pre e post hes s s' hs hs').2⟩
  · rintro ⟨hR, hS⟩ pre e post hes s s' hs hs'
    exact ⟨hR pre e post hes s s' hs hs', hS pre e post hes s s' hs hs'⟩

/-- A condition on the events alone is checked position by position. -/
theorem along_of_positions {C : List ε → ε → Prop} {s₀ : σ} {es : List ε}
    (h : ∀ i, (hi : i < es.length) → C (es.take i) es[i]) :
    Along step (fun pre _ e _ => C pre e) s₀ es := by
  rintro pre e post rfl s s' - -
  have hpos := h pre.length (by simp)
  simpa using hpos

/-- The events after the first `a`. -/
def after [DecidableEq ε] (a : ε) : List ε → List ε
  | [] => []
  | e :: es => if e = a then es else after a es

theorem after_append_of_mem [DecidableEq ε] {a : ε} (es' : List ε) : ∀ {es : List ε}, a ∈ es →
    after a (es ++ es') = after a es ++ es'
  | e :: es, h => by
    simp only [List.cons_append, after]
    split_ifs with he
    · rfl
    · exact after_append_of_mem es' ((List.mem_cons.mp h).resolve_left (Ne.symm he))

theorem after_concat_self [DecidableEq ε] {a : ε} : ∀ {es : List ε}, a ∉ es →
    after a (es ++ [a]) = []
  | [], _ => by simp [after]
  | e :: es, h => by
    obtain ⟨hne, hnot⟩ := not_or.mp (mt List.mem_cons.mpr h)
    simp only [List.cons_append, after, if_neg (Ne.symm hne)]
    exact after_concat_self hnot

theorem mem_of_mem_after [DecidableEq ε] {a e : ε} : ∀ {es : List ε}, e ∈ after a es → e ∈ es
  | x :: es, h => by
    simp only [after] at h
    split_ifs at h
    · exact List.mem_cons_of_mem _ h
    · exact List.mem_cons_of_mem _ (mem_of_mem_after h)

/-- If every step is mirrored by a run of another system, so is every run. -/
theorem run_project {τ δ : Type} (step' : τ → δ → Option τ) (π : σ → τ) (f : ε → List δ)
    (h : ∀ s e s', step s e = some s' → run step' (π s) (f e) = some (π s')) :
    ∀ {es : List ε} {s s' : σ}, run step s es = some s' →
      run step' (π s) (es.flatMap f) = some (π s')
  | [], s, s', hr => by cases hr; rfl
  | e :: es, s, s', hr => by
    obtain ⟨m, hm, hr⟩ := Option.bind_eq_some_iff.mp hr
    rw [List.flatMap_cons, run_append, h s e m hm]
    exact run_project step' π f h hr

/-- Dropping events: kept events are matched step for step, dropped events go unnoticed. -/
theorem run_filter {R : σ → σ → Prop} (keep : ε → Bool)
    (hkeep : ∀ s t e s', R s t → keep e = true → step s e = some s' →
      ∃ t', step t e = some t' ∧ R s' t')
    (hdrop : ∀ s t e s', R s t → keep e = false → step s e = some s' → R s' t) :
    ∀ {es : List ε} {s t s' : σ}, R s t → run step s es = some s' →
      ∃ t', run step t (es.filter keep) = some t' ∧ R s' t'
  | [], s, t, s', hst, hr => by cases hr; exact ⟨t, rfl, hst⟩
  | e :: es, s, t, s', hst, hr => by
    obtain ⟨m, hm, hr⟩ := Option.bind_eq_some_iff.mp hr
    cases hk : keep e with
    | true =>
      obtain ⟨t₁, ht₁, hrel⟩ := hkeep s t e m hst hk hm
      obtain ⟨t', ht', hrel'⟩ := run_filter keep hkeep hdrop hrel hr
      exact ⟨t', by rw [List.filter_cons_of_pos hk, run, ht₁]; exact ht', hrel'⟩
    | false =>
      obtain ⟨t', ht', hrel'⟩ := run_filter keep hkeep hdrop (hdrop s t e m hst hk hm) hr
      exact ⟨t', by rw [List.filter_cons_of_neg (by simp [hk])]; exact ht', hrel'⟩

/-- Forward simulation: if every step that satisfies `C` is matched by a run of the abstract system, so
    is every run along `C`. The relation may lean on an invariant `I`. -/
theorem along_simulates {τ δ : Type} {step' : τ → δ → Option τ} {I : List ε → σ → Prop}
    {R : σ → τ → Prop} {C : List ε → σ → ε → σ → Prop} {s₀ : σ} {t₀ : τ} (h0 : I [] s₀)
    (hR0 : R s₀ t₀)
    (hkeep : ∀ pre s e s', I pre s → step s e = some s' → C pre s e s' → I (pre ++ [e]) s')
    (hsim : ∀ pre s e s' t, I pre s → R s t → step s e = some s' → C pre s e s' →
      ∃ ds t', run step' t ds = some t' ∧ R s' t')
    {es : List ε} {s : σ} (hC : Along step C s₀ es) (hr : run step s₀ es = some s) :
    ∃ ds t, run step' t₀ ds = some t ∧ R s t := by
  have h := along_history (I := fun pre s => I pre s ∧ ∃ ds t, run step' t₀ ds = some t ∧ R s t)
    ⟨h0, [], t₀, rfl, hR0⟩ ?_ hC es [] (List.append_nil es).symm s hr
  · exact h.2
  · rintro pre s e s' ⟨hI, ds, t, ht, hR⟩ hs hc
    obtain ⟨ds', t', ht', hR'⟩ := hsim pre s e s' t hI hR hs hc
    refine ⟨hkeep pre s e s' hI hs hc, ds ++ ds', t', ?_, hR'⟩
    rw [run_append, ht]
    exact ht'

end Schemes
