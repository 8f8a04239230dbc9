import Mathlib.Order.Lattice
import PostApp.Schemes.Listener
import PostApp.Schemes.Replica
import PostApp.Schemes.Run

/-! Reading the past, forward.

    What is on its way to a reader are values that the sender had at some moments. If these do not go
    back (`Forward`), taking the next value moves the reader forward: so do the events of a listener
    (`Listener.forward_fire`) and the messages of a replica (`Replica.Lags.receive`). Along a run the
    moments that a reader has reached then form a monotone function (`run_moments`). -/

namespace Schemes

section Run
variable {σ ε : Type} {step : σ → ε → Option σ} {s₀ s : σ} {es : List ε} {e : ε} {k : ℕ}
variable {P : σ → Prop}

/-- After the first `k` of these events the system was in a state with the property `P`. -/
def Was (step : σ → ε → Option σ) (s₀ : σ) (es : List ε) (k : ℕ) (P : σ → Prop) : Prop :=
  ∃ past m, past <+: es ∧ past.length = k ∧ run step s₀ past = some m ∧ P m

theorem was_now (h : run step s₀ es = some s) (hP : P s) : Was step s₀ es es.length P :=
  ⟨es, s, List.prefix_refl es, rfl, h, hP⟩

theorem Was.concat (h : Was step s₀ es k P) (e : ε) : Was step s₀ (es ++ [e]) k P := by
  obtain ⟨past, m, hpast, hk, hm, hP⟩ := h
  exact ⟨past, m, hpast.trans (List.prefix_append es [e]), hk, hm, hP⟩

/-- If every step can move a moment forward, the moments of a run form a monotone function. -/
theorem run_moments {I : List ε → σ → ℕ → Prop} (h0 : I [] s₀ 0)
    (hstep : ∀ pre s e s' k, I pre s k → step s e = some s' → ∃ k', k ≤ k' ∧ I (pre ++ [e]) s' k')
    (h : run step s₀ es = some s) : ∃ f : ℕ → ℕ, Monotone f ∧
      ∀ past m, past <+: es → run step s₀ past = some m → I past m (f past.length) := by
  induction es using List.reverseRecOn generalizing s with
  | nil =>
    refine ⟨fun _ => 0, monotone_const, ?_⟩
    intro past m hpast hm
    obtain rfl := List.prefix_nil.mp hpast
    cases hm
    exact h0
  | append_singleton es e ih =>
    obtain ⟨m, hm, hs⟩ := run_concat.mp h
    obtain ⟨f, hf, hI⟩ := ih hm
    obtain ⟨k', hle, hI'⟩ := hstep es m e s _ (hI es m (List.prefix_refl es) hm) hs
    refine ⟨fun i => if i ≤ es.length then f i else k', ?_, ?_⟩
    · intro i j hij
      by_cases hj : j ≤ es.length
      · simp only [if_pos hj, if_pos (hij.trans hj)]
        exact hf hij
      · simp only [if_neg hj]
        split_ifs with hi
        · exact (hf hi).trans hle
        · exact Nat.le_refl k'
    · intro past m' hpast hm'
      rcases List.prefix_concat_iff.mp hpast with rfl | hpast
      · obtain rfl := Option.some.inj (h.symm.trans hm')
        have hnot : ¬ (es ++ [e]).length ≤ es.length := by simp
        simpa only [if_neg hnot] using hI'
      · simpa only [if_pos hpast.length_le] using hI past m' hpast hm'

end Run

/-! ### Values on their way -/

/-- These are values of moments that do not go back, none before `k` and none after `K`. -/
inductive Forward {V : Type} (had : ℕ → V → Prop) (K : ℕ) : ℕ → List V → Prop
  | nil {k : ℕ} : k ≤ K → Forward had K k []
  | cons {k j : ℕ} {v : V} {vs : List V} : k ≤ j → had j v → Forward had K j vs →
      Forward had K k (v :: vs)

namespace Forward
variable {V : Type} {had had' : ℕ → V → Prop} {K K' k : ℕ} {v : V} {vs : List V}

theorem le (h : Forward had K k vs) : k ≤ K := by
  induction h with
  | nil hk => exact hk
  | cons hk _ _ ih => exact hk.trans ih

theorem mono (h : Forward had K k vs) (hhad : ∀ j v, had j v → had' j v) (hK : K ≤ K') :
    Forward had' K' k vs := by
  induction h with
  | nil hk => exact .nil (hk.trans hK)
  | cons hk hv _ ih => exact .cons hk (hhad _ _ hv) ih

/-- A value of the last moment can follow. -/
theorem concat (h : Forward had K k vs) (hv : had K v) : Forward had K k (vs ++ [v]) := by
  induction h with
  | nil hk => exact .cons hk hv (.nil (Nat.le_refl K))
  | cons hk hw _ ih => exact .cons hk hw ih

end Forward

namespace Listener
variable {V : Type} {had : ℕ → V → Prop} {K k : ℕ} {ℓ ℓ' : Listener V} {old new v : V}

theorem forward_notify [DecidableEq V] (h : Forward had K k ℓ.pending) (hnew : had K new) :
    Forward had K k (ℓ.notify old new).pending := by
  unfold notify
  split_ifs
  · exact h
  · exact h.concat hnew

/-- Delivering an event moves on to its moment. -/
theorem forward_fire (h : Forward had K k ℓ.pending) (hf : ℓ.fire = some (v, ℓ')) :
    ∃ j, k ≤ j ∧ had j v ∧ Forward had K j ℓ'.pending := by
  obtain ⟨vs, hp, rfl⟩ := fire_eq.mp hf
  rw [hp] at h
  cases h with
  | cons hk hv hvs => exact ⟨_, hk, hv, hvs⟩

end Listener

namespace Replica
variable {D U W : Type} {write : D → U → D} {had had' : ℕ → D → Prop} {K K' k : ℕ} {d : D}
variable {r r' : Replica D U W}

/-- The data that the messages lead to, one after the other. -/
def arrivals (write : D → U → D) : D → List (Update U) → List D
  | _, [] => []
  | d, u :: us => arrive write d u :: arrivals write (arrive write d u) us

theorem arrivals_concat (u : Update U) (d : D) (us : List (Update U)) :
    arrivals write d (us ++ [u]) =
      arrivals write d us ++ [arrive write (us.foldl (arrive write) d) u] := by
  induction us generalizing d with
  | nil => rfl
  | cons v us ih => rw [List.cons_append, arrivals, ih, arrivals, List.foldl_cons, List.cons_append]

/-- The cache is what the server had at the moment `k`, and the messages on their way lead on through
    later moments, `K` at the latest. -/
structure Lags (write : D → U → D) (had : ℕ → D → Prop) (K k : ℕ) (r : Replica D U W) : Prop where
  cache : had k r.cache
  inbox : Forward had K k (arrivals write r.cache r.inbox)

theorem lags_start (hd : had k d) (hk : k ≤ K) : Lags write had K k (start d : Replica D U W) :=
  ⟨hd, .nil hk⟩

theorem Lags.mono (h : Lags write had K k r) (hhad : ∀ j d, had j d → had' j d) (hK : K ≤ K') :
    Lags write had' K' k r :=
  ⟨hhad _ _ h.cache, h.inbox.mono hhad hK⟩

theorem Lags.enqueue (h : Lags write had K k r) (w : W) : Lags write had K k (r.enqueue w) :=
  ⟨h.cache, h.inbox⟩

/-- The last moment is the one of a write that the server has just applied. -/
theorem Lags.send (h : Lags write had K k r) (hr : Synced write d r) {u : U}
    (hd : had K (write d u)) : Lags write had K k (r.send u) := by
  refine ⟨h.cache, ?_⟩
  rw [Replica.send, arrivals_concat, hr.cache]
  exact h.inbox.concat hd

theorem Lags.answer (h : Lags write had K k r) (hr : Synced write d r) (hd : had K d) (ok : Bool) :
    Lags write had K k (r.answer ok) := by
  unfold Replica.answer
  split
  · exact h
  · refine ⟨h.cache, ?_⟩
    rw [arrivals_concat, hr.cache]
    exact h.inbox.concat hd

/-- Taking a message moves on to the moment it is of. -/
theorem Lags.receive (h : Lags write had K k r) {o : Option (W × Bool)}
    (hr : r.receive write = some (o, r')) : ∃ k', k ≤ k' ∧ Lags write had K k' r' := by
  have hinbox := h.inbox
  rcases receive_eq.mp hr with ⟨u, us, hin, -, rfl⟩ | ⟨ok, us, w, ws, hin, -, -, rfl⟩
  · rw [hin] at hinbox
    cases hinbox with
    | cons hk hd hrest => exact ⟨_, hk, hd, hrest⟩
  · rw [hin] at hinbox
    cases hinbox with
    | cons hk hd hrest => exact ⟨_, hk, hd, hrest⟩

end Replica
end Schemes
