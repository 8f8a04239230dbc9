import Mathlib.Data.Option.Basic
import Mathlib.Data.List.Basic
import Mathlib.Algebra.GroupWithZero.Nat

/-! Value listeners.

    A listener on one location fires for its initial data and again whenever the data changes. The
    events it has not delivered yet wait in `pending`, oldest first; `seen` is the value it delivered
    last. `Tracks` is the invariant that makes a listener useful: its newest value, delivered or
    waiting, is the current one. Once nothing is pending, what it showed last is therefore current
    (`Tracks.seen`). A relation that holds between the value of a location and every later one holds
    along the values of a listener (`pairwise_notify`, `pairwise_fire`). Several listeners on one
    location owe one event each for every change (`owed_notify`). -/

namespace Schemes

/-- A listener: the events still to be delivered, and the value delivered last. -/
structure Listener (V : Type) where
  pending : List V
  seen : Option V
  deriving DecidableEq

namespace Listener
variable {V : Type}

/-- A new listener owes an event with the initial data. -/
def attach (v : V) : Listener V := ⟨[v], none⟩

/-- The data went from `old` to `new`: an actual change raises an event. -/
def notify [DecidableEq V] (old new : V) (ℓ : Listener V) : Listener V :=
  if old = new then ℓ else { ℓ with pending := ℓ.pending ++ [new] }

/-- Deliver the oldest pending event. -/
def fire (ℓ : Listener V) : Option (V × Listener V) :=
  match ℓ.pending with
  | [] => none
  | v :: vs => some (v, ⟨vs, some v⟩)

/-- The newest value of the listener is `v`. -/
def Tracks (ℓ : Listener V) (v : V) : Prop :=
  ℓ.pending.getLast? = some v ∨ (ℓ.pending = [] ∧ ℓ.seen = some v)

theorem fire_eq {ℓ ℓ' : Listener V} {v : V} :
    ℓ.fire = some (v, ℓ') ↔ ∃ vs, ℓ.pending = v :: vs ∧ ℓ' = ⟨vs, some v⟩ := by
  unfold fire
  cases ℓ.pending with
  | nil => simp
  | cons w ws => simp only [Option.some.injEq, Prod.mk.injEq, List.cons.injEq]; grind

theorem tracks_attach (v : V) : (attach v).Tracks v := Or.inl rfl

theorem Tracks.notify [DecidableEq V] {ℓ : Listener V} {old : V} (h : ℓ.Tracks old) (new : V) :
    (ℓ.notify old new).Tracks new := by
  unfold Listener.notify
  split_ifs with heq
  · rwa [← heq]
  · exact Or.inl (by simp)

theorem Tracks.fire {ℓ ℓ' : Listener V} {v w : V} (h : ℓ.Tracks v) (hf : ℓ.fire = some (w, ℓ')) :
    ℓ'.Tracks v := by
  obtain ⟨vs, hp, rfl⟩ := fire_eq.mp hf
  rcases h with h | ⟨h, _⟩
  · rw [hp] at h
    cases vs with
    | nil => exact Or.inr ⟨rfl, by simpa using h⟩
    | cons x xs => exact Or.inl (by simpa using h)
  · rw [hp] at h; cases h

/-- With nothing pending, the value shown last is the current one. -/
theorem Tracks.seen {ℓ : Listener V} {v : V} (h : ℓ.Tracks v) (hp : ℓ.pending = []) :
    ℓ.seen = some v := by
  rcases h with h | ⟨_, h⟩
  · rw [hp] at h; cases h
  · exact h

/-- An event that is still to come carries a value the data really had. -/
theorem mem_pending_notify [DecidableEq V] {ℓ : Listener V} {old new v : V}
    (h : v ∈ (ℓ.notify old new).pending) : v ∈ ℓ.pending ∨ v = new := by
  unfold notify at h
  split_ifs at h
  · exact Or.inl h
  · simpa using h

@[simp] theorem notify_seen [DecidableEq V] (ℓ : Listener V) (old new : V) :
    (ℓ.notify old new).seen = ℓ.seen := by
  unfold notify; split_ifs <;> rfl

/-- Without a change there is no event. -/
@[simp] theorem notify_self [DecidableEq V] (v : V) (ℓ : Listener V) : ℓ.notify v v = ℓ := if_pos rfl

/-! ### The values of a listener -/

/-- The value delivered last and those to come, oldest first. -/
def values (ℓ : Listener V) : List V := ℓ.seen.toList ++ ℓ.pending

theorem pairwise_attach {R : V → V → Prop} (v : V) : (attach v).values.Pairwise R := by
  simp [values, attach]

theorem pairwise_notify [DecidableEq V] {R : V → V → Prop} {ℓ : Listener V} {old new : V}
    (h : ℓ.values.Pairwise R) (hnew : ∀ v ∈ ℓ.values, R v new) :
    (ℓ.notify old new).values.Pairwise R := by
  unfold notify
  split_ifs with heq
  · exact h
  · rw [values, ← List.append_assoc]
    refine List.pairwise_append.mpr ⟨h, List.pairwise_singleton R new, ?_⟩
    intro v hv w hw
    rw [List.mem_singleton.mp hw]
    exact hnew v hv

theorem pairwise_fire {R : V → V → Prop} {ℓ ℓ' : Listener V} {v : V} (h : ℓ.values.Pairwise R)
    (hf : ℓ.fire = some (v, ℓ')) : ℓ'.values.Pairwise R := by
  obtain ⟨vs, hp, rfl⟩ := fire_eq.mp hf
  rw [values, hp] at h
  exact (List.pairwise_append.mp h).2.1

/-- The value delivered last stands in the relation to the next one. -/
theorem rel_of_fire {R : V → V → Prop} {ℓ ℓ' : Listener V} {v w : V} (h : ℓ.values.Pairwise R)
    (hf : ℓ.fire = some (v, ℓ')) (hw : ℓ.seen = some w) : R w v := by
  obtain ⟨vs, hp, rfl⟩ := fire_eq.mp hf
  rw [values, hp, hw] at h
  exact List.rel_of_pairwise_cons h (List.mem_cons_self ..)

/-! ### Several listeners -/

/-- The events that these listeners have yet to deliver. -/
def owed (ℓs : List (Listener V)) : ℕ := (ℓs.map (fun ℓ => ℓ.pending.length)).sum

theorem owed_append (ℓs ℓs' : List (Listener V)) : owed (ℓs ++ ℓs') = owed ℓs + owed ℓs' := by
  rw [owed, List.map_append, List.sum_append]
  rfl

/-- New listeners owe one event each. -/
theorem owed_attach {β : Type} (v : V) (xs : List β) :
    owed (xs.map (fun _ => attach v)) = xs.length := by
  induction xs with
  | nil => rfl
  | cons x xs ih =>
    simp only [owed, List.map_cons, List.sum_cons, List.length_cons] at ih ⊢
    rw [ih, attach, List.length_singleton]
    omega

/-- A change costs one more event for every listener. -/
theorem owed_notify [DecidableEq V] {old new : V} (hne : old ≠ new) (ℓs : List (Listener V)) :
    owed (ℓs.map (notify old new)) = owed ℓs + ℓs.length := by
  induction ℓs with
  | nil => rfl
  | cons ℓ ℓs ih =>
    simp only [owed, List.map_cons, List.sum_cons, List.length_cons] at ih ⊢
    rw [ih, notify, if_neg hne, List.length_append, List.length_singleton]
    omega

/-- Delivering an event settles it. -/
theorem owed_fire {ℓs : List (Listener V)} {i : ℕ} {ℓ ℓ' : Listener V} {v : V}
    (hi : ℓs[i]? = some ℓ) (hf : ℓ.fire = some (v, ℓ')) : owed (ℓs.set i ℓ') + 1 = owed ℓs := by
  obtain ⟨vs, hp, rfl⟩ := fire_eq.mp hf
  induction ℓs generalizing i with
  | nil => cases hi
  | cons x xs ih =>
    cases i with
    | zero =>
      cases hi
      simp only [owed, List.set_cons_zero, List.map_cons, List.sum_cons, hp, List.length_cons]
      omega
    | succ i =>
      have hrest := ih hi
      simp only [owed, List.set_cons_succ, List.map_cons, List.sum_cons] at hrest ⊢
      omega

end Listener
end Schemes
