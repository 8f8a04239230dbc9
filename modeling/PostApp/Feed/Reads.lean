import PostApp.Feed.Posts
import PostApp.Schemes.Moments

/-! The feed never goes back in time.

    The rows of a `HomeVC` are behind the replica of its device, and the replica is behind the server. How
    far behind may change, but the moment they stand for only moves forward: the rows are always those
    of a replica that the device has had, made of all the server's data of one moment, the device's own unanswered
    writes, and nothing else; and no later rows stand for an earlier moment (`reads_move_forward`). -/

namespace PostApp.Feed
open Schemes
variable [URLSyntax]

/-- A value event has filled the rows of this screen. -/
def HomeVC.Shown (vc : HomeVC) : Prop := ∃ v, vc.listener.seen = some v

/-- These are the rows of a replica that device `c` has had: the server's data after the first `k`
    events, with the writes on top that the device was waiting for. -/
def ReadAt (db₀ : Value) (es : List Event) (c k : ℕ) (posts : List Post) : Prop :=
  ∃ now m, now <+: es ∧ run step (init db₀) now = some m ∧
    posts = observePosts ⟨postsRef, feed (m.client c).replica⟩ ∧
    Was step (init db₀) now k (fun past => past.db = (m.client c).replica.cache)

/-! ### The replica is behind the server -/

/-- The cache of device `c` is the server's data after the first `k` events. -/
def Behind (db₀ : Value) (es : List Event) (c k : ℕ) (s : State) : Prop :=
  Replica.Lags put (fun j db => Was step (init db₀) es j (fun m => m.db = db)) es.length k
    (s.client c).replica

section Replica
variable {db₀ : Value} {es : List Event} {s s' : State} {had : ℕ → Value → Prop} {K k : ℕ}

/-- A device by itself moves on by taking a message, and otherwise stays. -/
theorem lags_local {c c' : Client} {a : Local} (h : Replica.Lags put had K k c.replica)
    (ha : c.step a = some c') : ∃ k', k ≤ k' ∧ Replica.Lags put had K k' c'.replica := by
  have hmoves := moves_local ha
  generalize c'.replica = r at hmoves
  cases hmoves with
  | rest => exact ⟨k, Nat.le_refl k, h⟩
  | remove => exact ⟨k, Nat.le_refl k, h.enqueue _⟩
  | receive hr => exact h.receive hr

theorem behind_step {ev : Event} {c : ℕ} (hpre : run step (init db₀) es = some s)
    (hs : Ledger db₀ s) (h : Behind db₀ es c k s) (hstep : step s ev = some s') :
    ∃ k', k ≤ k' ∧ Behind db₀ (es ++ [ev]) c k' s' := by
  have hrun : run step (init db₀) (es ++ [ev]) = some s' := run_concat.mpr ⟨s, hpre, hstep⟩
  have hold : Replica.Lags put (fun j db => Was step (init db₀) (es ++ [ev]) j (fun m => m.db = db))
      (es ++ [ev]).length k (s.client c).replica :=
    Replica.Lags.mono h (fun _ _ hj => hj.concat ev) (by simp)
  have hsynced := (hs.serves c).synced
  cases ev with
  | device client a =>
    obtain ⟨c', hc', rfl⟩ := step_device hstep
    by_cases hk : c = client
    · subst hk
      simpa only [Behind, Function.update_self] using lags_local hold hc'
    · refine ⟨k, Nat.le_refl k, ?_⟩
      simpa only [Behind, Function.update_of_ne hk] using hold
  | savePost client n key estimate =>
    refine ⟨k, Nat.le_refl k, ?_⟩
    obtain ⟨_, -, ⟨-, rfl⟩ | ⟨author, -, -, rfl⟩⟩ := step_savePost hstep
    · exact hold
    · by_cases hk : c = client
      · subst hk
        simpa only [Behind, Function.update_self, Client.sync] using hold.enqueue _
      · simpa only [Behind, Function.update_of_ne hk] using hold
  | store client now =>
    refine ⟨k, Nat.le_refl k, ?_⟩
    obtain ⟨w, ws, -, rfl⟩ := step_store hstep
    have hnow := was_now (P := fun m => m.db = put s.db (w.path, resolve now w.value)) hrun rfl
    have hsend := hold.send hsynced hnow
    simp only [Behind, State.accept]
    split_ifs
    · exact hsend.answer (hsynced.send _) hnow true
    · exact hsend
  | reject client =>
    refine ⟨k, Nat.le_refl k, ?_⟩
    obtain rfl := step_reject hstep
    have hnow := was_now (P := fun m => m.db = s.db) hrun rfl
    by_cases hk : c = client
    · subst hk
      simpa only [Behind, Function.update_self] using hold.answer hsynced hnow false
    · simpa only [Behind, Function.update_of_ne hk] using hold

/-- The cache of a device is always the server's data of some moment, which only moves forward. -/
theorem caches_move_forward (hr : run step (init db₀) es = some s) (c : ℕ) :
    ∃ f : ℕ → ℕ, Monotone f ∧ ∀ past m, past <+: es → run step (init db₀) past = some m →
      Was step (init db₀) past (f past.length) (fun m' => m'.db = (m.client c).replica.cache) := by
  have hmoments := run_moments (I := fun pre s k => run step (init db₀) pre = some s ∧
    Ledger db₀ s ∧ Behind db₀ pre c k s) ?_ ?_ hr
  · obtain ⟨f, hf, hI⟩ := hmoments
    exact ⟨f, hf, fun past m hpast hm => (hI past m hpast hm).2.2.cache⟩
  · exact ⟨rfl, ledger_init db₀, Replica.lags_start (was_now rfl rfl) (Nat.le_refl 0)⟩
  · rintro pre s ev s' k ⟨hpre, hs, hk⟩ h
    obtain ⟨k', hle, hk'⟩ := behind_step hpre hs hk h
    exact ⟨k', hle, run_concat.mpr ⟨s, hpre, h⟩, ledger_step hs h, hk'⟩

end Replica

/-! ### The rows are behind the replica -/

/-- The feed of device `c` was `v` after the first `j` events. -/
def WasFeed (db₀ : Value) (es : List Event) (c j : ℕ) (v : Value) : Prop :=
  Was step (init db₀) es j (fun m => feed (m.client c).replica = v)

/-- The listener of `HomeVC` number `n` has delivered the feed of device `c` after the first `k` events,
    and later ones are to come. -/
structure Watches (db₀ : Value) (es : List Event) (c n k : ℕ) (s : State) : Prop where
  le : k ≤ es.length
  pending : ∀ vc, (s.client c).homes[n]? = some vc →
    Forward (WasFeed db₀ es c) es.length k vc.listener.pending
  seen : ∀ vc v, (s.client c).homes[n]? = some vc → vc.listener.seen = some v →
    WasFeed db₀ es c k v

/-- What a step does with the listener of a `HomeVC`: it attaches a new one, delivers an event, or tells
    it what the feed is now. -/
inductive Turns (n : ℕ) (c c' : Client) (ℓ' : Listener Value) : Prop
  | attach : ℓ' = .attach (feed c'.replica) → Turns n c c' ℓ'
  | fire {vc : HomeVC} {v : Value} : c.homes[n]? = some vc → vc.listener.fire = some (v, ℓ') →
      Turns n c c' ℓ'
  | notify {vc : HomeVC} : c.homes[n]? = some vc →
      ℓ' = vc.listener.notify (feed c.replica) (feed c'.replica) → Turns n c c' ℓ'

section Rows
variable {db₀ : Value} {es : List Event} {s s' : State} {c n k : ℕ}

/-- Only a value event moves the listener in a step of the `HomeVC` itself. -/
theorem listener_own {currentUser : Option String} {vc vc' : HomeVC} {a : AtHome}
    (h : vc.step currentUser a = some vc') :
    vc'.listener = vc.listener ∨ ∃ v, vc.listener.fire = some (v, vc'.listener) := by
  cases a with
  | edit text =>
    cases h
    exact Or.inl rfl
  | valueEvent =>
    obtain ⟨v, ℓ, hf, rfl⟩ := home_valueEvent h
    exact Or.inr ⟨v, hf⟩
  | editActions row =>
    obtain ⟨_, -, rfl⟩ := home_editActions h
    exact Or.inl rfl
  | completion =>
    obtain ⟨_, _, -, ⟨-, rfl⟩ | ⟨-, rfl⟩⟩ := home_completion h
    · exact Or.inl rfl
    · exact Or.inl rfl

theorem turns_step {ev : Event} (h : step s ev = some s') {vc' : HomeVC}
    (hvc' : (s'.client c).homes[n]? = some vc') :
    Turns n (s.client c) (s'.client c) vc'.listener := by
  cases turn_step h hvc' with
  | load => exact .attach rfl
  | own hvc hstep hfeed =>
    rcases listener_own hstep with hsame | ⟨v, hf⟩
    · exact .notify hvc (by rw [hsame, hfeed, Listener.notify_self])
    · exact .fire hvc hf
  | told _ hvc => exact .notify hvc rfl
  | answered _ hvc => exact .notify hvc rfl

theorem watches_step {ev : Event} (hpre : run step (init db₀) es = some s)
    (h : Watches db₀ es c n k s) (hstep : step s ev = some s') :
    ∃ k', k ≤ k' ∧ Watches db₀ (es ++ [ev]) c n k' s' := by
  have hrun : run step (init db₀) (es ++ [ev]) = some s' := run_concat.mpr ⟨s, hpre, hstep⟩
  have hnow : WasFeed db₀ (es ++ [ev]) c (es ++ [ev]).length (feed (s'.client c).replica) :=
    was_now hrun rfl
  have hlen : es.length ≤ (es ++ [ev]).length := by simp
  have hpending : ∀ vc, (s.client c).homes[n]? = some vc →
      Forward (WasFeed db₀ (es ++ [ev]) c) (es ++ [ev]).length k vc.listener.pending :=
    fun vc hvc => (h.pending vc hvc).mono (fun _ _ hj => hj.concat ev) hlen
  cases hvc' : (s'.client c).homes[n]? with
  | none =>
    refine ⟨k, Nat.le_refl k, h.le.trans hlen, ?_, ?_⟩
    · intro _ hvc
      cases hvc'.symm.trans hvc
    · intro _ _ hvc
      cases hvc'.symm.trans hvc
  | some vc' =>
    cases turns_step hstep hvc' with
    | attach hℓ =>
      refine ⟨k, Nat.le_refl k, h.le.trans hlen, ?_, ?_⟩
      · intro _ hvc
        cases hvc'.symm.trans hvc
        rw [hℓ]
        exact .cons (h.le.trans hlen) hnow (.nil (Nat.le_refl _))
      · intro _ v hvc hv
        cases hvc'.symm.trans hvc
        rw [hℓ] at hv
        cases hv
    | @fire vc v hvc hf =>
      obtain ⟨j, hj, hv, hrest⟩ := Listener.forward_fire (hpending vc hvc) hf
      obtain ⟨vs, -, hℓ⟩ := Listener.fire_eq.mp hf
      refine ⟨j, hj, hrest.le, ?_, ?_⟩
      · intro _ hvc₁
        cases hvc'.symm.trans hvc₁
        exact hrest
      · intro _ w hvc₁ hw
        cases hvc'.symm.trans hvc₁
        rw [hℓ] at hw
        cases hw
        exact hv
    | @notify vc hvc hℓ =>
      refine ⟨k, Nat.le_refl k, h.le.trans hlen, ?_, ?_⟩
      · intro _ hvc₁
        cases hvc'.symm.trans hvc₁
        rw [hℓ]
        exact Listener.forward_notify (hpending vc hvc) hnow
      · intro _ v hvc₁ hv
        cases hvc'.symm.trans hvc₁
        rw [hℓ, Listener.notify_seen] at hv
        exact (h.seen vc v hvc hv).concat ev

/-- The rows of a `HomeVC` are always those of the replica at some moment, which only moves forward. -/
theorem rows_move_forward (hr : run step (init db₀) es = some s) (c n : ℕ) :
    ∃ g : ℕ → ℕ, Monotone g ∧ ∀ past m, past <+: es → run step (init db₀) past = some m →
      ∀ vc, (m.client c).homes[n]? = some vc → vc.Shown → Was step (init db₀) past (g past.length)
        (fun m' => vc.posts = observePosts ⟨postsRef, feed (m'.client c).replica⟩) := by
  have hmoments := run_moments (I := fun pre s k => run step (init db₀) pre = some s ∧
    Ledger db₀ s ∧ Watches db₀ pre c n k s) ?_ ?_ hr
  · obtain ⟨g, hg, hI⟩ := hmoments
    refine ⟨g, hg, ?_⟩
    rintro past m hpast hm vc hvc ⟨v, hv⟩
    obtain ⟨-, hs, hwatches⟩ := hI past m hpast hm
    obtain ⟨now, m', hnow, hlen, hm', hfeed⟩ := hwatches.seen vc v hvc hv
    have hposts := ((hs.serves c).homes vc (List.mem_of_getElem? hvc)).shown v hv
    rw [← hfeed] at hposts
    exact ⟨now, m', hnow, hlen, hm', hposts⟩
  · exact ⟨rfl, ledger_init db₀, Nat.le_refl 0, fun _ h => (by cases h), fun _ _ h => (by cases h)⟩
  · rintro pre s ev s' k ⟨hpre, hs, hk⟩ h
    obtain ⟨k', hle, hk'⟩ := watches_step hpre hk h
    exact ⟨k', hle, run_concat.mpr ⟨s, hpre, h⟩, ledger_step hs h, hk'⟩

end Rows

/-- In every run, the rows of a `HomeVC` are at any moment those of a replica its device has had, made
    of all the server's data of one moment and of the device's own unanswered writes; and this moment
    never goes back. -/
theorem reads_move_forward (db₀ : Value) (es : List Event) (s : State)
    (hr : run step (init db₀) es = some s) (c n : ℕ) :
    ∃ f : ℕ → ℕ, Monotone f ∧ ∀ past m, past <+: es → run step (init db₀) past = some m →
      ∀ vc, (m.client c).homes[n]? = some vc → vc.Shown →
        ReadAt db₀ past c (f past.length) vc.posts := by
  obtain ⟨f, hf, hcache⟩ := caches_move_forward hr c
  obtain ⟨g, hg, hrows⟩ := rows_move_forward hr c n
  refine ⟨f ∘ g, hf.comp hg, ?_⟩
  intro past m hpast hm vc hvc hshown
  obtain ⟨now, m', hnow, hlen, hm', hposts⟩ := hrows past m hpast hm vc hvc hshown
  refine ⟨now, m', hnow, hm', hposts, ?_⟩
  rw [Function.comp_apply, ← hlen]
  exact hcache now m' (hnow.trans hpast) hm'

omit [URLSyntax] in
/-- Bob's device shows Ann's first post while the second, stored already, is on its way to him. -/
theorem reads_move_forward_late : ∃ (_ : URLSyntax) (es : List Event) (s : State) (vc : HomeVC)
    (f : ℕ → ℕ), run step (init .null) es = some s ∧ s.stored.length = 2 ∧
      (s.client 1).homes[0]? = some vc ∧ vc.posts.length = 1 ∧
      Monotone f ∧ ReadAt .null es 1 (f es.length) vc.posts := by
  let _ := nonEmptyURLs
  let es : List Event := [.device 0 (.profile (some ann)), .device 0 .viewDidLoad,
    .device 1 .viewDidLoad, .device 0 (.home 0 (.edit "hi")), .savePost 0 0 "-L1" 1,
    .device 0 (.home 0 (.edit "you")), .savePost 0 0 "-L2" 2, .store 0 3, .store 0 4,
    .device 1 .receive, .device 1 (.home 0 .valueEvent), .device 1 (.home 0 .valueEvent)]
  obtain ⟨s, hs, hp⟩ := exists_of_run_any step (init .null) es
    (fun s => s.stored.length = 2 ∧ (s.client 1).homes[0]?.any (fun vc =>
      vc.posts.length = 1 ∧ vc.listener.seen.isSome = true) = true) (by decide)
  obtain ⟨hstored, hhome⟩ := decide_eq_true_iff.mp hp
  obtain ⟨vc, hvc, hshown⟩ := (Option.any_eq_true _ _).mp hhome
  obtain ⟨hposts, hseen⟩ := decide_eq_true_iff.mp hshown
  obtain ⟨v, hv⟩ := Option.isSome_iff_exists.mp hseen
  obtain ⟨f, hf, hread⟩ := reads_move_forward .null es s hs 1 0
  exact ⟨nonEmptyURLs, es, s, vc, f, hs, hstored, hvc, hposts, hf,
    hread es s (List.prefix_refl es) hs vc hvc ⟨v, hv⟩⟩

end PostApp.Feed
