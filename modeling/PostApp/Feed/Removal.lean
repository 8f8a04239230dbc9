import PostApp.Feed.Visibility

/-! A removed post does not come back.

    A post leaves the store when its removal is applied, or never gets there when its save is refused.
    Its key is not used again, so nothing brings it back: not a late message, not the guess of a save,
    not a refused removal. Once a device has taken the messages that were on their way to it then, the
    post is never in its feed again (`removed_for_good`). -/

namespace PostApp.Feed
open Schemes
variable [URLSyntax]

/-- The server has judged the save of `e` on device `d` and does not have the post stored. -/
structure Over (d : ℕ) (e : Entry) (s : State) : Prop where
  tapped : (d, e) ∈ s.taps
  judged : e ∉ saves (s.client d).replica
  gone : e ∉ s.stored

/-- The store does not have this post. -/
def Lacks (e : Entry) (db : Value) : Prop :=
  ∀ post, postOf (snapshotAt (postsRef ++ [e.key]) db) = some post → entryOf post ≠ e

/-- The writes of `HomeVC` as the server applies them, but for the save of this post. -/
def Spares (e : Entry) (u : Path × Value) : Prop :=
  ∃ k, u.1 = postsRef ++ [k] ∧ (k = e.key → u.2 = .null)

section Step
variable {db₀ : Value} {s s' : State} {c d : ℕ} {e : Entry} {w : Write} {n : ℕ}

theorem lacks_put {db : Value} {u : Path × Value} (h : Lacks e db) (hu : Spares e u) :
    Lacks e (put db u) := by
  obtain ⟨path, v⟩ := u
  obtain ⟨k, rfl, hnull⟩ := hu
  intro post hpost
  by_cases hk : k = e.key
  · obtain rfl := hnull hk
    rw [hk, snapshotAt_put_self, postOf_null] at hpost
    cases hpost
  · rw [snapshotAt_put hk] at hpost
    exact h post hpost

/-- No save that waits anywhere uses the key again. -/
theorem Over.other_key (h : Over d e s) (hs : Ledger db₀ s) {e' : Entry}
    (he' : e' ∈ saves (s.client c).replica) : e'.key ≠ e.key := by
  intro hkey
  obtain ⟨rfl, rfl⟩ := Prod.mk.inj (hs.tap_unique (hs.tapped c e' he').1 h.tapped hkey)
  exact h.judged he'

/-- A write that waits in a queue spares the post, with any time filled in. -/
theorem Over.spares (h : Over d e s) (hs : Ledger db₀ s) (hw : w ∈ (s.client c).replica.queue)
    (now : Rat) : Spares e (w.path, resolve now w.value) := by
  have hproper := (hs.serves c).proper w hw
  cases hproper with
  | save e' estimate n =>
    exact ⟨e'.key, rfl, fun hk => absurd hk (h.other_key hs (List.mem_filterMap.mpr ⟨_, hw, rfl⟩))⟩
  | remove k => exact ⟨k, rfl, fun _ => rfl⟩

theorem over_step {ev : Event} (hs : Ledger db₀ s) (ho : Over d e s) (h : step s ev = some s') :
    Over d e s' := by
  cases ev with
  | device client a =>
    obtain ⟨c', hc', rfl⟩ := step_device h
    refine { ho with judged := ?_ }
    exact (Function.forall_update_iff s.client (fun k c => k = d → e ∉ saves c.replica)).mpr
      ⟨fun hk => by rw [saves_step hc', hk]; exact ho.judged, fun k _ hk => by rw [hk]; exact ho.judged⟩
      d rfl
  | savePost client n key estimate =>
    obtain ⟨_, -, ⟨-, rfl⟩ | ⟨author, -, ⟨hnew, -⟩, rfl⟩⟩ := step_savePost h
    · exact ho
    · refine ⟨List.mem_append_left _ ho.tapped, ?_, ho.gone⟩
      refine (Function.forall_update_iff s.client (fun k c => k = d → e ∉ saves c.replica)).mpr
        ⟨?_, fun k _ hk => by rw [hk]; exact ho.judged⟩ d rfl
      rintro rfl hmem
      rw [Client.sync, saves_enqueue, Option.toList_some] at hmem
      rcases List.mem_append.mp hmem with hmem | hmem
      · exact ho.judged hmem
      · exact hnew _ ho.tapped (congrArg Entry.key (List.mem_singleton.mp hmem))
  | store client now =>
    obtain ⟨w, ws, hq, rfl⟩ := step_store h
    have hw : w ∈ (s.client client).replica.queue := by rw [hq]; exact List.mem_cons_self ..
    refine ⟨ho.tapped, fun hmem => ho.judged ((saves_accept ..).subset hmem), ?_⟩
    intro hmem
    have hproper := (hs.serves client).proper w hw
    cases hproper with
    | save e' estimate n =>
      have hne := ho.other_key hs (List.mem_filterMap.mpr ⟨_, hw, rfl⟩)
      rcases List.mem_append.mp hmem with hmem | hmem
      · exact ho.gone hmem
      · exact hne (by rw [List.mem_singleton.mp hmem])
    | remove k => exact ho.gone (mem_record_remove.mp hmem).1
  | reject client =>
    obtain rfl := step_reject h
    refine { ho with judged := ?_ }
    refine (Function.forall_update_iff s.client (fun k c => k = d → e ∉ saves c.replica)).mpr
      ⟨?_, fun k _ hk => by rw [hk]; exact ho.judged⟩ d rfl
    rintro rfl hmem
    exact ho.judged ((saves_answer _ _).subset hmem)

/-- Device `c` will have forgotten the post when it has taken `n` more messages. -/
def Forgets (e : Entry) (n : ℕ) (c : Client) : Prop :=
  Replica.CarriesAfter put Write.guess (Lacks e) (Spares e) n c.replica

theorem forgets_local {db : Value} {a : Local} {c c' : Client} (hs : Serves db c) (h : Forgets e n c)
    (ha : c.step a = some c') : Forgets e (n - if a = .receive then 1 else 0) c' := by
  rw [Forgets] at h ⊢
  have hmoves := moves_local ha
  generalize c'.replica = r at hmoves
  cases hmoves with
  | rest hne => simpa only [if_neg hne, Nat.sub_zero] using h
  | remove hvc hb =>
    rw [hs.action_ref hvc hb]
    exact h.enqueue ⟨_, rfl, fun _ => rfl⟩
  | receive hr => exact h.receive (fun _ _ hd hu => lacks_put hd hu) hr

theorem forgets_step {ev : Event} (hs : Ledger db₀ s) (ho : Over d e s)
    (hf : Forgets e n (s.client c)) (h : step s ev = some s') :
    Forgets e (n - if ev = .device c .receive then 1 else 0) (s'.client c) := by
  cases ev with
  | device client a =>
    obtain ⟨c', hc', rfl⟩ := step_device h
    by_cases hk : client = c
    · subst hk
      have hlocal := forgets_local (hs.serves client) hf hc'
      simpa only [Event.device.injEq, true_and, Function.update_self] using hlocal
    · rw [if_neg (fun heq => hk (by cases heq; rfl))]
      simpa only [Function.update_of_ne (Ne.symm hk), Nat.sub_zero] using hf
  | savePost client m key estimate =>
    obtain ⟨_, -, ⟨-, rfl⟩ | ⟨author, -, ⟨hnew, -⟩, rfl⟩⟩ := step_savePost h
    · exact hf
    · refine (Function.forall_update_iff s.client (fun k c' => k = c → Forgets e n c')).mpr
        ⟨?_, fun k _ hk => by rw [hk]; exact hf⟩ c rfl
      rintro rfl
      refine Replica.CarriesAfter.enqueue hf ⟨key, rfl, ?_⟩
      rintro rfl
      exact absurd rfl (hnew _ ho.tapped)
  | store client now =>
    obtain ⟨w, ws, hq, rfl⟩ := step_store h
    have hsend := Replica.CarriesAfter.send hf
      (ho.spares hs (w := w) (by rw [hq]; exact List.mem_cons_self ..) now)
    rw [if_neg (by simp), Nat.sub_zero]
    simp only [Forgets, State.accept]
    split_ifs
    · exact hsend.answer true
    · exact hsend
  | reject client =>
    obtain rfl := step_reject h
    refine (Function.forall_update_iff s.client (fun k c' => k = c → Forgets e n c')).mpr
      ⟨?_, fun k _ hk => by rw [hk]; exact hf⟩ c rfl
    rintro rfl
    exact Replica.CarriesAfter.answer hf false

end Step

/-- In every run: when the save of a post has been judged and the post is not stored, it is never
    stored again; and when a device has taken the messages that were on their way to it at that moment,
    the post is never in its feed again, and never in a row of a `HomeVC` whose value events have been
    delivered. -/
theorem removed_for_good (db₀ : Value) (pre post : List Event) (m s : State)
    (hpre : run step (init db₀) pre = some m) (hpost : run step m post = some s) (d : ℕ) (e : Entry)
    (ho : Over d e m) :
    Over d e s ∧ ∀ c,
      (m.client c).replica.inbox.length ≤ post.countP (fun ev => ev = .device c .receive) →
        (∀ p ∈ observePosts ⟨postsRef, feed (s.client c).replica⟩, entryOf p ≠ e) ∧
        ∀ vc ∈ (s.client c).homes, vc.listener.pending = [] →
          ∀ p ∈ vc.posts, entryOf p ≠ e := by
  have hm : Ledger db₀ m := (confined_run hpre).1
  have hrun : ∀ c, Ledger db₀ s ∧ Over d e s ∧ Forgets e ((m.client c).replica.inbox.length -
      post.countP (fun ev => ev = .device c .receive)) (s.client c) := by
    intro c
    refine run_history (I := fun es s => Ledger db₀ s ∧ Over d e s ∧
      Forgets e ((m.client c).replica.inbox.length -
        es.countP (fun ev => ev = .device c .receive)) (s.client c)) ?_ ?_ hpost
    · refine ⟨hm, ho, (hm.serves c).synced.carriesAfter ?_ ?_⟩
      · rintro p hp rfl
        exact ho.gone ((hm.stored _).mpr ⟨p, hp, rfl⟩)
      · exact fun w hw => ho.spares hm hw w.estimate
    · rintro es s ev s' ⟨hs, ho, hf⟩ h
      refine ⟨ledger_step hs h, over_step hs ho h, ?_⟩
      have hf' := forgets_step hs ho hf h
      rw [List.countP_append, List.countP_singleton, ← Nat.sub_sub]
      simpa only [decide_eq_true_eq] using hf'
  refine ⟨(hrun 0).2.1, ?_⟩
  intro c hc
  obtain ⟨hs, -, hf⟩ := hrun c
  rw [Nat.sub_eq_zero_of_le hc] at hf
  have hview : Lacks e ((s.client c).replica.view put Write.guess) :=
    (Replica.CarriesAfter.carries hf).view (fun _ _ hd hu => lacks_put hd hu)
  have hfeed : ∀ p ∈ observePosts ⟨postsRef, feed (s.client c).replica⟩, entryOf p ≠ e := by
    rintro p hp rfl
    obtain ⟨k, hk⟩ := mem_posts.mp hp
    have hkey : p.id = k := (postOf_ref_id hk).2.1.trans (key_concat _ _ _)
    exact hview p (by rw [entryOf, hkey]; exact hk) rfl
  refine ⟨hfeed, ?_⟩
  intro vc hvc hp
  have hshows := (hs.serves c).homes vc hvc
  rw [hshows.shown _ (hshows.tracks.seen hp)]
  exact hfeed

omit [URLSyntax] in
/-- Ann removes her post while Bob's device has both the post and its removal to come. -/
theorem removed_for_good_late : ∃ (_ : URLSyntax) (pre post : List Event) (m s : State) (e : Entry),
    run step (init .null) pre = some m ∧ run step m post = some s ∧
      (m.client 1).replica.inbox.length = 2 ∧ Over 0 e m ∧
      ∀ p ∈ observePosts ⟨postsRef, feed (s.client 1).replica⟩, entryOf p ≠ e := by
  let _ := nonEmptyURLs
  let e : Entry := ⟨"-L1", ann, "hi"⟩
  let pre : List Event := [.device 0 (.profile (some ann)), .device 0 (.auth (some "A")),
    .device 0 .viewDidLoad, .device 0 (.home 0 (.edit "hi")), .savePost 0 0 "-L1" 1,
    .device 0 (.home 0 .valueEvent), .device 0 (.home 0 .valueEvent), .store 0 2,
    .device 0 (.home 0 (.editActions 0)), .device 0 (.delete 0 0), .store 0 3]
  let post : List Event := [.device 1 .receive, .device 1 .receive, .device 1 .viewDidLoad]
  obtain ⟨m, hm, hp⟩ := exists_of_run_any step (init .null) pre
    (fun s => ((0, e) ∈ s.taps ∧ e ∉ saves (s.client 0).replica ∧ e ∉ s.stored ∧
      (s.client 1).replica.inbox.length = 2) ∧ (run step s post).isSome = true) (by decide)
  obtain ⟨⟨htap, hjudged, hgone, hinbox⟩, hrest⟩ := decide_eq_true_iff.mp hp
  obtain ⟨s, hs⟩ := Option.isSome_iff_exists.mp hrest
  obtain ⟨-, hnever⟩ := removed_for_good .null pre post m s hm hs 0 e ⟨htap, hjudged, hgone⟩
  exact ⟨nonEmptyURLs, pre, post, m, s, e, hm, hs, hinbox, ⟨htap, hjudged, hgone⟩,
    (hnever 1 (by rw [hinbox]; decide)).1⟩

end PostApp.Feed
