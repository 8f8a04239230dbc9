import PostApp.Feed.Invariant
import PostApp.Schemes.Run
import Mathlib.Data.List.Nodup

/-! The feed of a device against the posts that are stored.

    Saves and removals of any devices reach the server in any order. The ledger of stored posts (each
    as it was in the composer at the tap, until its removal is applied) is the abstract feed;
    `Ledger` ties the database to it. Once all events have been delivered every `HomeVC` of a device
    shows exactly the ledger, one post each, in key order (`posts_stored`). -/

namespace PostApp.Feed
open Schemes
variable [URLSyntax]

/-- The database and the writes under way agree with the ledger of stored posts. -/
structure Ledger (db₀ : Value) (s : State) : Prop where
  serves : ∀ c, Serves s.db (s.client c)
  keys : (s.taps.map (fun t => t.2.key)).Nodup
  waiting : ∀ c, (saves (s.client c).replica).Nodup
  tapped : ∀ c, ∀ e ∈ saves (s.client c).replica, (c, e) ∈ s.taps ∧ ∀ e' ∈ s.stored, e'.key ≠ e.key
  /-- the posts that decode are the stored ones -/
  stored : ∀ e, e ∈ s.stored ↔
    ∃ post, postOf (snapshotAt (postsRef ++ [e.key]) s.db) = some post ∧ entryOf post = e
  once : (s.stored.map Entry.key).Nodup
  source : ∀ e ∈ s.stored, e ∈ entries db₀ ∨ ∃ c, (c, e) ∈ s.taps

/-! ### The posts of a store -/

theorem mem_entries {db : Value} {e : Entry} : e ∈ entries db ↔
    ∃ post, postOf (snapshotAt (postsRef ++ [e.key]) db) = some post ∧ entryOf post = e := by
  simp only [entries, snapshotAt, List.mem_map, mem_observePosts, Node.get_append, Node.get_cons,
    Node.get_nil]
  constructor
  · rintro ⟨post, ⟨k, hk⟩, rfl⟩
    refine ⟨post, ?_, rfl⟩
    rw [entryOf, postOf_key hk]
    exact hk
  · rintro ⟨post, hk, he⟩
    exact ⟨post, ⟨e.key, hk⟩, he⟩

theorem entries_once (db : Value) : ((entries db).map Entry.key).Nodup := by
  rw [entries, List.map_map]
  refine List.pairwise_map.mpr ((observePosts_sorted _).imp ?_)
  intro post post' hlt heq
  exact absurd heq (ne_of_lt hlt)

omit [URLSyntax] in
theorem apart_post {k k' : String} (h : k ≠ k') : Apart (postsRef ++ [k]) (postsRef ++ [k']) := by
  simpa [postsRef, Apart] using h

omit [URLSyntax] in
/-- A write at one post leaves the others alone. -/
theorem snapshotAt_put {k k' : String} (h : k ≠ k') (v db : Value) :
    snapshotAt (postsRef ++ [k']) (put db (postsRef ++ [k], v)) =
      snapshotAt (postsRef ++ [k']) db := by
  rw [snapshotAt, put, Node.get_set_apart (apart_post h), snapshotAt]

omit [URLSyntax] in
theorem snapshotAt_put_self (k : String) (v db : Value) :
    snapshotAt (postsRef ++ [k]) (put db (postsRef ++ [k], v)) = ⟨postsRef ++ [k], v⟩ := by
  rw [snapshotAt, put, Node.get_set_self]

/-- What a save stores decodes as its post. -/
theorem postOf_save (e : Entry) (now : Rat) :
    ∃ post, postOf ⟨postsRef ++ [e.key], resolve now (postObject e.author e.text)⟩ = some post ∧
      entryOf post = e :=
  ⟨_, postOf_postObject _ _ _ now, by simp [entryOf]⟩

theorem postOf_null (ref : Path) : postOf ⟨ref, .null⟩ = none := rfl

/-! ### The ledger -/

theorem ledger_init (db : Value) : Ledger db (init db) where
  serves := fun _ => serves_start
  keys := List.nodup_nil
  waiting := fun _ => List.nodup_nil
  tapped := fun _ _ h => (List.not_mem_nil h).elim
  stored := fun _ => mem_entries
  once := entries_once db
  source := fun _ h => Or.inl h

variable {db₀ : Value} {s s' : State}

theorem ledger_device {client : ℕ} {a : Local} (hs : Ledger db₀ s)
    (h : step s (.device client a) = some s') : Ledger db₀ s' := by
  obtain ⟨c, hc, rfl⟩ := step_device h
  have hsaves : ∀ k, saves (Function.update s.client client c k).replica =
      saves (s.client k).replica :=
    (Function.forall_update_iff s.client (fun k c => saves c.replica = saves (s.client k).replica)).mpr
      ⟨saves_step hc, fun _ _ => rfl⟩
  refine { hs with serves := serves_step hs.serves h, waiting := ?_, tapped := ?_ }
  · intro k; simp only [hsaves]; exact hs.waiting k
  · intro k; simp only [hsaves]; exact hs.tapped k

/-- A tap is found by its key. -/
theorem Ledger.tap_unique (hs : Ledger db₀ s) {c c' : ℕ} {e e' : Entry} (h : (c, e) ∈ s.taps)
    (h' : (c', e') ∈ s.taps) (hkey : e.key = e'.key) : (c, e) = (c', e') :=
  List.inj_on_of_nodup_map hs.keys h h' hkey

theorem ledger_savePost {client n : ℕ} {key : String} {estimate : Rat} (hs : Ledger db₀ s)
    (h : step s (.savePost client n key estimate) = some s') : Ledger db₀ s' := by
  obtain ⟨vc, -, ⟨-, rfl⟩ | ⟨author, -, ⟨hnew, hnull⟩, rfl⟩⟩ := step_savePost h
  · exact hs
  · set e : Entry := ⟨key, author, vc.textView⟩ with he
    -- nothing is stored under the new key
    have hfree : ∀ e' ∈ s.stored, e'.key ≠ key := by
      intro e' he' hkey
      obtain ⟨post, hpost, -⟩ := (hs.stored e').mp he'
      rw [hkey, snapshotAt, hnull, postOf_null] at hpost
      cases hpost
    refine { hs with
      serves := serves_step hs.serves h, keys := ?_, waiting := ?_, tapped := ?_, source := ?_ }
    · rw [List.map_append, List.nodup_append]
      refine ⟨hs.keys, List.nodup_singleton _, ?_⟩
      intro x hx y hy
      obtain ⟨t, ht, rfl⟩ := List.mem_map.mp hx
      rw [List.mem_singleton.mp hy]
      exact hnew t ht
    · refine (Function.forall_update_iff s.client (fun _ c => (saves c.replica).Nodup)).mpr
        ⟨?_, fun k _ => hs.waiting k⟩
      rw [Client.sync, saves_enqueue, Option.toList_some, List.nodup_append]
      refine ⟨hs.waiting client, List.nodup_singleton _, ?_⟩
      rintro x hx y hy rfl
      have htap := (hs.tapped client x hx).1
      rw [List.mem_singleton.mp hy] at htap
      exact hnew _ htap rfl
    · refine (Function.forall_update_iff s.client (fun k c => ∀ e' ∈ saves c.replica,
        (k, e') ∈ s.taps ++ [(client, e)] ∧ ∀ e'' ∈ s.stored, e''.key ≠ e'.key)).mpr
        ⟨?_, fun k _ e' he' => (hs.tapped k e' he').imp_left (List.mem_append_left _)⟩
      intro e' he'
      rw [Client.sync, saves_enqueue, Option.toList_some] at he'
      rcases List.mem_append.mp he' with he' | he'
      · exact (hs.tapped client e' he').imp_left (List.mem_append_left _)
      · rw [List.mem_singleton.mp he']
        exact ⟨List.mem_append_right _ (List.mem_singleton_self _), hfree⟩
    · intro e' he'
      rcases hs.source e' he' with hold | ⟨c, hc⟩
      · exact Or.inl hold
      · exact Or.inr ⟨c, List.mem_append_left _ hc⟩

theorem ledger_reject {client : ℕ} (hs : Ledger db₀ s)
    (h : step s (.reject client) = some s') : Ledger db₀ s' := by
  obtain rfl := step_reject h
  have hsub : ∀ k, (saves (Function.update s.client client { s.client client with
      replica := (s.client client).replica.answer false } k).replica).Sublist
        (saves (s.client k).replica) :=
    (Function.forall_update_iff s.client
      (fun k c => (saves c.replica).Sublist (saves (s.client k).replica))).mpr
      ⟨saves_answer _ _, fun _ _ => List.Sublist.refl _⟩
  refine { hs with serves := serves_step hs.serves h, waiting := ?_, tapped := ?_ }
  · intro k; exact (hs.waiting k).sublist (hsub k)
  · intro k e he; exact hs.tapped k e ((hsub k).subset he)

theorem saves_accept (s : State) (client : ℕ) (now : Rat) (w : Write) (k : ℕ) :
    (saves ((s.accept client now w).client k).replica).Sublist (saves (s.client k).replica) := by
  simp only [State.accept]
  split_ifs with hk
  · exact saves_answer true ((s.client k).replica.send _)
  · exact List.Sublist.refl _

/-- Applying a removal takes exactly the post of its key out of the ledger. -/
theorem mem_record_remove {stored : List Entry} {k : String} {e : Entry} :
    e ∈ record stored (removeValue (postsRef ++ [k])) ↔ e ∈ stored ∧ e.key ≠ k := by
  simp [record, removeValue]

theorem ledger_remove {client : ℕ} {now : Rat} (hs : Ledger db₀ s) (k₀ : String)
    (hserves : ∀ k, Serves (s.accept client now (removeValue (postsRef ++ [k₀]))).db
      ((s.accept client now (removeValue (postsRef ++ [k₀]))).client k)) :
    Ledger db₀ (s.accept client now (removeValue (postsRef ++ [k₀]))) := by
  have hmem : ∀ {e : Entry}, e ∈ record s.stored (removeValue (postsRef ++ [k₀])) →
      e ∈ s.stored := fun he => (mem_record_remove.mp he).1
  refine ⟨hserves, hs.keys, fun k => (hs.waiting k).sublist (saves_accept ..), ?_, ?_, ?_, ?_⟩
  · intro k e he
    obtain ⟨htap, hfree⟩ := hs.tapped k e ((saves_accept ..).subset he)
    exact ⟨htap, fun e' he' => hfree e' (hmem he')⟩
  · intro e
    simp only [State.accept, mem_record_remove]
    simp only [removeValue, resolve_null]
    by_cases hk : k₀ = e.key
    · rw [← hk, snapshotAt_put_self, postOf_null]
      simp
    · rw [snapshotAt_put hk, ← hs.stored e]
      exact and_iff_left (Ne.symm hk)
  · exact hs.once.sublist (List.filter_sublist.map _)
  · intro e he; exact hs.source e (hmem he)

/-- A save reaches the server once: the device that made it waits for it no longer. -/
theorem Ledger.saved_once {client : ℕ} {now : Rat} {e₀ : Entry} {w : Write} {ws : List Write}
    (hs : Ledger db₀ s) (hq : (s.client client).replica.queue = w :: ws) (hw : w.origin = some e₀)
    (k : ℕ) : ∀ e ∈ saves ((s.accept client now w).client k).replica, e.key ≠ e₀.key := by
  intro e he hkey
  have hsaves : saves (s.client client).replica = e₀ :: ws.filterMap Write.origin := by
    rw [saves, hq, List.filterMap_cons_some hw]
  have htap₀ := (hs.tapped client e₀ (by rw [hsaves]; exact List.mem_cons_self ..)).1
  have htap := (hs.tapped k e ((saves_accept ..).subset he)).1
  obtain ⟨rfl, rfl⟩ := Prod.mk.inj (hs.tap_unique htap htap₀ hkey)
  have hnodup := hs.waiting k
  rw [hsaves] at hnodup
  refine (List.nodup_cons.mp hnodup).1 ?_
  simpa [State.accept, saves, Replica.answer, Replica.send, hq] using he

theorem ledger_save {client n : ℕ} {now estimate : Rat} {e₀ : Entry} {w : Write} {ws : List Write}
    (hs : Ledger db₀ s)
    (hw : w = ⟨postsRef ++ [e₀.key], postObject e₀.author e₀.text, estimate, some e₀, some n⟩)
    (hq : (s.client client).replica.queue = w :: ws)
    (hserves : ∀ k, Serves (s.accept client now w).db ((s.accept client now w).client k)) :
    Ledger db₀ (s.accept client now w) := by
  have hmine : e₀ ∈ saves (s.client client).replica := by simp [saves, hq, hw]
  obtain ⟨htap₀, hfree₀⟩ := hs.tapped client e₀ hmine
  have horigin : w.origin = some e₀ := by rw [hw]
  have hrecord : record s.stored w = s.stored ++ [e₀] := by rw [record, horigin]
  refine ⟨hserves, hs.keys, fun k => (hs.waiting k).sublist (saves_accept ..), ?_, ?_, ?_, ?_⟩
  · intro k e he
    obtain ⟨htap, hfree⟩ := hs.tapped k e ((saves_accept ..).subset he)
    refine ⟨htap, ?_⟩
    intro e' he'
    rw [State.accept, hrecord] at he'
    rcases List.mem_append.mp he' with he' | he'
    · exact hfree e' he'
    · rw [List.mem_singleton.mp he']
      exact (hs.saved_once hq horigin k e he).symm
  · intro e
    simp only [State.accept, hrecord, List.mem_append, List.mem_singleton]
    rw [hw]
    by_cases hk : e₀.key = e.key
    · rw [← hk, snapshotAt_put_self]
      obtain ⟨post, hpost, hentry⟩ := postOf_save e₀ now
      rw [hpost]
      constructor
      · rintro (he | rfl)
        · exact absurd hk.symm (hfree₀ e he)
        · exact ⟨post, rfl, hentry⟩
      · rintro ⟨_, hpost', rfl⟩
        cases hpost'
        exact Or.inr hentry
    · rw [snapshotAt_put hk, ← hs.stored e]
      exact or_iff_left (fun he => hk (by rw [he]))
  · rw [State.accept, hrecord, List.map_append, List.nodup_append]
    refine ⟨hs.once, List.nodup_singleton _, ?_⟩
    intro x hx y hy
    obtain ⟨e, he, rfl⟩ := List.mem_map.mp hx
    rw [List.mem_singleton.mp hy]
    exact hfree₀ e he
  · intro e he
    rw [State.accept, hrecord] at he
    rcases List.mem_append.mp he with he | he
    · exact hs.source e he
    · rw [List.mem_singleton.mp he]
      exact Or.inr ⟨client, htap₀⟩

theorem ledger_store {client : ℕ} {now : Rat} (hs : Ledger db₀ s)
    (h : step s (.store client now) = some s') : Ledger db₀ s' := by
  obtain ⟨w, ws, hq, rfl⟩ := step_store h
  have hproper := (hs.serves client).proper w (by rw [hq]; exact List.mem_cons_self ..)
  have hserves := serves_step hs.serves h
  cases hproper with
  | save e₀ estimate n => exact ledger_save hs rfl hq hserves
  | remove k₀ => exact ledger_remove hs k₀ hserves

theorem ledger_step {e : Event} (hs : Ledger db₀ s) (h : step s e = some s') : Ledger db₀ s' := by
  cases e with
  | device client a => exact ledger_device hs h
  | savePost client n key estimate => exact ledger_savePost hs h
  | store client now => exact ledger_store hs h
  | reject client => exact ledger_reject hs h

/-! ### Where the stored posts come from -/

/-- Save was tapped on the device with this author in place and this text in the composer, and the post
    got this key. -/
def SavedBy (db₀ : Value) (es : List Event) (e : Entry) (c : ℕ) : Prop :=
  ∃ pre n estimate post m, es = pre ++ .savePost c n e.key estimate :: post ∧
    run step (init db₀) pre = some m ∧ (m.client c).currentUserProfile = some e.author ∧
    (m.client c).homes[n]?.map HomeVC.textView = some e.text

theorem SavedBy.concat {db₀ : Value} {es : List Event} {e : Entry} {c : ℕ}
    (h : SavedBy db₀ es e c) (ev : Event) : SavedBy db₀ (es ++ [ev]) e c := by
  obtain ⟨pre, n, estimate, post, m, rfl, hm⟩ := h
  exact ⟨pre, n, estimate, post ++ [ev], m, by simp, hm⟩

/-- Only a Save tap adds a tap, and it takes author and text from its device. -/
theorem taps_step {ev : Event} (h : step s ev = some s') {t : ℕ × Entry} (ht : t ∈ s'.taps) :
    t ∈ s.taps ∨ ∃ n estimate, ev = .savePost t.1 n t.2.key estimate ∧
      (s.client t.1).currentUserProfile = some t.2.author ∧
      (s.client t.1).homes[n]?.map HomeVC.textView = some t.2.text := by
  cases ev with
  | device client a =>
    obtain ⟨c, -, rfl⟩ := step_device h
    exact Or.inl ht
  | store client now =>
    obtain ⟨w, _, -, rfl⟩ := step_store h
    exact Or.inl ht
  | reject client =>
    obtain rfl := step_reject h
    exact Or.inl ht
  | savePost client n key estimate =>
    obtain ⟨vc, hvc, ⟨-, rfl⟩ | ⟨author, hp, -, rfl⟩⟩ := step_savePost h
    · exact Or.inl ht
    · rcases List.mem_append.mp ht with ht | ht
      · exact Or.inl ht
      · rw [List.mem_singleton.mp ht]
        exact Or.inr ⟨n, estimate, rfl, hp, by rw [hvc]; rfl⟩

theorem savedBy_run {es : List Event} (hr : run step (init db₀) es = some s) :
    ∀ t ∈ s.taps, SavedBy db₀ es t.2 t.1 := by
  refine (run_history (I := fun es s => run step (init db₀) es = some s ∧
    ∀ t ∈ s.taps, SavedBy db₀ es t.2 t.1) ⟨rfl, fun _ h => (List.not_mem_nil h).elim⟩ ?_ hr).2
  rintro pre s ev s' ⟨hpre, htaps⟩ h
  refine ⟨run_concat.mpr ⟨s, hpre, h⟩, ?_⟩
  intro t ht
  rcases taps_step h ht with ht | ⟨n, estimate, rfl, hauthor, htext⟩
  · exact (htaps t ht).concat ev
  · exact ⟨pre, n, estimate, [], s, rfl, hpre, hauthor, htext⟩

/-! ### Devices at rest -/

/-- All events have been delivered: the listener of this `HomeVC` has nothing to report, and nothing is
    on its way from the server to the device or back. -/
structure Delivered (c : Client) (vc : HomeVC) : Prop where
  listener : vc.listener.pending = []
  inbox : c.replica.inbox = []
  queue : c.replica.queue = []

theorem mem_posts {db : Value} {post : Post} : post ∈ observePosts (snapshotAt postsRef db) ↔
    ∃ k, postOf (snapshotAt (postsRef ++ [k]) db) = some post := by
  simp only [snapshotAt, mem_observePosts, Node.get_append, Node.get_cons, Node.get_nil]

theorem posts_nodup (v : Value) : (observePosts ⟨postsRef, v⟩).Nodup :=
  (observePosts_sorted v).imp (fun hlt heq => absurd hlt (by rw [heq]; exact lt_irrefl _))

/-- A child that does not decode can be any other such child, or none, without the array changing. -/
theorem observePosts_put {db v : Value} {k : String}
    (hold : postOf (snapshotAt (postsRef ++ [k]) db) = none)
    (hnew : postOf ⟨postsRef ++ [k], v⟩ = none) :
    observePosts (snapshotAt postsRef (put db (postsRef ++ [k], v))) =
      observePosts (snapshotAt postsRef db) := by
  have hchild : ∀ k', postOf (snapshotAt (postsRef ++ [k']) (put db (postsRef ++ [k], v))) =
      postOf (snapshotAt (postsRef ++ [k']) db) := by
    intro k'
    by_cases hk : k = k'
    · subst hk; rw [snapshotAt_put_self, hnew, hold]
    · rw [snapshotAt_put hk]
  have hmem : ∀ post, post ∈ observePosts (snapshotAt postsRef (put db (postsRef ++ [k], v))) ↔
      post ∈ observePosts (snapshotAt postsRef db) := by
    intro post; simp only [mem_posts, hchild]
  refine List.Perm.eq_of_pairwise ?_ (observePosts_sorted _) (observePosts_sorted _)
    ((List.perm_ext_iff_of_nodup (posts_nodup _) (posts_nodup _)).mpr hmem)
  intro post post' _ _ hlt hgt
  exact absurd hlt (not_lt_of_gt hgt)

/-- In every run: a stored post was there before or has the author and text of a Save tap. A `HomeVC` to
    which everything has been delivered shows exactly one post for each stored one, in key order, and
    children that do not decode make no difference. -/
theorem posts_stored (db₀ : Value) (es : List Event) (s : State)
    (hr : run step (init db₀) es = some s) :
    (∀ e ∈ s.stored, e ∈ entries db₀ ∨ ∃ c, SavedBy db₀ es e c) ∧
    ∀ c, ∀ vc ∈ (s.client c).homes, Delivered (s.client c) vc →
      vc.posts.Pairwise (fun post post' => post.id < post'.id) ∧
      (vc.posts.map entryOf).Perm s.stored ∧
      ∀ k v, postOf (snapshotAt (postsRef ++ [k]) s.db) = none →
        postOf ⟨postsRef ++ [k], v⟩ = none →
          observePosts (snapshotAt postsRef (put s.db (postsRef ++ [k], v))) = vc.posts := by
  have hs : Ledger db₀ s := run_invariant (ledger_init db₀) (fun _ _ _ => ledger_step) hr
  have hsource : ∀ e ∈ s.stored, e ∈ entries db₀ ∨ ∃ c, SavedBy db₀ es e c := by
    intro e he
    rcases hs.source e he with hold | ⟨c, hc⟩
    · exact Or.inl hold
    · exact Or.inr ⟨c, savedBy_run hr _ hc⟩
  refine ⟨hsource, ?_⟩
  intro c vc hvc hc
  have hposts : vc.posts = observePosts (snapshotAt postsRef s.db) :=
    (hs.serves c).posts_eq hvc hc.listener hc.inbox hc.queue
  rw [hposts]
  refine ⟨observePosts_sorted _, ?_, fun k v => observePosts_put⟩
  have hentries : (entries s.db).Nodup := (entries_once s.db).of_map _
  refine (List.perm_ext_iff_of_nodup hentries (hs.once.of_map _)).mpr ?_
  intro e
  rw [mem_entries, hs.stored]

omit [URLSyntax] in
/-- Ann's post reaches the feed on Bob's device, past a child that is no post. -/
theorem posts_stored_other_device : ∃ (_ : URLSyntax) (db : Value) (es : List Event) (s : State)
    (ann : UserProfile) (vc : HomeVC), run step (init db) es = some s ∧
      s.stored = [⟨"-L1", ann, "hi"⟩] ∧ (s.client 1).homes[0]? = some vc ∧
      (vc.posts.map entryOf).Perm s.stored := by
  let _ := nonEmptyURLs
  let db : Value := Node.null.set ["posts", "-K9"] (Value.string "no post")
  let es : List Event := [.device 0 (.profile (some ann)), .device 0 .viewDidLoad,
    .device 1 .viewDidLoad, .device 0 (.home 0 (.edit "hi")), .savePost 0 0 "-L1" 1, .store 0 2,
    .device 0 .receive, .device 1 .receive, .device 0 .receive, .device 1 (.home 0 .valueEvent),
    .device 1 (.home 0 .valueEvent)]
  obtain ⟨s, hs, hp⟩ := exists_of_run_any step (init db) es
    (fun s => s.stored = [⟨"-L1", ann, "hi"⟩] ∧
      (s.client 1).homes[0]?.map (fun vc => vc.listener.pending) = some [] ∧
      (s.client 1).replica.inbox = [] ∧ (s.client 1).replica.queue = []) (by decide)
  obtain ⟨hstored, hlistener, hinbox, hqueue⟩ := decide_eq_true_iff.mp hp
  obtain ⟨vc, hvc, hpending⟩ := Option.map_eq_some_iff.mp hlistener
  obtain ⟨-, hshows⟩ := posts_stored db es s hs
  obtain ⟨-, hperm, -⟩ := hshows 1 vc (List.mem_of_getElem? hvc) ⟨hpending, hinbox, hqueue⟩
  exact ⟨nonEmptyURLs, db, es, s, ann, vc, hs, hstored, hvc, hperm⟩

end PostApp.Feed
