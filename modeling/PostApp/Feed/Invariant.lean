import PostApp.Feed.HomeVC

/-! What holds of every device at any time.

    A device serves its feed when its replica is in step with the server and writes only to the
    locations of posts (`Backed`), and each `HomeVC` has a listener that carries the newest state of the
    `posts` node, an array built from the event delivered last, and nothing but posts at their own
    locations (`Shows`). Both are kept by every step (`serves_step`). -/

namespace PostApp.Feed
open Schemes
variable [URLSyntax]

/-! ### The array -/

theorem mem_observePosts {v : Value} {post : Post} :
    post ∈ observePosts ⟨postsRef, v⟩ ↔ ∃ k, postOf ⟨postsRef ++ [k], v.child k⟩ = some post := by
  rw [observePosts, mem_collect]
  constructor
  · rintro ⟨k, -, hk⟩; exact ⟨k, hk⟩
  · rintro ⟨k, hk⟩; exact ⟨k, (postOf_ref_id hk).2.2, hk⟩

theorem postOf_key {k : String} {v : Value} {post : Post}
    (h : postOf ⟨postsRef ++ [k], v⟩ = some post) : post.id = k :=
  (postOf_ref_id h).2.1.trans (key_concat _ _ _)

theorem ref_of_mem {v : Value} {post : Post} (h : post ∈ observePosts ⟨postsRef, v⟩) :
    post.ref = postsRef ++ [post.id] := by
  obtain ⟨k, hk⟩ := mem_observePosts.mp h
  rw [postOf_key hk]
  exact (postOf_ref_id hk).1

/-- The array is in key order, so no key comes twice. -/
theorem observePosts_sorted (v : Value) :
    (observePosts ⟨postsRef, v⟩).Pairwise (fun post post' => post.id < post'.id) := by
  rw [observePosts, collect_eq_filterMap]
  refine (DataSnapshot.children_sorted _).filterMap postOf ?_
  intro c c' hlt post hpost post' hpost'
  rwa [(postOf_ref_id hpost).2.1, (postOf_ref_id hpost').2.1]

/-! ### One device -/

/-- The writes of `HomeVC`: saving a post under its key, and removing one. -/
inductive Proper : Write → Prop
  | save (e : Entry) (estimate : Rat) (n : ℕ) :
      Proper ⟨postsRef ++ [e.key], postObject e.author e.text, estimate, some e, some n⟩
  | remove (k : String) : Proper (removeValue (postsRef ++ [k]))

structure Backed (db : Value) (r : Replica Value (Path × Value) Write) : Prop where
  synced : Replica.Synced put db r
  proper : ∀ w ∈ r.queue, Proper w

structure Shows (v : Value) (vc : HomeVC) : Prop where
  tracks : vc.listener.Tracks v
  shown : ∀ w, vc.listener.seen = some w → vc.posts = observePosts ⟨postsRef, w⟩
  posts : ∀ post ∈ vc.posts, post.ref = postsRef ++ [post.id]
  actions : ∀ a ∈ vc.actions, a.postToDelete.ref = postsRef ++ [a.postToDelete.id]

structure Serves (db : Value) (c : Client) : Prop extends Backed db c.replica where
  homes : ∀ vc ∈ c.homes, Shows (feed c.replica) vc

/-- The saves of a device that the server has not judged. -/
def saves (r : Replica Value (Path × Value) Write) : List Entry := r.queue.filterMap Write.origin

theorem saves_enqueue (w : Write) (r : Replica Value (Path × Value) Write) :
    saves (r.enqueue w) = saves r ++ w.origin.toList := by
  rw [saves, saves, Replica.enqueue, List.filterMap_append]
  cases hw : w.origin <;> simp [hw]

/-- The server has judged one save less. -/
theorem saves_answer (ok : Bool) (r : Replica Value (Path × Value) Write) :
    (saves (r.answer ok)).Sublist (saves r) :=
  (Replica.queue_answer ok r).filterMap Write.origin

section Backed
variable {db : Value} {r r' : Replica Value (Path × Value) Write}

theorem Backed.enqueue {w : Write} (h : Backed db r) (hw : Proper w) : Backed db (r.enqueue w) := by
  refine ⟨h.synced.enqueue w, ?_⟩
  intro w' hw'
  rcases List.mem_append.mp hw' with hw' | hw'
  · exact h.proper w' hw'
  · rw [List.mem_singleton.mp hw']
    exact hw

/-- The server applied a write and tells the device. -/
theorem Backed.send (h : Backed db r) (u : Path × Value) : Backed (put db u) (r.send u) :=
  ⟨h.synced.send u, h.proper⟩

/-- The server judged the device's oldest write. -/
theorem Backed.answer (h : Backed db r) (ok : Bool) : Backed db (r.answer ok) :=
  ⟨h.synced.answer ok, fun w hw => h.proper w ((Replica.queue_answer ok r).subset hw)⟩

theorem Backed.receive {answer : Option (Write × Bool)} (h : Backed db r)
    (hr : r.receive put = some (answer, r')) : Backed db r' := by
  refine ⟨h.synced.receive hr, ?_⟩
  rcases Replica.receive_eq.mp hr with ⟨u, us, -, -, rfl⟩ | ⟨ok, us, w, ws, -, -, -, rfl⟩
  · exact h.proper
  · exact h.proper

end Backed

section Device
variable {db : Value} {c c' : Client} {a : Local}

theorem serves_start : Serves db ⟨none, none, [], .start db⟩ where
  synced := Replica.synced_start db
  proper := fun _ h => (List.not_mem_nil h).elim
  homes := fun _ h => (List.not_mem_nil h).elim

/-- A handler holds a post at its own location. -/
theorem Serves.action_ref (hc : Serves db c) {n i : ℕ} {vc : HomeVC} {b : DeleteAction}
    (hvc : c.homes[n]? = some vc) (hb : vc.actions[i]? = some b) :
    b.postToDelete.ref = postsRef ++ [b.postToDelete.id] :=
  (hc.homes vc (List.mem_of_getElem? hvc)).actions b (List.mem_of_getElem? hb)

theorem backed_local (hc : Serves db c) (h : c.step a = some c') : Backed db c'.replica := by
  have hmoves := moves_local h
  generalize c'.replica = r at hmoves
  cases hmoves with
  | rest => exact hc.toBacked
  | remove hvc hb =>
    rw [hc.action_ref hvc hb]
    exact hc.toBacked.enqueue (.remove _)
  | receive hr => exact hc.toBacked.receive hr

/-- Only the Delete handler writes without a tap on Save. -/
theorem queue_device (h : c.step a = some c') (ha : ∀ n i, a ≠ .delete n i) :
    c'.replica.queue = c.replica.queue := by
  have hmoves := moves_local h
  generalize c'.replica = r at hmoves
  cases hmoves with
  | rest => rfl
  | @remove n i => exact absurd rfl (ha n i)
  | receive hr =>
    rcases Replica.receive_eq.mp hr with ⟨_, _, -, -, rfl⟩ | ⟨_, _, _, _, -, -, -, rfl⟩
    · rfl
    · rfl

/-- Only a Save tap adds to the saves of a device. -/
theorem saves_step (h : c.step a = some c') : saves c'.replica = saves c.replica := by
  have hmoves := moves_local h
  generalize c'.replica = r at hmoves
  cases hmoves with
  | rest => rfl
  | remove => exact (saves_enqueue _ _).trans (List.append_nil _)
  | receive hr =>
    rcases Replica.receive_eq.mp hr with ⟨_, _, -, -, rfl⟩ | ⟨_, _, _, _, -, -, -, rfl⟩
    · rfl
    · rfl

end Device

/-! ### Every step -/

section Step
variable {s s' : State} {e : Event}

theorem backed_step (hs : ∀ k, Serves s.db (s.client k)) (h : step s e = some s') (k : ℕ) :
    Backed s'.db (s'.client k).replica := by
  have hold : ∀ k, Backed s.db (s.client k).replica := fun k => (hs k).toBacked
  cases e with
  | device client a =>
    obtain ⟨c, hc, rfl⟩ := step_device h
    exact (Function.forall_update_iff s.client (fun _ c => Backed s.db c.replica)).mpr
      ⟨backed_local (hs client) hc, fun k _ => hold k⟩ k
  | savePost client n key estimate =>
    obtain ⟨vc, -, ⟨-, rfl⟩ | ⟨author, -, -, rfl⟩⟩ := step_savePost h
    · exact hold k
    · exact (Function.forall_update_iff s.client (fun _ c => Backed s.db c.replica)).mpr
        ⟨(hold client).enqueue (.save ⟨key, author, vc.textView⟩ estimate n), fun k _ => hold k⟩ k
  | store client now =>
    obtain ⟨w, _, -, rfl⟩ := step_store h
    have hsend := (hold k).send (w.path, resolve now w.value)
    simp only [State.accept]
    split_ifs
    · exact hsend.answer true
    · exact hsend
  | reject client =>
    obtain rfl := step_reject h
    exact (Function.forall_update_iff s.client (fun _ c => Backed s.db c.replica)).mpr
      ⟨(hold client).answer false, fun k _ => hold k⟩ k

theorem shows_own {v : Value} {currentUser : Option String} {vc vc' : HomeVC} {a : AtHome}
    (hvc : Shows v vc) (h : vc.step currentUser a = some vc') : Shows v vc' := by
  cases a with
  | edit text =>
    cases h
    exact { hvc with }
  | valueEvent =>
    obtain ⟨w, ℓ, hf, rfl⟩ := home_valueEvent h
    obtain ⟨vs, -, hℓ⟩ := Listener.fire_eq.mp hf
    refine ⟨hvc.tracks.fire hf, ?_, fun _ hpost => ref_of_mem hpost, hvc.actions⟩
    rw [hℓ]
    rintro _ ⟨⟩
    rfl
  | editActions row =>
    obtain ⟨post, hpost, rfl⟩ := home_editActions h
    refine { hvc with actions := ?_ }
    intro b hb
    rcases List.mem_append.mp hb with hb | hb
    · exact hvc.actions b hb
    · rw [List.mem_singleton.mp hb]
      exact hvc.posts post (List.mem_of_getElem? hpost)
  | completion =>
    obtain ⟨_, _, -, ⟨-, rfl⟩ | ⟨-, rfl⟩⟩ := home_completion h
    · exact { hvc with }
    · exact { hvc with }

theorem Shows.told {old : Value} {vc : HomeVC} (hvc : Shows old vc) (new : Value) :
    Shows new (vc.told old new) where
  tracks := hvc.tracks.notify new
  shown := fun w hw => hvc.shown w (by rwa [HomeVC.told, Listener.notify_seen] at hw)
  posts := hvc.posts
  actions := hvc.actions

theorem shows_turn {k n : ℕ} {c c' : Client} {vc' : HomeVC}
    (hc : ∀ vc ∈ c.homes, Shows (feed c.replica) vc) (h : Turn k n c c' e vc') :
    Shows (feed c'.replica) vc' := by
  cases h with
  | load =>
    exact ⟨Listener.tracks_attach _, fun _ hw => (by cases hw), fun _ h => (List.not_mem_nil h).elim,
      fun _ h => (List.not_mem_nil h).elim⟩
  | own hvc hstep hfeed =>
    rw [hfeed]
    exact shows_own (hc _ (List.mem_of_getElem? hvc)) hstep
  | told _ hvc => exact (hc _ (List.mem_of_getElem? hvc)).told _
  | answered ok hvc => exact { (hc _ (List.mem_of_getElem? hvc)).told _ with }

theorem serves_step (hs : ∀ k, Serves s.db (s.client k)) (h : step s e = some s') (k : ℕ) :
    Serves s'.db (s'.client k) := by
  refine ⟨backed_step hs h k, ?_⟩
  intro vc' hvc'
  obtain ⟨n, hn⟩ := List.mem_iff_getElem?.mp hvc'
  exact shows_turn (hs k).homes (turn_step h hn)

/-- Once everything has been delivered, the array is built from the server's database. -/
theorem Serves.posts_eq {db : Value} {c : Client} (hc : Serves db c) {vc : HomeVC} (hvc : vc ∈ c.homes)
    (hp : vc.listener.pending = []) (hin : c.replica.inbox = []) (hq : c.replica.queue = []) :
    vc.posts = observePosts (snapshotAt postsRef db) := by
  have hshows := hc.homes vc hvc
  have hseen := hshows.tracks.seen hp
  rw [feed, hc.synced.view hin hq] at hseen
  exact hshows.shown _ hseen

end Step

end PostApp.Feed
