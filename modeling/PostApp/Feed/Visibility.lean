import PostApp.Feed.Posts

/-! Whose posts a device shows, and when.

    A device shows its own saves before the server has judged them. Nothing leaks to other devices from
    that: every row anywhere is a post that the server has stored at some time, or one saved on the
    device itself (`no_phantom_rows`). And the author never loses sight of a post: from the tap on Save
    it is in the feed of the device, through the change from the local guess to the stored post, until
    the save is refused or somebody removes it (`own_post_visible`). -/

namespace PostApp.Feed
open Schemes
variable [URLSyntax]

/-! ### No phantom rows -/

/-- The server had the post stored at some time. -/
def OnceStored (db₀ : Value) (es : List Event) (e : Entry) : Prop :=
  ∃ pre post m, es = pre ++ post ∧ run step (init db₀) pre = some m ∧ e ∈ m.stored

/-- What device `c` may show. -/
def Legit (db₀ : Value) (es : List Event) (c : ℕ) (e : Entry) : Prop :=
  OnceStored db₀ es e ∨ SavedBy db₀ es e c

/-- All posts of the `posts` node are in `K`. -/
def Clean (K : Entry → Prop) (v : Value) : Prop := ∀ post ∈ observePosts ⟨postsRef, v⟩, K (entryOf post)

/-- The writes of `HomeVC` as the server applies them, with posts of `K`. -/
inductive Tidy (K : Entry → Prop) : Path × Value → Prop
  | save (e : Entry) (now : Rat) : K e →
      Tidy K (postsRef ++ [e.key], resolve now (postObject e.author e.text))
  | remove (k : String) : Tidy K (postsRef ++ [k], .null)

/-- All posts that reach a replica or wait on it are in `K`. -/
abbrev Carried (K : Entry → Prop) (r : Replica Value (Path × Value) Write) : Prop :=
  Replica.Carries Write.guess (fun db => Clean K (db.get postsRef)) (Tidy K) r

/-- All posts that reach the device, wait on it or are shown by it are in `K`. -/
structure Confined (K : Entry → Prop) (c : Client) : Prop where
  carries : Carried K c.replica
  pending : ∀ vc ∈ c.homes, ∀ v ∈ vc.listener.pending, Clean K v
  posts : ∀ vc ∈ c.homes, ∀ post ∈ vc.posts, K (entryOf post)

section Clean
variable {K K' : Entry → Prop} {db v : Value} {u : Path × Value} {c c' : Client}

theorem clean_iff : Clean K (db.get postsRef) ↔
    ∀ k post, postOf (snapshotAt (postsRef ++ [k]) db) = some post → K (entryOf post) := by
  have hmem : ∀ post, post ∈ observePosts ⟨postsRef, db.get postsRef⟩ ↔
      ∃ k, postOf (snapshotAt (postsRef ++ [k]) db) = some post := fun _ => mem_posts
  simp only [Clean, hmem]
  exact ⟨fun h k post hk => h post ⟨k, hk⟩, fun h post ⟨k, hk⟩ => h k post hk⟩

theorem Clean.mono (h : Clean K v) (hK : ∀ e, K e → K' e) : Clean K' v :=
  fun post hpost => hK _ (h post hpost)

theorem Tidy.mono (h : Tidy K u) (hK : ∀ e, K e → K' e) : Tidy K' u := by
  cases h with
  | save e now he => exact .save e now (hK e he)
  | remove k => exact .remove k

theorem clean_put (h : Clean K (db.get postsRef)) (hu : Tidy K u) :
    Clean K ((put db u).get postsRef) := by
  rw [clean_iff] at h ⊢
  intro k post hpost
  cases hu with
  | save e now he =>
    by_cases hk : e.key = k
    · subst hk
      obtain ⟨saved, hsaved, hentry⟩ := postOf_save e now
      rw [snapshotAt_put_self, hsaved] at hpost
      cases hpost
      rw [hentry]
      exact he
    · rw [snapshotAt_put hk] at hpost
      exact h k post hpost
  | remove k' =>
    by_cases hk : k' = k
    · subst hk
      rw [snapshotAt_put_self, postOf_null] at hpost
      cases hpost
    · rw [snapshotAt_put hk] at hpost
      exact h k post hpost

theorem Confined.mono (h : Confined K c) (hK : ∀ e, K e → K' e) : Confined K' c where
  carries := h.carries.mono (fun _ hc => hc.mono hK) (fun _ hu => hu.mono hK)
  pending := fun vc hvc v hv => (h.pending vc hvc v hv).mono hK
  posts := fun vc hvc post hpost => hK _ (h.posts vc hvc post hpost)

/-- Carried writes leave the feed of a device clean. -/
theorem clean_feed {r : Replica Value (Path × Value) Write} (h : Carried K r) : Clean K (feed r) :=
  h.view (fun _ _ hd hu => clean_put hd hu)

/-- A device by itself queues removals only, and takes what is on its way. -/
theorem carries_local {db : Value} {a : Local} (hs : Serves db c) (h : Confined K c)
    (ha : c.step a = some c') : Carried K c'.replica := by
  have hmoves := moves_local ha
  generalize c'.replica = r at hmoves
  cases hmoves with
  | rest => exact h.carries
  | remove hvc hb =>
    rw [hs.action_ref hvc hb]
    exact h.carries.enqueue (.remove _)
  | receive hr => exact h.carries.receive (fun _ _ hd hu => clean_put hd hu) hr

theorem confined_own {currentUser : Option String} {vc vc' : HomeVC} {a : AtHome}
    (hpending : ∀ v ∈ vc.listener.pending, Clean K v) (hposts : ∀ post ∈ vc.posts, K (entryOf post))
    (h : vc.step currentUser a = some vc') :
    (∀ v ∈ vc'.listener.pending, Clean K v) ∧ ∀ post ∈ vc'.posts, K (entryOf post) := by
  cases a with
  | edit text =>
    cases h
    exact ⟨hpending, hposts⟩
  | valueEvent =>
    obtain ⟨v, ℓ, hf, rfl⟩ := home_valueEvent h
    obtain ⟨vs, hp, rfl⟩ := Listener.fire_eq.mp hf
    rw [hp] at hpending
    exact ⟨fun w hw => hpending w (List.mem_cons_of_mem _ hw), hpending v (List.mem_cons_self ..)⟩
  | editActions row =>
    obtain ⟨_, -, rfl⟩ := home_editActions h
    exact ⟨hpending, hposts⟩
  | completion =>
    obtain ⟨_, _, -, ⟨-, rfl⟩ | ⟨-, rfl⟩⟩ := home_completion h
    · exact ⟨hpending, hposts⟩
    · exact ⟨hpending, hposts⟩

/-- What happens to a `HomeVC` brings nothing to it but what is in the feed of its device. -/
theorem confined_turn {k n : ℕ} {e : Event} {vc' : HomeVC} (h : Confined K c)
    (hfeed : Clean K (feed c'.replica)) (ht : Turn k n c c' e vc') :
    (∀ v ∈ vc'.listener.pending, Clean K v) ∧ ∀ post ∈ vc'.posts, K (entryOf post) := by
  have htold : ∀ vc ∈ c.homes,
      ∀ v ∈ (vc.told (feed c.replica) (feed c'.replica)).listener.pending, Clean K v := by
    intro vc hvc v hv
    rcases Listener.mem_pending_notify hv with hv | rfl
    · exact h.pending vc hvc v hv
    · exact hfeed
  cases ht with
  | load =>
    refine ⟨?_, fun _ hpost => absurd hpost List.not_mem_nil⟩
    intro v hv
    rw [List.mem_singleton.mp hv]
    exact hfeed
  | own hvc hstep =>
    have hmem := List.mem_of_getElem? hvc
    exact confined_own (h.pending _ hmem) (h.posts _ hmem) hstep
  | told _ hvc =>
    have hmem := List.mem_of_getElem? hvc
    exact ⟨htold _ hmem, fun post hpost => h.posts _ hmem post hpost⟩
  | answered ok hvc =>
    have hmem := List.mem_of_getElem? hvc
    exact ⟨htold _ hmem, fun post hpost => h.posts _ hmem post hpost⟩

end Clean

section History
variable {db₀ : Value} {es : List Event} {s s' : State} {e : Entry} {c : ℕ}

theorem OnceStored.concat (h : OnceStored db₀ es e) (ev : Event) : OnceStored db₀ (es ++ [ev]) e := by
  obtain ⟨pre, post, m, rfl, hm, he⟩ := h
  exact ⟨pre, post ++ [ev], m, List.append_assoc _ _ _, hm, he⟩

theorem Legit.concat (h : Legit db₀ es c e) (ev : Event) : Legit db₀ (es ++ [ev]) c e :=
  h.imp (fun h => h.concat ev) (fun h => h.concat ev)

/-- The writes that reach a device or wait on it have legitimate posts. -/
theorem carries_event {ev : Event} (hpre : run step (init db₀) es = some s) (hs : Ledger db₀ s)
    (hc : ∀ c, Confined (Legit db₀ (es ++ [ev]) c) (s.client c)) (h : step s ev = some s') (c : ℕ) :
    Carried (Legit db₀ (es ++ [ev]) c) (s'.client c).replica := by
  have hrun : run step (init db₀) (es ++ [ev]) = some s' := run_concat.mpr ⟨s, hpre, h⟩
  cases ev with
  | device client a =>
    obtain ⟨c', hc', rfl⟩ := step_device h
    exact (Function.forall_update_iff s.client
      (fun k c => Carried (Legit db₀ (es ++ [.device client a]) k) c.replica)).mpr
      ⟨carries_local (hs.serves client) (hc client) hc', fun k _ => (hc k).carries⟩ c
  | savePost client n key estimate =>
    obtain ⟨vc, hvc, ⟨-, rfl⟩ | ⟨author, hauthor, -, rfl⟩⟩ := step_savePost h
    · exact (hc c).carries
    · refine (Function.forall_update_iff s.client
        (fun k c => Carried (Legit db₀ (es ++ [.savePost client n key estimate]) k) c.replica)).mpr
        ⟨?_, fun k _ => (hc k).carries⟩ c
      refine (hc client).carries.enqueue ?_
      exact .save ⟨key, author, vc.textView⟩ estimate
        (Or.inr ⟨es, n, estimate, [], s, rfl, hpre, hauthor, by rw [hvc]; rfl⟩)
  | store client now =>
    obtain ⟨w, ws, hq, rfl⟩ := step_store h
    have hproper := (hs.serves client).proper w (by rw [hq]; exact List.mem_cons_self ..)
    have htidy : ∀ k, Tidy (Legit db₀ (es ++ [.store client now]) k) (w.path, resolve now w.value) := by
      intro k
      cases hproper with
      | save e estimate n =>
        refine .save e now (Or.inl ⟨_, [], _, (List.append_nil _).symm, hrun, ?_⟩)
        simp [State.accept, record]
      | remove k' => exact .remove k'
    simp only [State.accept]
    split_ifs with hk
    · exact ((hc c).carries.send (htidy c)).answer true
    · exact (hc c).carries.send (htidy c)
  | reject client =>
    obtain rfl := step_reject h
    refine (Function.forall_update_iff s.client
      (fun k c => Carried (Legit db₀ (es ++ [.reject client]) k) c.replica)).mpr
      ⟨?_, fun k _ => (hc k).carries⟩ c
    exact (hc client).carries.answer false

/-- Every step brings legitimate posts only. -/
theorem confined_event {ev : Event} (hpre : run step (init db₀) es = some s) (hs : Ledger db₀ s)
    (hc : ∀ c, Confined (Legit db₀ es c) (s.client c)) (h : step s ev = some s') (c : ℕ) :
    Confined (Legit db₀ (es ++ [ev]) c) (s'.client c) := by
  have hold : ∀ c, Confined (Legit db₀ (es ++ [ev]) c) (s.client c) :=
    fun c => (hc c).mono fun e he => he.concat ev
  have hcarries := carries_event hpre hs hold h c
  have hhomes : ∀ vc ∈ (s'.client c).homes,
      (∀ v ∈ vc.listener.pending, Clean (Legit db₀ (es ++ [ev]) c) v) ∧
      ∀ post ∈ vc.posts, Legit db₀ (es ++ [ev]) c (entryOf post) := by
    intro vc hvc
    obtain ⟨n, hn⟩ := List.mem_iff_getElem?.mp hvc
    exact confined_turn (hold c) (clean_feed hcarries) (turn_step h hn)
  exact ⟨hcarries, fun vc hvc => (hhomes vc hvc).1, fun vc hvc => (hhomes vc hvc).2⟩

theorem confined_run (hr : run step (init db₀) es = some s) :
    Ledger db₀ s ∧ ∀ c, Confined (Legit db₀ es c) (s.client c) := by
  have hinit : ∀ c, Confined (Legit db₀ [] c) ((init db₀).client c) := by
    intro c
    refine ⟨Replica.carries_start ?_, fun _ h => absurd h List.not_mem_nil,
      fun _ h => absurd h List.not_mem_nil⟩
    intro post hpost
    exact Or.inl ⟨[], [], init db₀, rfl, rfl, List.mem_map.mpr ⟨post, hpost, rfl⟩⟩
  refine (run_history (I := fun es s => run step (init db₀) es = some s ∧ Ledger db₀ s ∧
    ∀ c, Confined (Legit db₀ es c) (s.client c)) ⟨rfl, ledger_init db₀, hinit⟩ ?_ hr).2
  rintro pre s ev s' ⟨hpre, hs, hc⟩ h
  exact ⟨run_concat.mpr ⟨s, hpre, h⟩, ledger_step hs h, confined_event hpre hs hc h⟩

end History

/-- In every run, every row that a device shows is a post which the server has stored at some time or a
    save made on that device: no device ever shows a save of another one that is still to be judged or
    has been refused. -/
theorem no_phantom_rows (db₀ : Value) (es : List Event) (s : State)
    (hr : run step (init db₀) es = some s) (c : ℕ) :
    ∀ vc ∈ (s.client c).homes, ∀ post ∈ vc.posts, Legit db₀ es c (entryOf post) :=
  ((confined_run hr).2 c).posts

omit [URLSyntax] in
/-- Bob sees Ann's post after the server has stored it. -/
theorem no_phantom_rows_first : ∃ (_ : URLSyntax) (es : List Event) (s : State) (vc : HomeVC)
    (post : Post), run step (init .null) es = some s ∧ (s.client 1).homes[0]? = some vc ∧
      vc.posts = [post] ∧ Legit .null es 1 (entryOf post) := by
  let _ := nonEmptyURLs
  let es : List Event := [.device 0 (.profile (some ann)), .device 0 .viewDidLoad,
    .device 1 .viewDidLoad, .device 0 (.home 0 (.edit "hi")), .savePost 0 0 "-L1" 1, .store 0 2,
    .device 1 .receive, .device 1 (.home 0 .valueEvent), .device 1 (.home 0 .valueEvent)]
  obtain ⟨s, hs, hp⟩ := exists_of_run_any step (init .null) es
    (fun s => (s.client 1).homes[0]?.map (fun vc => vc.posts.length) = some 1) (by decide)
  obtain ⟨vc, hvc, hlen⟩ := Option.map_eq_some_iff.mp (decide_eq_true_iff.mp hp)
  obtain ⟨post, hpost⟩ := List.length_eq_one_iff.mp hlen
  refine ⟨nonEmptyURLs, es, s, vc, post, hs, hvc, hpost, ?_⟩
  exact no_phantom_rows .null es s hs 1 vc (List.mem_of_getElem? hvc) post
    (by rw [hpost]; exact List.mem_singleton_self post)

/-! ### The author keeps seeing the post -/

/-- What the server sends when it applies the save of a stored post. -/
def Made (stored : List Entry) (w : Write) (u : Path × Value) : Prop :=
  ∃ e ∈ stored, w.origin = some e ∧ u.1 = postsRef ++ [e.key]

/-- The saves whose answer the device has not got. -/
def unanswered (r : Replica Value (Path × Value) Write) : List Entry :=
  (r.answered ++ r.queue).filterMap Write.origin

/-- Device `c` does not lose its own posts between their save and the answer to it. -/
structure Attends (stored : List Entry) (taps : List (ℕ × Entry)) (c : ℕ)
    (r : Replica Value (Path × Value) Write) : Prop where
  proper : ∀ w ∈ r.answered, Proper w
  once : (unanswered r).Nodup
  tapped : ∀ e ∈ unanswered r, (c, e) ∈ taps
  /-- a stored post comes before the answer to its save -/
  trails : Replica.Trails (Made stored) r.inbox r.answered
  /-- after the answer nothing on its way touches the post -/
  settled : ∀ e ∈ stored, (c, e) ∈ taps → e ∉ unanswered r →
    ∀ u, .data u ∈ r.inbox → u.1 ≠ postsRef ++ [e.key]

section Attends
variable {stored stored' : List Entry} {taps : List (ℕ × Entry)} {c : ℕ} {e : Entry}
variable {r r' : Replica Value (Path × Value) Write} {w : Write}

theorem mem_unanswered : e ∈ unanswered r ↔ ∃ w ∈ r.answered ++ r.queue, w.origin = some e :=
  List.mem_filterMap

theorem unanswered_enqueue (w : Write) (r : Replica Value (Path × Value) Write) :
    unanswered (r.enqueue w) = unanswered r ++ w.origin.toList := by
  rw [unanswered, unanswered, Replica.enqueue, ← List.append_assoc, List.filterMap_append]
  cases hw : w.origin <;> simp [hw]

theorem unanswered_answer (ok : Bool) (r : Replica Value (Path × Value) Write) :
    unanswered (r.answer ok) = unanswered r := by
  unfold Replica.answer
  split
  · rfl
  · next w ws hq => simp [unanswered, hq]

theorem Attends.enqueue_remove (h : Attends stored taps c r) (hw : w.origin = none) :
    Attends stored taps c (r.enqueue w) := by
  have hsame : unanswered (r.enqueue w) = unanswered r := by
    rw [unanswered_enqueue, hw]
    exact List.append_nil _
  refine ⟨h.proper, ?_, ?_, h.trails, ?_⟩
  · rw [hsame]; exact h.once
  · rw [hsame]; exact h.tapped
  · rw [hsame]; exact h.settled

theorem Attends.enqueue_save (h : Attends stored taps c r) (hnew : ∀ t ∈ taps, t.2.key ≠ e.key)
    (hw : w.origin = some e) : Attends stored (taps ++ [(c, e)]) c (r.enqueue w) := by
  have hmore : unanswered (r.enqueue w) = unanswered r ++ [e] := by
    rw [unanswered_enqueue, hw]
    rfl
  refine ⟨h.proper, ?_, ?_, h.trails, ?_⟩
  · rw [hmore, List.nodup_append]
    refine ⟨h.once, List.nodup_singleton _, ?_⟩
    rintro x hx y hy rfl
    rw [List.mem_singleton.mp hy] at hx
    exact hnew _ (h.tapped _ hx) rfl
  · intro e' he'
    rw [hmore] at he'
    rcases List.mem_append.mp he' with he' | he'
    · exact List.mem_append_left _ (h.tapped e' he')
    · rw [List.mem_singleton.mp he']
      exact List.mem_append_right _ (List.mem_singleton_self _)
  · intro e' hstored htap hdone
    rw [hmore] at hdone
    refine h.settled e' hstored ?_ (fun hmem => hdone (List.mem_append_left _ hmem))
    rcases List.mem_append.mp htap with htap | htap
    · exact htap
    · cases List.mem_singleton.mp htap
      exact absurd (List.mem_append_right _ (List.mem_singleton_self _)) hdone

theorem Attends.answer (h : Attends stored taps c r) (hq : ∀ w ∈ r.queue, Proper w) (ok : Bool) :
    Attends stored taps c (r.answer ok) := by
  have hsame := unanswered_answer ok r
  refine ⟨?_, by rw [hsame]; exact h.once, by rw [hsame]; exact h.tapped, ?_, ?_⟩
  · unfold Replica.answer
    split
    · exact h.proper
    · next w ws hqueue =>
      intro w' hw'
      rcases List.mem_append.mp hw' with hw' | hw'
      · exact h.proper w' hw'
      · rw [List.mem_singleton.mp hw']
        exact hq w (by rw [hqueue]; exact List.mem_cons_self ..)
  · unfold Replica.answer
    split
    · exact h.trails
    · exact h.trails.answer_concat ok _
  · intro e he htap hdone u hu
    rw [hsame] at hdone
    refine h.settled e he htap hdone u ?_
    unfold Replica.answer at hu
    split at hu
    · exact hu
    · simpa using hu

/-- The server applies the write `w` of some device, in `u`. -/
theorem Attends.send {u : Path × Value} (h : Attends stored taps c r) (hu : u.1 = w.path)
    (hgrow : ∀ e ∈ stored', e ∈ stored ∨ w.origin = some e)
    (hpath : ∀ e ∈ stored', w.path = postsRef ++ [e.key] → w.origin = some e)
    (hjudged : ∀ e, w.origin = some e → ∀ w' ∈ r.answered, w'.origin ≠ some e)
    (hmine : ∀ e, w.origin = some e → (c, e) ∈ taps → e ∈ unanswered r) :
    Attends stored' taps c (r.send u) := by
  refine ⟨h.proper, h.once, h.tapped, ?_, ?_⟩
  · refine (h.trails.mono ?_).send ?_
    · rintro w' hw' u' ⟨e, he, horigin, hu'⟩
      rcases hgrow e he with he | he
      · exact ⟨e, he, horigin, hu'⟩
      · exact absurd horigin (hjudged e he w' hw')
    · rintro w' hw' ⟨e, he, horigin, hu'⟩
      exact hjudged e (hpath e he (hu.symm.trans hu')) w' hw' horigin
  · intro e he htap hdone u' hu' hat
    rcases List.mem_append.mp hu' with hu' | hu'
    · rcases hgrow e he with he | he
      · exact h.settled e he htap hdone u' hu' hat
      · exact hdone (hmine e he htap)
    · cases List.mem_singleton.mp hu'
      exact hdone (hmine e (hpath e he (hu.symm.trans hat)) htap)

theorem Attends.receive (h : Attends stored taps c r) {o : Option (Write × Bool)}
    (hr : r.receive put = some (o, r')) : Attends stored taps c r' := by
  have htrails := h.trails
  rcases Replica.receive_eq.mp hr with ⟨u, us, hin, -, rfl⟩ | ⟨ok, us, w, ws, hin, ha, -, rfl⟩
  · rw [hin] at htrails
    cases htrails with
    | data htrails =>
      refine ⟨h.proper, h.once, h.tapped, htrails, ?_⟩
      intro e he htap hdone u' hu'
      exact h.settled e he htap hdone u' (by rw [hin]; exact List.mem_cons_of_mem _ hu')
  · rw [hin, ha] at htrails
    have hpop : unanswered r = w.origin.toList ++ (ws ++ r.queue).filterMap Write.origin := by
      rw [unanswered, ha]
      cases hw : w.origin <;> simp [hw]
    cases htrails with
    | answer htrails hbefore =>
      refine ⟨?_, ?_, ?_, htrails, ?_⟩
      · exact fun w' hw' => h.proper w' (by rw [ha]; exact List.mem_cons_of_mem _ hw')
      · exact (hpop ▸ h.once).of_append_right
      · exact fun e he => h.tapped e (by rw [hpop]; exact List.mem_append_right _ he)
      · intro e he htap hdone u' hu' hat
        by_cases hw : w.origin = some e
        · exact hbefore u' ⟨e, he, hw, hat⟩ hu'
        · refine h.settled e he htap ?_ u' (by rw [hin]; exact List.mem_cons_of_mem _ hu') hat
          rw [hpop]
          intro hmem
          rcases List.mem_append.mp hmem with hmem | hmem
          · exact hw (Option.mem_toList.mp hmem)
          · exact hdone hmem

end Attends

section Run
variable {db₀ : Value} {s s' : State}

/-- What happens on a device leaves the saves of that device in sight. -/
theorem attends_local {stored : List Entry} {taps : List (ℕ × Entry)} {k : ℕ} {c c' : Client}
    {a : Local} (h : Attends stored taps k c.replica) (ha : c.step a = some c') :
    Attends stored taps k c'.replica := by
  have hmoves := moves_local ha
  generalize c'.replica = r at hmoves
  cases hmoves with
  | rest => exact h
  | remove => exact h.enqueue_remove rfl
  | receive hr => exact h.receive hr

/-- The server applies the oldest write of a device. -/
theorem attends_store {client : ℕ} {now : Rat} (hs : Ledger db₀ s)
    (ha : ∀ c, Attends s.stored s.taps c (s.client c).replica)
    (h : step s (.store client now) = some s') (c : ℕ) :
    Attends s'.stored s'.taps c (s'.client c).replica := by
  obtain ⟨w, ws, hq, rfl⟩ := step_store h
  have hmem : w ∈ (s.client client).replica.answered ++ (s.client client).replica.queue := by
    rw [hq]
    exact List.mem_append_right _ (List.mem_cons_self ..)
  have hproper := (hs.serves client).proper w (by rw [hq]; exact List.mem_cons_self ..)
  have hjudged : ∀ e, w.origin = some e → ∀ w' ∈ (s.client c).replica.answered,
      w'.origin ≠ some e := by
    intro e hw w' hw' horigin
    have htap := (ha client).tapped e (mem_unanswered.mpr ⟨w, hmem, hw⟩)
    have htap' := (ha c).tapped e (mem_unanswered.mpr ⟨w', List.mem_append_left _ hw', horigin⟩)
    obtain ⟨rfl, -⟩ := Prod.mk.inj (hs.tap_unique htap htap' rfl)
    have honce := (ha client).once
    rw [unanswered, hq, List.filterMap_append, List.filterMap_cons_some hw] at honce
    exact (List.nodup_append.mp honce).2.2 e (List.mem_filterMap.mpr ⟨w', hw', horigin⟩) e
      (List.mem_cons_self ..) rfl
  have hmine : ∀ e, w.origin = some e → (c, e) ∈ s.taps → e ∈ unanswered (s.client c).replica := by
    intro e hw htap
    have hun : e ∈ unanswered (s.client client).replica := mem_unanswered.mpr ⟨w, hmem, hw⟩
    obtain ⟨rfl, -⟩ := Prod.mk.inj (hs.tap_unique ((ha client).tapped e hun) htap rfl)
    exact hun
  have hgrow : ∀ e ∈ record s.stored w, e ∈ s.stored ∨ w.origin = some e := by
    intro e he
    cases hproper with
    | save e₀ estimate n =>
      rcases List.mem_append.mp he with he | he
      · exact Or.inl he
      · exact Or.inr (by rw [List.mem_singleton.mp he])
    | remove k => exact Or.inl (mem_record_remove.mp he).1
  have hpath : ∀ e ∈ record s.stored w, w.path = postsRef ++ [e.key] → w.origin = some e := by
    intro e he hat
    cases hproper with
    | save e₀ estimate n =>
      obtain rfl | hne := eq_or_ne e e₀
      · rfl
      · have hkey : e₀.key = e.key := by simpa [postsRef] using hat
        have hfree := (hs.tapped client e₀ (List.mem_filterMap.mpr
          ⟨_, by rw [hq]; exact List.mem_cons_self .., rfl⟩)).2
        rcases List.mem_append.mp he with he | he
        · exact absurd hkey.symm (hfree e he)
        · exact absurd (List.mem_singleton.mp he) hne
    | remove k =>
      have hkey : k = e.key := by simpa [removeValue, postsRef] using hat
      exact absurd hkey.symm (mem_record_remove.mp he).2
  have hsend := (ha c).send (u := (w.path, resolve now w.value)) rfl hgrow hpath hjudged hmine
  simp only [State.accept]
  split_ifs with hc
  · exact hsend.answer (fun w' hw' => (hs.serves c).proper w' hw') true
  · exact hsend

theorem attends_step {ev : Event} (hs : Ledger db₀ s)
    (ha : ∀ c, Attends s.stored s.taps c (s.client c).replica) (h : step s ev = some s') (c : ℕ) :
    Attends s'.stored s'.taps c (s'.client c).replica := by
  cases ev with
  | device client a =>
    obtain ⟨c', hc', rfl⟩ := step_device h
    exact (Function.forall_update_iff s.client
      (fun k c => Attends s.stored s.taps k c.replica)).mpr
      ⟨attends_local (ha client) hc', fun k _ => ha k⟩ c
  | savePost client n key estimate =>
    obtain ⟨vc, -, ⟨-, rfl⟩ | ⟨author, -, ⟨hnew, -⟩, rfl⟩⟩ := step_savePost h
    · exact ha c
    · refine (Function.forall_update_iff s.client (fun k c => Attends s.stored
        (s.taps ++ [(client, ⟨key, author, vc.textView⟩)]) k c.replica)).mpr ⟨?_, ?_⟩ c
      · exact (ha client).enqueue_save hnew rfl
      · intro k hk
        refine { ha k with tapped := ?_, settled := ?_ }
        · exact fun e he => List.mem_append_left _ ((ha k).tapped e he)
        · intro e he htap
          refine (ha k).settled e he ?_
          rcases List.mem_append.mp htap with htap | htap
          · exact htap
          · cases List.mem_singleton.mp htap
            exact absurd rfl hk
  | store client now => exact attends_store hs ha h c
  | reject client =>
    obtain rfl := step_reject h
    exact (Function.forall_update_iff s.client
      (fun k c => Attends s.stored s.taps k c.replica)).mpr
      ⟨(ha client).answer (hs.serves client).proper false, fun k _ => ha k⟩ c

/-- Unless its removal is on the way, the device has its own post in view: from the local guess while
    the answer is due, from the cache after that. -/
theorem feed_own {c : ℕ} {e : Entry} (hs : Ledger db₀ s)
    (ha : Attends s.stored s.taps c (s.client c).replica) (htap : (c, e) ∈ s.taps)
    (hlive : e ∈ saves (s.client c).replica ∨ e ∈ s.stored)
    (hkept : ∀ w ∈ (s.client c).replica.answered ++ (s.client c).replica.queue,
      w.path = postsRef ++ [e.key] → w.value ≠ .null)
    (hinbox : ∀ u, .data u ∈ (s.client c).replica.inbox → ∃ k, u.1 = postsRef ++ [k]) :
    ∃ post, postOf (snapshotAt (postsRef ++ [e.key])
      ((s.client c).replica.view put Write.guess)) = some post ∧ entryOf post = e := by
  have hproper : ∀ w ∈ (s.client c).replica.answered ++ (s.client c).replica.queue, Proper w := by
    intro w hw
    rcases List.mem_append.mp hw with hw | hw
    · exact ha.proper w hw
    · exact (hs.serves c).proper w hw
  -- an own write at the location brings the post, any other leaves it alone
  have hbring : ∀ w ∈ (s.client c).replica.answered ++ (s.client c).replica.queue,
      w.origin = some e → ∀ db, ∃ post, postOf (snapshotAt (postsRef ++ [e.key])
        (put db w.guess)) = some post ∧ entryOf post = e := by
    intro w hw horigin db
    cases hproper w hw with
    | save e' estimate n =>
      cases horigin
      rw [Write.guess, snapshotAt_put_self]
      exact postOf_save e estimate
    | remove k => cases horigin
  refine Replica.view_of (P := fun db => ∃ post,
    postOf (snapshotAt (postsRef ++ [e.key]) db) = some post ∧ entryOf post = e) ?_ ?_
  · intro w hw db hdb
    cases hproper w hw with
    | save e' estimate n =>
      by_cases hkey : e'.key = e.key
      · have htap' := ha.tapped e' (mem_unanswered.mpr ⟨_, hw, rfl⟩)
        obtain ⟨-, rfl⟩ := Prod.mk.inj (hs.tap_unique htap' htap hkey)
        exact hbring _ hw rfl db
      · rw [Write.guess, snapshotAt_put hkey]
        exact hdb
    | remove k =>
      by_cases hkey : k = e.key
      · exact absurd rfl (hkept _ hw (congrArg (fun key => postsRef ++ [key]) hkey))
      · rw [guess_removeValue, snapshotAt_put hkey]
        exact hdb
  · by_cases hun : e ∈ unanswered (s.client c).replica
    · obtain ⟨w, hw, horigin⟩ := mem_unanswered.mp hun
      exact Or.inr ⟨w, hw, hbring w hw horigin⟩
    · refine Or.inl ?_
      have hstored : e ∈ s.stored := by
        rcases hlive with hlive | hlive
        · obtain ⟨w, hw, horigin⟩ := List.mem_filterMap.mp hlive
          exact absurd (mem_unanswered.mpr ⟨w, List.mem_append_right _ hw, horigin⟩) hun
        · exact hlive
      have hcache : snapshotAt (postsRef ++ [e.key]) (s.client c).replica.cache =
          snapshotAt (postsRef ++ [e.key]) s.db := by
        refine (hs.serves c).synced.cache_eq ?_
        rintro ⟨path, v⟩ hu db
        obtain ⟨k, rfl⟩ := hinbox _ hu
        refine snapshotAt_put ?_ v db
        rintro rfl
        exact ha.settled e hstored htap hun _ hu rfl
      rw [hcache]
      exact (hs.stored e).mp hstored

theorem attends_run {es : List Event} (hr : run step (init db₀) es = some s) (c : ℕ) :
    Attends s.stored s.taps c (s.client c).replica := by
  have hinit : ∀ c, Attends (init db₀).stored (init db₀).taps c ((init db₀).client c).replica :=
    fun c => ⟨fun _ h => absurd h List.not_mem_nil, List.nodup_nil,
      fun _ h => absurd h List.not_mem_nil, .nil, fun _ _ h => absurd h List.not_mem_nil⟩
  refine (run_invariant (I := fun s => Ledger db₀ s ∧
    ∀ c, Attends s.stored s.taps c (s.client c).replica) ⟨ledger_init db₀, hinit⟩ ?_ hr).2 c
  rintro s ev s' ⟨hs, ha⟩ h
  exact ⟨ledger_step hs h, attends_step hs ha h⟩

end Run

/-- In every run, a post saved on a device is in the feed of that device as long as the server has not
    judged the save or has the post stored, unless the device has a removal of it on the way: also
    while the guess gives way to the stored post. Once its value events have been delivered, it is a row
    of every `HomeVC` there. -/
theorem own_post_visible (db₀ : Value) (es : List Event) (s : State)
    (hr : run step (init db₀) es = some s) (c : ℕ) (e : Entry) (htap : (c, e) ∈ s.taps)
    (hlive : e ∈ saves (s.client c).replica ∨ e ∈ s.stored)
    (hkept : ∀ w ∈ (s.client c).replica.answered ++ (s.client c).replica.queue,
      w.path = postsRef ++ [e.key] → w.value ≠ .null) :
    (∃ post ∈ observePosts ⟨postsRef, feed (s.client c).replica⟩, entryOf post = e) ∧
      ∀ vc ∈ (s.client c).homes, vc.listener.pending = [] →
        ∃ post ∈ vc.posts, entryOf post = e := by
  obtain ⟨hs, hc⟩ := confined_run hr
  have hinbox : ∀ u, .data u ∈ (s.client c).replica.inbox → ∃ k, u.1 = postsRef ++ [k] := by
    intro u hu
    cases (hc c).carries.inbox u hu with
    | save e now he => exact ⟨e.key, rfl⟩
    | remove k => exact ⟨k, rfl⟩
  obtain ⟨post, hpost, hentry⟩ := feed_own hs (attends_run hr c) htap hlive hkept hinbox
  have hfeed : post ∈ observePosts ⟨postsRef, feed (s.client c).replica⟩ := mem_posts.mpr ⟨_, hpost⟩
  refine ⟨⟨post, hfeed, hentry⟩, ?_⟩
  intro vc hvc hp
  have hshows := (hs.serves c).homes vc hvc
  have hshown := hshows.shown _ (hshows.tracks.seen hp)
  exact ⟨post, by rw [hshown]; exact hfeed, hentry⟩

omit [URLSyntax] in
/-- Ann sees her post between the arrival of the stored post and that of the answer, while an older
    post of hers is being removed. -/
theorem own_post_visible_twice : ∃ (_ : URLSyntax) (es : List Event) (s : State) (vc : HomeVC)
    (e : Entry), run step (init .null) es = some s ∧ e.key = "-L2" ∧
      (s.client 0).replica.answered.length = 1 ∧ (s.client 0).replica.queue.length = 1 ∧
      (s.client 0).homes[0]? = some vc ∧ ∃ post ∈ vc.posts, entryOf post = e := by
  let _ := nonEmptyURLs
  let es : List Event := [.device 0 (.profile (some ann)), .device 0 (.auth (some "A")),
    .device 0 .viewDidLoad, .device 0 (.home 0 (.edit "one")), .savePost 0 0 "-L1" 1, .store 0 2,
    .device 0 .receive, .device 0 .receive, .device 0 (.home 0 (.edit "two")),
    .savePost 0 0 "-L2" 3, .device 0 (.home 0 .valueEvent), .device 0 (.home 0 .valueEvent),
    .device 0 (.home 0 .valueEvent), .device 0 (.home 0 .valueEvent), .store 0 4,
    .device 0 (.home 0 (.editActions 0)), .device 0 (.delete 0 0), .device 0 .receive,
    .device 0 (.home 0 .valueEvent)]
  let e : Entry := ⟨"-L2", ann, "two"⟩
  obtain ⟨s, hs, hp⟩ := exists_of_run_any step (init .null) es
    (fun s => (0, e) ∈ s.taps ∧ e ∈ s.stored ∧
      (s.client 0).replica.answered.length = 1 ∧ (s.client 0).replica.queue.length = 1 ∧
      (∀ w ∈ (s.client 0).replica.answered ++ (s.client 0).replica.queue,
        w.path = postsRef ++ [e.key] → w.value ≠ .null) ∧
      (s.client 0).homes[0]?.map (fun vc => vc.listener.pending) = some []) (by decide)
  obtain ⟨htap, hstored, hanswered, hqueue, hkept, hlistener⟩ := decide_eq_true_iff.mp hp
  obtain ⟨vc, hvc, hpending⟩ := Option.map_eq_some_iff.mp hlistener
  exact ⟨nonEmptyURLs, es, s, vc, e, hs, rfl, hanswered, hqueue, hvc,
    (own_post_visible .null es s hs 0 e htap (Or.inr hstored) hkept).2 vc (List.mem_of_getElem? hvc)
      hpending⟩

end PostApp.Feed
