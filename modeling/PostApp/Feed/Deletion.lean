import PostApp.Feed.Posts

/-! Who may delete a post.

    The rule stands in two places: `canEditRowAt` offers a row's actions only to the author of its
    post, and `editActionsForRowAt` captures the post and the user for a handler that asks again when
    it fires, after any number of value events. Whatever happens in between, the handler removes the
    post that was in the row and no other, and only if its author was signed in when the actions were
    requested; no post leaves the database in any other way (`removes_own_post`). -/

namespace PostApp.Feed
open Schemes
variable [URLSyntax]

/-- `HomeVC.tableView(_:canEditRowAt:)`; none if there is no such row. -/
def canEditRowAt (currentUser : Option String) (vc : HomeVC) (row : ℕ) : Option Bool := do
  let myPost ← vc.posts[row]?
  if currentUser = some myPost.author.uId then some true else some false

/-- `removeValue` at the location of the post with this key. -/
def removal (key : String) : Write := removeValue (postsRef ++ [key])

/-- The removals that a device has yet to send. -/
def removals (c : Client) : List Write := c.replica.queue.filter (fun w => w.origin.isNone)

/-- The post in a row of `HomeVC` number `n`. -/
def Client.postAt (c : Client) (n row : ℕ) : Option Post := c.homes[n]?.bind (fun vc => vc.posts[row]?)

/-- The handlers handed to the table of `HomeVC` number `n`, in the order of the requests. -/
def Client.handlers (c : Client) (n : ℕ) : List DeleteAction := (c.homes[n]?.map HomeVC.actions).getD []

/-- The post in this row is the one of the user who is signed in. -/
def Own (c : Client) (n row : ℕ) (post : Post) : Prop :=
  c.postAt n row = some post ∧ c.currentUser = some post.author.uId

/-- Does the event request the actions of a row of this `HomeVC`? -/
def requests (client n : ℕ) : Event → Bool
  | .device k (.home m (.editActions _)) => decide (k = client ∧ m = n)
  | _ => false

/-- The request number `i` of `HomeVC` number `n` was made for this row, in the state `m`. -/
def Requested (db₀ : Value) (pre : List Event) (client n i row : ℕ) (m : State) : Prop :=
  ∃ pre₁ mid, pre = pre₁ ++ .device client (.home n (.editActions row)) :: mid ∧
    pre₁.countP (requests client n) = i ∧ run step (init db₀) pre₁ = some m

/-- The rule of the two functions is the same. -/
theorem canEditRowAt_iff {c : Client} {vc : HomeVC} {n row : ℕ} (hvc : c.homes[n]? = some vc) :
    canEditRowAt c.currentUser vc row = some true ↔ ∃ post, Own c n row post := by
  rw [canEditRowAt, Option.bind_eq_bind, Option.bind_eq_some_iff]
  refine exists_congr (fun post => ?_)
  rw [Own, Client.postAt, hvc, Option.bind_some]
  refine and_congr_right (fun _ => ?_)
  split_ifs with hown
  · exact iff_of_true rfl hown
  · exact iff_of_false (by simp) hown

/-- What a run has requested stays requested. -/
theorem Requested.concat {db₀ : Value} {pre : List Event} {client n i row : ℕ} {m : State}
    (h : Requested db₀ pre client n i row m) (e : Event) :
    Requested db₀ (pre ++ [e]) client n i row m := by
  obtain ⟨pre₁, mid, rfl, hi, hm⟩ := h
  refine ⟨pre₁, mid ++ [e], ?_, hi, hm⟩
  rw [List.append_assoc, List.cons_append]

/-! ### What a step does to one device -/

section
variable {db₀ : Value} {pre : List Event} {s s' : State} {e : Event}

theorem handlers_of_some {c : Client} {n : ℕ} {vc : HomeVC} (hvc : c.homes[n]? = some vc) :
    c.handlers n = vc.actions := by
  rw [Client.handlers, hvc]
  rfl

theorem handlers_of_none {c : Client} {n : ℕ} (hnone : c.homes[n]? = none) : c.handlers n = [] := by
  rw [Client.handlers, hnone]
  rfl

/-- Only a request adds to the actions of a `HomeVC`. -/
theorem actions_own {currentUser : Option String} {vc vc' : HomeVC} {a : AtHome}
    (h : vc.step currentUser a = some vc') (ha : ∀ row, a ≠ .editActions row) :
    vc'.actions = vc.actions := by
  cases a with
  | edit text =>
    cases h
    rfl
  | valueEvent =>
    obtain ⟨_, _, -, rfl⟩ := home_valueEvent h
    rfl
  | editActions row => exact absurd rfl (ha row)
  | completion =>
    obtain ⟨_, _, -, ⟨-, rfl⟩ | ⟨-, rfl⟩⟩ := home_completion h
    · rfl
    · rfl

theorem requests_eq_false {k n : ℕ} (he : ∀ a, e ≠ .device k (.home n a)) : requests k n e = false := by
  unfold requests
  split
  · next k' m row =>
    refine decide_eq_false ?_
    rintro ⟨rfl, rfl⟩
    exact he _ rfl
  · rfl

/-- The handlers of a `HomeVC` grow by that of the row that is requested, and by no others. -/
theorem handlers_step (h : step s e = some s') (k n : ℕ) :
    (∃ row post, e = .device k (.home n (.editActions row)) ∧
      (s.client k).postAt n row = some post ∧ (s'.client k).handlers n =
        (s.client k).handlers n ++ [⟨(s.client k).currentUser, post⟩]) ∨
    (requests k n e = false ∧ (s'.client k).handlers n = (s.client k).handlers n) := by
  cases hvc' : (s'.client k).homes[n]? with
  | none =>
    have hlen := homes_step h k
    have hnone : (s.client k).homes[n]? = none := by
      rw [List.getElem?_eq_none_iff] at hvc' ⊢
      omega
    refine Or.inr ⟨requests_eq_false ?_, by rw [handlers_of_none hvc', handlers_of_none hnone]⟩
    rintro a rfl
    obtain ⟨vc, _, hvc, -⟩ := step_home h
    rw [hnone] at hvc
    cases hvc
  | some vc' =>
    rw [handlers_of_some hvc']
    cases turn_step h hvc' with
    | load hnone => exact Or.inr ⟨rfl, (handlers_of_none hnone).symm⟩
    | @own a vc _ hvc hstep =>
      rw [handlers_of_some hvc]
      cases a with
      | editActions row =>
        obtain ⟨post, hpost, rfl⟩ := home_editActions hstep
        exact Or.inl ⟨row, post, rfl, by rw [Client.postAt, hvc]; exact hpost, rfl⟩
      | edit | valueEvent | completion => exact Or.inr ⟨rfl, actions_own hstep (by simp)⟩
    | told he hvc => exact Or.inr ⟨requests_eq_false he, (handlers_of_some hvc).symm⟩
    | answered _ hvc => exact Or.inr ⟨rfl, (handlers_of_some hvc).symm⟩

/-- Only its Delete handlers add to the removals of a device. -/
theorem removals_step (h : step s e = some s') {k : ℕ} (he : ∀ n i, e ≠ .device k (.delete n i)) :
    (removals (s'.client k)).Sublist (removals (s.client k)) := by
  cases e with
  | device client a =>
    obtain ⟨c, hc, rfl⟩ := step_device h
    by_cases hk : k = client
    · subst hk
      simp only [Function.update_self]
      rw [removals, removals, queue_device hc (fun n i ha => he n i (by rw [ha]))]
    · simp only [Function.update_of_ne hk]
      exact List.Sublist.refl _
  | savePost client n key estimate =>
    obtain ⟨vc, -, ⟨-, rfl⟩ | ⟨author, -, -, rfl⟩⟩ := step_savePost h
    · exact List.Sublist.refl _
    · by_cases hk : k = client
      · subst hk
        simp only [Function.update_self]
        rw [removals, Client.sync, Replica.enqueue, List.filter_append,
          List.filter_cons_of_neg (by simp), List.filter_nil, List.append_nil]
        exact List.Sublist.refl _
      · simp only [Function.update_of_ne hk]
        exact List.Sublist.refl _
  | store client now =>
    obtain ⟨w, ws, -, rfl⟩ := step_store h
    simp only [State.accept]
    split_ifs
    · exact (Replica.queue_answer true ((s.client k).replica.send _)).filter _
    · exact List.Sublist.refl _
  | reject client =>
    rw [step_reject h]
    by_cases hk : k = client
    · subst hk
      simp only [Function.update_self]
      exact (Replica.queue_answer false _).filter _
    · simp only [Function.update_of_ne hk]
      exact List.Sublist.refl _

/-- The Delete handler changes its own replica, by the removal of the captured post or not at all. -/
theorem replica_delete {k n i : ℕ} (h : step s (.device k (.delete n i)) = some s') :
    ∃ a, ((s.client k).handlers n)[i]? = some a ∧ (s'.client k).replica =
      if a.curentUser = some a.postToDelete.author.uId then
        (s.client k).replica.enqueue (removeValue a.postToDelete.ref)
      else (s.client k).replica := by
  obtain ⟨c, hc, rfl⟩ := step_device h
  simp only [Function.update_self]
  obtain ⟨vc, a, hvc, ha, ⟨hown, rfl⟩ | ⟨hother, rfl⟩⟩ := client_delete hc
  · exact ⟨a, by rw [handlers_of_some hvc]; exact ha, by rw [if_pos hown]; rfl⟩
  · exact ⟨a, by rw [handlers_of_some hvc]; exact ha, by rw [if_neg hother]⟩

/-! ### The whole run -/

/-- The handler captured its post in the row of request number `i`, and the user of that moment. -/
def Captured (db₀ : Value) (pre : List Event) (k n i : ℕ) (a : DeleteAction) : Prop :=
  ∃ row m, Requested db₀ pre k n i row m ∧ (m.client k).postAt n row = some a.postToDelete ∧
    a.curentUser = (m.client k).currentUser

theorem Captured.concat {k n i : ℕ} {a : DeleteAction} (h : Captured db₀ pre k n i a) (e : Event) :
    Captured db₀ (pre ++ [e]) k n i a := by
  obtain ⟨row, m, hreq, hpost, huser⟩ := h
  exact ⟨row, m, hreq.concat e, hpost, huser⟩

/-- Where the handlers and the removals of the devices come from. -/
structure Traced (db₀ : Value) (pre : List Event) (s : State) : Prop where
  run : run step (init db₀) pre = some s
  ledger : Ledger db₀ s
  counted : ∀ k n, ((s.client k).handlers n).length = pre.countP (requests k n)
  handlers : ∀ k n i a, ((s.client k).handlers n)[i]? = some a → Captured db₀ pre k n i a
  waiting : ∀ k, ∀ w ∈ removals (s.client k), ∃ n i a, Captured db₀ pre k n i a ∧
    a.curentUser = some a.postToDelete.author.uId ∧ w = removal a.postToDelete.id

theorem traced_init (db : Value) : Traced db [] (init db) where
  run := rfl
  ledger := ledger_init db
  counted := fun _ _ => rfl
  handlers := fun _ _ _ _ h => (by cases h)
  waiting := fun _ _ h => (List.not_mem_nil h).elim

/-- A Delete handler issues the removal of the post it captured, if that was the user's own. -/
theorem Traced.delete {k n i : ℕ} (hs : Traced db₀ pre s)
    (h : step s (.device k (.delete n i)) = some s') :
    ∃ a, Captured db₀ pre k n i a ∧ (s'.client k).replica =
      if a.curentUser = some a.postToDelete.author.uId then
        (s.client k).replica.enqueue (removal a.postToDelete.id)
      else (s.client k).replica := by
  obtain ⟨c, hc, -⟩ := step_device h
  obtain ⟨vc, _, hvc, -⟩ := client_delete hc
  obtain ⟨a, ha, hreplica⟩ := replica_delete h
  refine ⟨a, hs.handlers k n i a ha, ?_⟩
  rw [handlers_of_some hvc] at ha
  rw [hreplica, removal, (hs.ledger.serves k).action_ref hvc ha]

theorem captured_step (hs : Traced db₀ pre s) (h : step s e = some s') (k n i : ℕ)
    (a : DeleteAction) (ha : ((s'.client k).handlers n)[i]? = some a) :
    Captured db₀ (pre ++ [e]) k n i a := by
  rcases handlers_step h k n with ⟨row, post, rfl, hpost, hacts⟩ | ⟨-, hacts⟩
  · rw [hacts] at ha
    by_cases hi : i < ((s.client k).handlers n).length
    · rw [List.getElem?_append_left hi] at ha
      exact (hs.handlers k n i a ha).concat _
    · -- the handler of the request that has just been made
      rw [List.getElem?_append_right (Nat.not_lt.mp hi), List.getElem?_singleton] at ha
      split_ifs at ha with hzero
      cases ha
      refine ⟨row, s, ⟨pre, [], rfl, ?_, hs.run⟩, hpost, rfl⟩
      rw [← hs.counted k n]
      omega
  · rw [hacts] at ha
    exact (hs.handlers k n i a ha).concat e

theorem waiting_step (hs : Traced db₀ pre s) (h : step s e = some s') (k : ℕ) (w : Write)
    (hw : w ∈ removals (s'.client k)) : ∃ n i a, Captured db₀ (pre ++ [e]) k n i a ∧
      a.curentUser = some a.postToDelete.author.uId ∧ w = removal a.postToDelete.id := by
  have hold : w ∈ removals (s.client k) → ∃ n i a, Captured db₀ (pre ++ [e]) k n i a ∧
      a.curentUser = some a.postToDelete.author.uId ∧ w = removal a.postToDelete.id := by
    intro hw
    obtain ⟨n, i, a, hcap, hown, rfl⟩ := hs.waiting k w hw
    exact ⟨n, i, a, hcap.concat e, hown, rfl⟩
  by_cases he : ∃ n i, e = .device k (.delete n i)
  · obtain ⟨n, i, rfl⟩ := he
    obtain ⟨a, hcap, hreplica⟩ := hs.delete h
    rw [removals, hreplica] at hw
    split_ifs at hw with hown
    · rw [Replica.enqueue, List.filter_append] at hw
      rcases List.mem_append.mp hw with hw | hw
      · exact hold hw
      · exact ⟨n, i, a, hcap.concat _, hown, List.mem_singleton.mp (List.mem_of_mem_filter hw)⟩
    · exact hold hw
  · exact hold ((removals_step h (fun n i heq => he ⟨n, i, heq⟩)).subset hw)

theorem traced_step (hs : Traced db₀ pre s) (h : step s e = some s') :
    Traced db₀ (pre ++ [e]) s' := by
  refine ⟨run_concat.mpr ⟨s, hs.run, h⟩, ledger_step hs.ledger h, ?_, captured_step hs h,
    waiting_step hs h⟩
  intro k n
  rw [List.countP_append, List.countP_singleton, ← hs.counted k n]
  rcases handlers_step h k n with ⟨row, post, rfl, -, hacts⟩ | ⟨hreq, hacts⟩
  · rw [hacts, List.length_append, List.length_singleton, if_pos (by simp [requests])]
  · rw [hacts, hreq]
    rfl

/-! ### What may be removed -/

/-- What a step may remove. -/
structure RemovesOwn (db₀ : Value) (pre : List Event) (s : State) (e : Event) (s' : State) :
    Prop where
  /-- a handler removes the post that was in the row, if it was the user's own, and nothing else -/
  handler : ∀ k n i, e = .device k (.delete n i) → ∃ row m post, Requested db₀ pre k n i row m ∧
    (m.client k).postAt n row = some post ∧
    (s'.client k).replica.queue = (s.client k).replica.queue ++
      (if (m.client k).currentUser = some post.author.uId then [removal post.id] else []) ∧
    ∀ key, key ≠ post.id →
      (feed (s'.client k).replica).child key = (feed (s.client k).replica).child key
  /-- no other event issues a removal -/
  only : ∀ k, (∀ n i, e ≠ .device k (.delete n i)) →
    (removals (s'.client k)).Sublist (removals (s.client k))
  /-- what leaves the database is a post whose removal was issued so -/
  stored : ∀ key, s.db.get (postsRef ++ [key]) ≠ .null → s'.db.get (postsRef ++ [key]) = .null →
    ∃ k n i row m post, Requested db₀ pre k n i row m ∧ Own (m.client k) n row post ∧ post.id = key

/-- A removal that a device issues empties one place of its own feed. -/
theorem feed_enqueue_removal {r : Replica Value (Path × Value) Write} {key key' : String}
    (hne : key' ≠ key) : (feed (r.enqueue (removal key))).child key' = (feed r).child key' := by
  have hview : (r.enqueue (removal key)).view put Write.guess =
      put (r.view put Write.guess) (removal key).guess := by
    rw [Replica.view, Replica.enqueue, ← List.append_assoc, List.foldl_append, Replica.view]
    rfl
  have happ := snapshotAt_put (Ne.symm hne) (resolve 0 .null) (r.view put Write.guess)
  have hget := congrArg DataSnapshot.value happ
  rw [snapshotAt, snapshotAt, Node.get_append, Node.get_append] at hget
  rw [feed, hview]
  exact hget

/-- A write that empties the place of a post is the removal of that post. -/
theorem emptied_by {w : Write} {db : Value} {now : Rat} {key : String} (hw : Proper w)
    (hne : db.get (postsRef ++ [key]) ≠ .null)
    (hnull : (put db (w.path, resolve now w.value)).get (postsRef ++ [key]) = .null) :
    w = removal key ∧ w.origin = none := by
  have hother : ∀ {k v}, k ≠ key → (put db (postsRef ++ [k], v)).get (postsRef ++ [key]) =
      db.get (postsRef ++ [key]) :=
    fun hk => congrArg DataSnapshot.value (snapshotAt_put hk _ db)
  cases hw with
  | save e estimate n =>
    by_cases hk : e.key = key
    · have hself := congrArg DataSnapshot.value
        (snapshotAt_put_self e.key (resolve now (postObject e.author e.text)) db)
      obtain ⟨post, hpost, -⟩ := postOf_save e now
      rw [hk] at hself hnull
      exact absurd (hself.symm.trans hnull) (postOf_ref_id hpost).2.2
    · rw [hother hk] at hnull
      exact absurd hnull hne
  | remove k =>
    by_cases hk : k = key
    · rw [hk]
      exact ⟨rfl, rfl⟩
    · exact absurd ((hother hk).symm.trans hnull) hne

/-- A post leaves the database only when the removal of its captured self is applied. -/
theorem stored_step (hs : Traced db₀ pre s) (h : step s e = some s') {key : String}
    (hne : s.db.get (postsRef ++ [key]) ≠ .null) (hnull : s'.db.get (postsRef ++ [key]) = .null) :
    ∃ k n i a, Captured db₀ pre k n i a ∧ a.curentUser = some a.postToDelete.author.uId ∧
      a.postToDelete.id = key := by
  cases e with
  | device client a =>
    obtain ⟨c, -, rfl⟩ := step_device h
    exact absurd hnull hne
  | savePost client m key' estimate =>
    obtain ⟨_, -, ⟨-, rfl⟩ | ⟨author, -, -, rfl⟩⟩ := step_savePost h
    · exact absurd hnull hne
    · exact absurd hnull hne
  | reject client =>
    rw [step_reject h] at hnull
    exact absurd hnull hne
  | store client now =>
    obtain ⟨w, ws, hq, rfl⟩ := step_store h
    have hmem : w ∈ (s.client client).replica.queue := by
      rw [hq]
      exact List.mem_cons_self ..
    obtain ⟨rfl, ho⟩ := emptied_by ((hs.ledger.serves client).proper w hmem) hne hnull
    obtain ⟨n, i, a, hcap, hown, heq⟩ := hs.waiting client _
      (List.mem_filter.mpr ⟨hmem, by rw [ho]; rfl⟩)
    refine ⟨client, n, i, a, hcap, hown, ?_⟩
    have hpath : postsRef ++ [key] = postsRef ++ [a.postToDelete.id] := congrArg Write.path heq
    exact (List.singleton_inj.mp (List.append_cancel_left hpath)).symm

theorem removesOwn_step (hs : Traced db₀ pre s) (h : step s e = some s') :
    RemovesOwn db₀ pre s e s' := by
  refine ⟨?_, fun k he => removals_step h he, ?_⟩
  · rintro k n i rfl
    obtain ⟨a, ⟨row, m, hreq, hpost, huser⟩, hreplica⟩ := hs.delete h
    refine ⟨row, m, a.postToDelete, hreq, hpost, ?_⟩
    rw [hreplica, ← huser]
    split_ifs with hown
    · exact ⟨rfl, fun key hne => feed_enqueue_removal hne⟩
    · exact ⟨(List.append_nil _).symm, fun key _ => rfl⟩
  · intro key hne hnull
    obtain ⟨k, n, i, a, ⟨row, m, hreq, hpost, huser⟩, hown, hkey⟩ := stored_step hs h hne hnull
    rw [huser] at hown
    exact ⟨k, n, i, row, m, a.postToDelete, hreq, ⟨hpost, hown⟩, hkey⟩

/-- In every run of any devices: each Delete handler removes exactly the post that was in its row when
    the actions were requested, provided its author was signed in then, and nothing otherwise; no
    other event issues a removal; and a post leaves the database only through such a removal. -/
theorem removes_own_post (db : Value) (es : List Event) :
    Along step (RemovesOwn db) (init db) es :=
  along_of_invariant (I := Traced db) es (traced_init db)
    (fun _ _ _ _ hs h => traced_step hs h) (fun _ _ _ _ hs h => removesOwn_step hs h)

end

omit [URLSyntax] in
/-- Ann's request for the first row; Bob's new post takes that row, and Bob signs in. -/
example : letI := nonEmptyURLs; (run step (init (put .null
      (postsRef ++ ["-P2"], resolve 1 (postObject ann "hi"))))
    [.device 0 (.auth (some "A")), .device 0 .viewDidLoad, .device 0 (.home 0 .valueEvent),
      .device 0 (.home 0 (.editActions 0)), .device 1 (.profile (some bob)), .device 1 .viewDidLoad,
      .device 1 (.home 0 (.edit "ho")), .savePost 1 0 "-P1" 2, .store 1 3, .device 0 .receive,
      .device 0 (.home 0 .valueEvent), .device 0 (.auth (some "B")), .device 0 (.delete 0 0)]).any
    (fun s => ((s.client 0).postAt 0 0).map Post.id = some "-P1" ∧
      (s.client 0).replica.queue = [removal "-P2"]) = true := by decide

end PostApp.Feed
