import PostApp.Chat.Invariant

/-! Conversations do not interfere.

    A leg reads the whole chat node of a user, which sends of other people keep changing, but it only
    asks for one child of it, and it writes below that child. So the run without the sends that are
    not between X and Y is a run, and keeps the two copies of their conversation in step with the
    full run; and no send touches a profile field, a post or a conversation of another pair
    (`conversations_do_not_interfere`). -/

namespace PostApp.Chat
open Schemes
variable [URLSyntax]

/-- The step changes neither a profile field, nor a post, nor a conversation of another pair. -/
structure Frame (s : State) (e : Event) (s' : State) : Prop where
  profiles : ∀ uId field, field ≠ "chat" →
    s'.db.get (profileRef uId ++ [field]) = s.db.get (profileRef uId ++ [field])
  posts : s'.db.get postsRef = s.db.get postsRef
  others : ∀ x y, ¬ Between e.send x y →
    s'.db.get (conversationRef x y) = s.db.get (conversationRef x y)

/-- A leg writes apart from every conversation that is not of its pair. -/
theorem apart_not_between {σ : Send} {x y : String} (h : ¬ Between σ x y) (side : Side)
    (q : Path) : Apart (side.conversation σ ++ q) (conversationRef x y) := by
  have hne : side.owner σ ≠ x ∨ side.peer σ ≠ y := by
    rw [← not_and_or]
    rintro ⟨ho, hp⟩
    exact h (between_of_side ho hp)
  rw [← List.append_nil (conversationRef x y)]
  exact apart_conversation_below hne q []

theorem frame_step {s s' : State} {e : Event} (hs : Wf s) (h : step s e = some s') :
    Frame s e s' := by
  rcases db_step hs h with ⟨hdb, -⟩ | ⟨σ, side, kind, now, i, rfl, -, -, -, hdb⟩
  · exact ⟨fun _ _ _ => by rw [hdb], by rw [hdb], fun _ _ _ => by rw [hdb]⟩
  · rw [writeOf_path] at hdb
    have hset : ∀ q, Apart (side.conversation σ ++ i.below kind) q → s'.db.get q = s.db.get q := by
      intro q hq
      rw [hdb, Node.get_set_apart hq]
    refine ⟨?_, ?_, ?_⟩
    · intro uId field hf
      have hap := apart_append (apart_profile_field (o := side.owner σ) (p := side.peer σ)
        (u := uId) hf) (i.below kind) []
      rw [List.append_nil] at hap
      exact hset _ hap
    · have hap := apart_append (apart_posts (side.owner σ) (side.peer σ) []) (i.below kind) []
      simp only [List.append_nil] at hap
      exact hset _ hap
    · intro x y hno
      exact hset _ (apart_not_between hno side _)

/-! ### Dropping other people's sends -/

/-- Phases that make a leg do the same: snapshots need to agree on the conversation only. -/
def Alike (peer : String) : Phase → Phase → Prop
  | .idle, .idle => True
  | .requested, .requested => True
  | .snapped a, .snapped b => a.ref = b.ref ∧ a.value.child peer = b.value.child peer
  | .issued i, .issued j => i = j
  | _, _ => False

/-- `t` is `s` without the sends that are not between `x` and `y`. -/
structure Without (x y : String) (s t : State) : Prop where
  phase : ∀ σ side, Between σ x y → Alike (side.peer σ) (s.phase σ side) (t.phase σ side)
  queue : ∀ c, t.queue c = (s.queue c).filter (fun w => Between w.send x y)
  keys : t.keys ⊆ s.keys
  copy : ∀ o p, (o = x ∧ p = y) ∨ (o = y ∧ p = x) →
    t.db.get (conversationRef o p) = s.db.get (conversationRef o p)

omit [URLSyntax] in
theorem Alike.rfl {peer : String} (ph : Phase) : Alike peer ph ph := by
  cases ph <;> simp [Alike]

omit [URLSyntax] in
theorem Alike.idle {peer : String} {q : Phase} (h : Alike peer .idle q) : q = .idle := by
  cases q <;> first | rfl | exact h.elim

omit [URLSyntax] in
theorem Alike.requested {peer : String} {q : Phase} (h : Alike peer .requested q) :
    q = .requested := by
  cases q <;> first | rfl | exact h.elim

omit [URLSyntax] in
theorem Alike.snapped {peer : String} {a : DataSnapshot} {q : Phase}
    (h : Alike peer (.snapped a) q) :
    ∃ b, q = .snapped b ∧ a.ref = b.ref ∧ a.value.child peer = b.value.child peer := by
  cases q <;> first | exact ⟨_, Eq.refl _, h⟩ | exact h.elim

omit [URLSyntax] in
theorem Alike.issued {peer : String} {i : Issued} {q : Phase} (h : Alike peer (.issued i) q) :
    q = .issued i := by
  cases q <;> first | exact congrArg _ (Eq.symm h) | exact h.elim

/-- A pair's leg writes one of the two copies. -/
theorem pair_of_between {σ : Send} {x y : String} (h : Between σ x y) (side : Side) :
    (side.owner σ = x ∧ side.peer σ = y) ∨ (side.owner σ = y ∧ side.peer σ = x) := by
  cases side with
  | receiver => exact h.symm.imp And.symm And.symm
  | sender => exact h

theorem Between.symm {σ : Send} {x y : String} (h : Between σ x y) : Between σ y x := Or.symm h

section Steps
variable {x y : String} {s t s' : State} {e : Event}

theorem Without.conversation (h : Without x y s t) {σ : Send} (hb : Between σ x y) (side : Side) :
    t.db.get (side.conversation σ) = s.db.get (side.conversation σ) :=
  h.copy _ _ (pair_of_between hb side)

theorem without_put {σ : Send} {side : Side} {p q : Phase} (h : Without x y s t)
    (hpq : Alike (side.peer σ) p q) : Without x y (s.put σ side p) (t.put σ side q) := by
  refine ⟨?_, h.queue, h.keys, h.copy⟩
  intro τ sd hτ
  simp only [put_phase]
  split_ifs with heq
  · obtain ⟨rfl, rfl⟩ := heq; exact hpq
  · exact h.phase τ sd hτ

theorem leg_send {σ : Send} {side : Side} {snapshot : DataSnapshot} {key text : String} {w : Write}
    (hw : w ∈ leg side σ snapshot key text) : w.send = σ := by
  rw [leg_eq, legWrites] at hw
  split_ifs at hw
  · rw [List.mem_singleton.mp hw]
  · rcases List.mem_cons.mp hw with rfl | hw
    · rfl
    · rw [List.mem_singleton.mp hw]

/-- The pair's write is at the front of its queue without the others' writes, too. -/
theorem without_pop {σ : Send} {side : Side} {kind : Kind} {o : Outcome} {w : Write}
    (h : Without x y s t) (hb : Between σ x y) (hpop : s.pop σ side kind o = some (w, s')) :
    ∃ t', t.pop σ side kind o = some (w, t') ∧ Without x y s' t' ∧ s'.db = s.db ∧
      t'.db = t.db := by
  obtain ⟨i, ws, hp, hq, hσ, hsd, hk, rfl⟩ := pop_eq.mp hpop
  have hphase := h.phase σ side hb
  rw [hp] at hphase
  have htq : t.queue σ.client = w :: ws.filter (fun w => Between w.send x y) := by
    rw [h.queue, hq, List.filter_cons_of_pos]
    simpa [hσ] using hb
  refine ⟨_, pop_eq.mpr ⟨i, _, hphase.issued, htq, hσ, hsd, hk, rfl⟩, ?_, rfl, rfl⟩
  have hput : Without x y (s.put σ side (.issued (i.settle o kind)))
      (t.put σ side (.issued (i.settle o kind))) := without_put h (Alike.rfl _)
  refine ⟨hput.phase, ?_, h.keys, h.copy⟩
  intro c
  by_cases hc : c = σ.client
  · subst hc; simp
  · simp only [Function.update_of_ne hc]
    exact h.queue c

theorem without_keep (hwf : Wf s) (h : Without x y s t) (hb : Between e.send x y)
    (hs : step s e = some s') : ∃ t', step t e = some t' ∧ Without x y s' t' := by
  cases e with
  | tap σ =>
    obtain ⟨hr, hse, rfl⟩ := step_tap.mp hs
    have htr := h.phase σ .receiver hb
    have hts := h.phase σ .sender hb
    rw [hr] at htr
    rw [hse] at hts
    exact ⟨_, step_tap.mpr ⟨htr.idle, hts.idle, rfl⟩,
      without_put (without_put h (Alike.rfl _)) (Alike.rfl _)⟩
  | snapshot σ side =>
    obtain ⟨hp, rfl⟩ := step_snapshot.mp hs
    have ht := h.phase σ side hb
    rw [hp] at ht
    refine ⟨_, step_snapshot.mpr ⟨ht.requested, rfl⟩, without_put h ⟨rfl, ?_⟩⟩
    have hcopy := h.conversation hb side
    rw [Side.conversation, conversationRef, Node.get_append, Node.get_append] at hcopy
    exact hcopy.symm
  | callback σ side key text =>
    obtain ⟨a, hp, hkey, hnull, rfl⟩ := step_callback.mp hs
    have ht := h.phase σ side hb
    rw [hp] at ht
    obtain ⟨b, hb', href, hchild⟩ := ht.snapped
    have hhas : a.hasChild (side.peer σ) = b.hasChild (side.peer σ) := by
      rw [DataSnapshot.hasChild, DataSnapshot.hasChild, hchild]
    have hissue : issue side σ b key text = issue side σ a key text := by
      rw [issue, issue, hhas]
    have hleg : leg side σ b key text = leg side σ a key text := by
      rw [leg_eq, legWrites, legWrites, hhas, href]
    have hnull' : t.db.get (messageRef (side.owner σ) (side.peer σ) key) = .null := by
      rw [messageRef, Node.get_append] at hnull ⊢
      have hconv : t.db.get (side.conversation σ) = s.db.get (side.conversation σ) :=
        h.conversation hb side
      rw [← Side.conversation, hconv]
      exact hnull
    refine ⟨_, step_callback.mpr ⟨b, hb', fun hin => hkey (h.keys hin), hnull', rfl⟩, ?_⟩
    rw [hissue, hleg]
    refine ⟨(without_put h (Alike.rfl _)).phase, ?_, List.cons_subset_cons _ h.keys, h.copy⟩
    intro c
    by_cases hc : c = σ.client
    · subst hc
      simp only [Function.update_self, List.filter_append, h.queue]
      congr 1
      refine (List.filter_eq_self.mpr ?_).symm
      intro w hw
      rw [leg_send hw]
      exact decide_eq_true hb
    · simp only [Function.update_of_ne hc]
      exact h.queue c
  | store σ side kind now =>
    obtain ⟨w, s₁, hpop, rfl⟩ := step_store.mp hs
    obtain ⟨t₁, ht₁, hw₁, hsdb, htdb⟩ := without_pop h hb hpop
    refine ⟨_, step_store.mpr ⟨w, t₁, ht₁, rfl⟩, hw₁.phase, hw₁.queue, hw₁.keys, ?_⟩
    intro o p hop
    obtain ⟨i, ws, -, -, rfl, -, -⟩ := pop_wf hwf hpop
    have hsame := hw₁.copy o p hop
    by_cases heq : side.owner σ = o ∧ side.peer σ = p
    · obtain ⟨rfl, rfl⟩ := heq
      rw [writeOf_path, Side.conversation, Node.get_set_append, Node.get_set_append, hsame]
    · have hap := apart_conversation_below (not_and_or.mp heq) (i.below kind) []
      rw [List.append_nil] at hap
      rw [writeOf_path, Side.conversation, Node.get_set_apart hap, Node.get_set_apart hap, hsame]
  | reject σ side kind =>
    obtain ⟨w, hpop⟩ := step_reject.mp hs
    obtain ⟨t', ht', hw', -⟩ := without_pop h hb hpop
    exact ⟨t', step_reject.mpr ⟨w, ht'⟩, hw'⟩
  | complete σ side =>
    obtain ⟨i, hp, hdone, hrep, rfl⟩ := step_complete.mp hs
    have ht := h.phase σ side hb
    rw [hp] at ht
    exact ⟨_, step_complete.mpr ⟨i, ht.issued, hdone, hrep, rfl⟩, without_put h (Alike.rfl _)⟩

theorem send_of_moves {σ : Send} {side : Side} (h : e.moves σ side) : e.send = σ := by
  cases e with
  | tap τ => exact h
  | snapshot | callback | store | reject | complete => exact h.1

/-- A step of somebody else's send queues and unqueues only that send's writes. -/
theorem queue_drop (hno : ¬ Between e.send x y) (hs : step s e = some s') (c : ℕ) :
    (s'.queue c).filter (fun w => Between w.send x y) =
      (s.queue c).filter (fun w => Between w.send x y) := by
  have hpop : ∀ {σ side kind o w s₁}, e.send = σ → s.pop σ side kind o = some (w, s₁) →
      (s₁.queue c).filter (fun w => Between w.send x y) =
        (s.queue c).filter (fun w => Between w.send x y) := by
    rintro σ side kind o w s₁ rfl h
    obtain ⟨i, ws, -, hq, hσ, -, -, rfl⟩ := pop_eq.mp h
    by_cases hc : c = e.send.client
    · subst hc
      rw [hq, List.filter_cons_of_neg (by simpa [hσ] using hno)]
      simp
    · simp only [Function.update_of_ne hc]
  cases e with
  | tap σ => obtain ⟨-, -, rfl⟩ := step_tap.mp hs; rfl
  | snapshot σ side => obtain ⟨-, rfl⟩ := step_snapshot.mp hs; rfl
  | callback σ side key text =>
    obtain ⟨a, -, -, -, rfl⟩ := step_callback.mp hs
    by_cases hc : c = σ.client
    · subst hc
      simp only [Function.update_self, List.filter_append]
      refine (List.append_right_eq_self).mpr (List.filter_eq_nil_iff.mpr ?_)
      intro w hw
      rw [leg_send hw]
      simpa [Event.send] using hno
    · simp only [Function.update_of_ne hc]
  | store σ side kind now =>
    obtain ⟨w, s₁, h, rfl⟩ := step_store.mp hs
    have hq := hpop (σ := σ) rfl h
    exact hq
  | reject σ side kind =>
    obtain ⟨w, h⟩ := step_reject.mp hs
    exact hpop rfl h
  | complete σ side => obtain ⟨i, -, -, -, rfl⟩ := step_complete.mp hs; rfl

theorem keys_grow (hs : step s e = some s') : s.keys ⊆ s'.keys := by
  cases e with
  | tap σ => obtain ⟨-, -, rfl⟩ := step_tap.mp hs; exact fun _ h => h
  | snapshot σ side => obtain ⟨-, rfl⟩ := step_snapshot.mp hs; exact fun _ h => h
  | callback σ side key text =>
    obtain ⟨a, -, -, -, rfl⟩ := step_callback.mp hs
    exact List.subset_cons_self ..
  | store σ side kind now =>
    obtain ⟨w, s₁, h, rfl⟩ := step_store.mp hs
    obtain ⟨i, ws, -, -, -, -, -, rfl⟩ := pop_eq.mp h
    exact fun _ h => h
  | reject σ side kind =>
    obtain ⟨w, h⟩ := step_reject.mp hs
    obtain ⟨i, ws, -, -, -, -, -, rfl⟩ := pop_eq.mp h
    exact fun _ h => h
  | complete σ side => obtain ⟨i, -, -, -, rfl⟩ := step_complete.mp hs; exact fun _ h => h

theorem without_drop (hwf : Wf s) (h : Without x y s t) (hno : ¬ Between e.send x y)
    (hs : step s e = some s') : Without x y s' t := by
  have hframe := frame_step hwf hs
  refine ⟨?_, ?_, fun k hk => keys_grow hs (h.keys hk), ?_⟩
  · intro σ side hb
    rcases phase_step hs σ side with ⟨-, heq⟩ | hadv
    · rw [heq]; exact h.phase σ side hb
    · refine absurd ?_ hno
      have hmoves : e.moves σ side := by
        generalize s.phase σ side = ph at hadv
        generalize s'.phase σ side = ph' at hadv
        cases hadv <;> simp [Event.moves]
      rw [send_of_moves hmoves]
      exact hb
  · intro c
    rw [queue_drop hno hs]
    exact h.queue c
  · intro o p hop
    rw [h.copy o p hop]
    refine (hframe.others o p ?_).symm
    rcases hop with ⟨rfl, rfl⟩ | ⟨rfl, rfl⟩
    · exact hno
    · exact fun hb => hno hb.symm

end Steps

/-- For any two users, the run without the sends that are not between them is a run, and after every
    step that remains both copies of their conversation are as in the full run; and no step changes a
    profile field, a post or a conversation of another pair than that of its send. -/
theorem conversations_do_not_interfere (x y : String) (db : Value) (es : List Event) (s : State)
    (hr : run step (init db) es = some s) :
    (∀ pre post, es = pre ++ post → ∃ s t, run step (init db) pre = some s ∧
      run step (init db) (pre.filter (fun e => Between e.send x y)) = some t ∧
      t.db.get (conversationRef x y) = s.db.get (conversationRef x y) ∧
      t.db.get (conversationRef y x) = s.db.get (conversationRef y x)) ∧
    Along step (fun _ => Frame) (init db) es := by
  refine ⟨?_, ?_⟩
  · rintro pre post rfl
    rw [run_append] at hr
    obtain ⟨m, hm, -⟩ := Option.bind_eq_some_iff.mp hr
    obtain ⟨t, ht, -, hw⟩ := run_filter (s := init db) (t := init db)
      (R := fun s t => Wf s ∧ Without x y s t)
      (fun e => decide (Between e.send x y))
      (fun s t e s' ⟨hwf, hw⟩ hk hs => by
        obtain ⟨t', ht', hw'⟩ := without_keep hwf hw (of_decide_eq_true hk) hs
        exact ⟨t', ht', wf_step hwf hs, hw'⟩)
      (fun s t e s' ⟨hwf, hw⟩ hk hs =>
        ⟨wf_step hwf hs, without_drop hwf hw (of_decide_eq_false hk) hs⟩)
      ⟨wf_init db, fun _ _ _ => trivial, fun _ => rfl, fun _ h => h, fun _ _ _ => rfl⟩ hm
    exact ⟨m, t, hm, ht, hw.copy x y (Or.inl ⟨rfl, rfl⟩), hw.copy y x (Or.inr ⟨rfl, rfl⟩)⟩
  · exact along_of_invariant (I := fun _ => Wf) es (wf_init db) (fun _ _ _ _ hs h => wf_step hs h)
      (fun _ _ _ _ hs h => frame_step hs h)

omit [URLSyntax] in
/-- Bob writes to Ann while Ann writes to herself; dropping Ann's send leaves Bob's message. -/
theorem conversations_do_not_interfere_note : ∃ (_ : URLSyntax) (es : List Event) (s t : State),
    run step (init .null) es = some s ∧
      run step (init .null) (es.filter (fun e => Between e.send "A" "B")) = some t ∧
      t.db.get (conversationRef "A" "B") = s.db.get (conversationRef "A" "B") ∧
      t.db.get (conversationRef "B" "A") = s.db.get (conversationRef "B" "A") := by
  let _ := nonEmptyURLs
  let σ : Send := ⟨0, 0, 0, ann, ann⟩
  let τ : Send := ⟨1, 0, 0, bob, ann⟩
  let es : List Event := [.tap σ, .tap τ, .snapshot σ .sender, .callback σ .sender "-L1" "note",
    .store σ .sender .header 1, .snapshot τ .receiver, .callback τ .receiver "-L2" "hi",
    .store σ .sender .message 2, .store τ .receiver .header 3, .store τ .receiver .message 4]
  obtain ⟨s, hs, -⟩ := exists_of_run_any step (init .null) es
    (fun s => s.db.get (messageRef "A" "B" "-L2") ≠ .null) (by decide)
  obtain ⟨hruns, -⟩ := conversations_do_not_interfere "A" "B" .null es s hs
  obtain ⟨s', t, hs', ht, hxy, hyx⟩ := hruns es [] (List.append_nil es).symm
  rw [hs] at hs'; cases hs'
  exact ⟨nonEmptyURLs, es, s, t, hs, ht, hxy, hyx⟩

end PostApp.Chat
