import PostApp.Chat.Invariant

/-! When a stored message is overwritten.

    A leg that finds no conversation in its snapshot sets the author header over the whole
    conversation node. If another leg's message reached that node in the meantime, it is erased:
    `hasChild` and `setValue` are a check and an act with nothing to tie them together. Messages stay
    along a run exactly when no message write to the same copy of a conversation comes between a
    leg's snapshot and its header write (`stays_iff_unraced`). -/

namespace PostApp.Chat
open Schemes
variable [URLSyntax]

/-- Every stored message is still there, unchanged, after the step. -/
def MessagesStay (s s' : State) : Prop :=
  ∀ x y k, s.db.get (messageRef x y k) ≠ .null →
    s'.db.get (messageRef x y k) = s.db.get (messageRef x y k)

/-- A header write is not raced: since the leg's snapshot, no message was written to its copy of the
    conversation. `pre` are the events before the step. -/
def Unraced (pre : List Event) : Event → Prop
  | .store σ side .header _ => ∀ τ sd now,
      Event.store τ sd .message now ∈ after (.snapshot σ side) pre →
        sd.conversation τ ≠ side.conversation σ
  | _ => True

/-- The leg whose message the event stores. -/
def stores? : Event → Option (Send × Side)
  | .store τ sd .message _ => some (τ, sd)
  | _ => none

theorem mem_stores {es : List Event} {τ : Send} {sd : Side} :
    (τ, sd) ∈ es.filterMap stores? ↔ ∃ now, .store τ sd .message now ∈ es := by
  rw [List.mem_filterMap]
  constructor
  · rintro ⟨e, he, heq⟩
    unfold stores? at heq
    split at heq
    · next now => cases heq; exact ⟨now, he⟩
    · cases heq
  · rintro ⟨now, he⟩
    exact ⟨_, he, rfl⟩

instance (pre : List Event) : ∀ e, Decidable (Unraced pre e)
  | .store σ side .header _ => decidable_of_iff
      (∀ w ∈ (after (Event.snapshot σ side) pre).filterMap stores?,
        w.2.conversation w.1 ≠ side.conversation σ)
      ⟨fun h τ sd now he => h (τ, sd) (mem_stores.mpr ⟨now, he⟩),
        fun h w hw => (mem_stores.mp hw).elim (fun now he => h w.1 w.2 now he)⟩
  | .store _ _ .message _ | .tap _ | .snapshot _ _ | .callback _ _ _ _ | .reject _ _ _
  | .complete _ _ => .isTrue trivial

/-- The leg has had its snapshot. -/
def Phase.asked : Phase → Bool
  | .idle | .requested => false
  | _ => true

/-- The leg holds a snapshot without the conversation `peer`, or a header still to be written. -/
def Phase.absent (peer : String) : Phase → Bool
  | .snapped snapshot => !snapshot.hasChild peer
  | .issued i => i.header = .pending
  | _ => false

theorem conversation_eq {σ τ : Send} {side sd : Side} :
    side.conversation σ = sd.conversation τ ↔
      side.owner σ = sd.owner τ ∧ side.peer σ = sd.peer τ := by
  simp [Side.conversation, conversationRef, chatRef, profileRef]

/-- A leg is asked from its snapshot event on. -/
theorem asked_step {s s' : State} {e : Event} (h : step s e = some s') (σ : Send) (side : Side) :
    (s'.phase σ side).asked = true ↔
      (s.phase σ side).asked = true ∨ e = .snapshot σ side := by
  rcases phase_step h σ side with ⟨hmoves, heq⟩ | hadv
  · rw [heq]
    refine (or_iff_left ?_).symm
    rintro rfl; exact hmoves ⟨rfl, rfl⟩
  · generalize s.phase σ side = ph at hadv
    generalize s'.phase σ side = ph' at hadv
    cases hadv <;> simp [Phase.asked]

/-- A leg that misses the conversation after a step missed it before, or has just been shown a
    database without it. -/
theorem absent_step {s s' : State} {e : Event} (h : step s e = some s') (σ : Send) (side : Side)
    (ha : (s'.phase σ side).absent (side.peer σ) = true) :
    (s.phase σ side).absent (side.peer σ) = true ∨
      (e = .snapshot σ side ∧ s'.db.get (side.conversation σ) = .null) := by
  rcases phase_step h σ side with ⟨-, heq⟩ | hadv
  · rw [heq] at ha; exact Or.inl ha
  · generalize hph : s.phase σ side = ph at hadv
    generalize s'.phase σ side = ph' at hadv ha
    cases hadv with
    | tap => cases ha
    | snapshot =>
      obtain ⟨-, rfl⟩ := step_snapshot.mp h
      refine Or.inr ⟨rfl, ?_⟩
      have hno : ¬ (snapshotAt (chatRef (side.owner σ)) s.db).hasChild (side.peer σ) = true := by
        simpa [Phase.absent] using ha
      rw [hasChild_iff, not_not] at hno
      rw [put_db, Side.conversation, conversationRef, Node.get_append]
      exact hno
    | callback snapshot key text =>
      left
      simp only [Phase.absent, issue] at ha ⊢
      split_ifs at ha with hc
      · cases ha
      · simpa using hc
    | store i kind now =>
      left
      cases kind with
      | header => cases ha
      | message => exact ha
    | reject i kind =>
      left
      cases kind with
      | header => cases ha
      | message => exact ha
    | complete i _ => exact Or.inl ha

/-- What is known along a run on which messages have stayed so far. -/
structure Staying (pre : List Event) (s : State) : Prop where
  wf : Wf s
  asked : ∀ σ side, (s.phase σ side).asked = true ↔ .snapshot σ side ∈ pre
  /-- a message in a conversation that a leg missed was written since the leg's snapshot -/
  since : ∀ σ side k, (s.phase σ side).absent (side.peer σ) = true →
    s.db.get (messageRef (side.owner σ) (side.peer σ) k) ≠ .null →
    ∃ τ sd now, .store τ sd .message now ∈ after (.snapshot σ side) pre ∧
      sd.conversation τ = side.conversation σ
  /-- what was written is still there -/
  kept : ∀ τ sd now, .store τ sd .message now ∈ pre →
    ∃ k, s.db.get (messageRef (sd.owner τ) (sd.peer τ) k) ≠ .null

omit [URLSyntax] in
theorem Phase.asked_of_absent {ph : Phase} {peer : String} (h : ph.absent peer = true) :
    ph.asked = true := by
  cases ph <;> first | rfl | cases h

theorem staying_init (db : Value) : Staying [] (init db) :=
  ⟨wf_init db, fun _ _ => by simp [init, Phase.asked], fun _ _ _ h => (by cases h),
    fun _ _ _ h => (List.not_mem_nil h).elim⟩

theorem get_message_of_conversation {db : Value} {σ : Send} {side : Side} (k : String)
    (h : db.get (side.conversation σ) = .null) :
    db.get (messageRef (side.owner σ) (side.peer σ) k) = .null := by
  rw [messageRef, Node.get_append, ← Side.conversation, h, Node.get_null]

theorem staying_step {pre : List Event} {s s' : State} {e : Event} (hs : Staying pre s)
    (h : step s e = some s') (hR : MessagesStay s s') : Staying (pre ++ [e]) s' := by
  refine ⟨wf_step hs.wf h, ?_, ?_, ?_⟩
  · intro σ side
    rw [asked_step h, hs.asked]
    simp [eq_comm]
  · intro σ side k ha hk
    rcases absent_step h σ side ha with hold | ⟨-, hnull⟩
    · -- the leg had its snapshot, so every later event is after it
      have hmem := (hs.asked σ side).mp (Phase.asked_of_absent hold)
      rw [after_append_of_mem [e] hmem]
      have hbefore : s.db.get (messageRef (side.owner σ) (side.peer σ) k) ≠ .null →
          ∃ τ sd now, .store τ sd .message now ∈ after (.snapshot σ side) pre ++ [e] ∧
            sd.conversation τ = side.conversation σ := by
        intro hne
        obtain ⟨τ, sd, now, hin, hc⟩ := hs.since σ side k hold hne
        exact ⟨τ, sd, now, List.mem_append_left _ hin, hc⟩
      rcases message_step hs.wf h (side.owner σ) (side.peer σ) k with ⟨heq, -⟩ | hcase
      · exact hbefore (heq ▸ hk)
      · rcases hcase with ⟨_, _, _, _, -, -, -, -, -, hnull⟩ | ⟨τ, sd, now, i, rfl, ho, hp, -⟩
        · exact absurd hnull hk
        · exact ⟨τ, sd, now, by simp, conversation_eq.mpr ⟨ho, hp⟩⟩
    · exact absurd (get_message_of_conversation k hnull) hk
  · intro τ sd now hin
    rcases List.mem_append.mp hin with hin | hin
    · obtain ⟨k, hk⟩ := hs.kept τ sd now hin
      exact ⟨k, by rw [hR _ _ _ hk]; exact hk⟩
    · obtain rfl := List.mem_singleton.mp hin
      obtain ⟨w, s₁, hpop, rfl⟩ := step_store.mp h
      obtain ⟨i, ws, -, -, rfl, -, rfl⟩ := pop_wf hs.wf hpop
      refine ⟨i.key, ?_⟩
      rw [writeOf, Node.get_set_self]
      exact messageObject_ne_null _ _ _

/-- As long as messages have stayed, the next step keeps them exactly when it is not a raced
    header write. -/
theorem stays_step {pre : List Event} {s s' : State} {e : Event} (hs : Staying pre s)
    (h : step s e = some s') : MessagesStay s s' ↔ Unraced pre e := by
  constructor
  · intro hstay
    cases e with
    | store σ side kind now =>
      cases kind with
      | message => trivial
      | header =>
        intro τ sd n hin hc
        obtain ⟨k, hk⟩ := hs.kept τ sd n (mem_of_mem_after hin)
        obtain ⟨ho, hp⟩ := conversation_eq.mp hc
        rw [ho, hp] at hk
        rcases message_step hs.wf h (side.owner σ) (side.peer σ) k with ⟨-, hnot⟩ | hcase
        · exact hnot σ side now rfl ⟨rfl, rfl⟩
        · rcases hcase with ⟨_, _, _, _, -, -, -, -, -, hnull⟩ | ⟨_, _, _, _, he, -⟩
          · exact hk ((hstay _ _ _ hk).symm.trans hnull)
          · cases he
    | tap | snapshot | callback | reject | complete => trivial
  · intro hunraced x y k hk
    rcases message_step hs.wf h x y k with ⟨heq, -⟩ | hcase
    · exact heq
    · rcases hcase with ⟨σ, side, now, i, rfl, rfl, rfl, hp, hpend, -⟩ |
        ⟨_, _, _, _, -, -, -, -, -, hnull, -⟩
      · have habsent : (s.phase σ side).absent (side.peer σ) = true := by
          rw [hp]; simpa [Phase.absent] using hpend
        obtain ⟨τ, sd, n, hin, hc⟩ := hs.since σ side k habsent hk
        exact absurd hc (hunraced τ sd n hin)
      · exact absurd hnull hk

/-- Along a run, stored messages stay exactly when no header write is raced. -/
theorem stays_iff_unraced (db : Value) (es : List Event) :
    Along step (fun _ s _ s' => MessagesStay s s') (init db) es ↔
      Along step (fun pre _ e _ => Unraced pre e) (init db) es :=
  along_congr (I := Staying) (staying_init db) (fun _ _ _ _ hs h => stays_step hs h)
    (fun _ _ _ _ hs h hR => staying_step hs h hR)

omit [URLSyntax] in
/-- A and B send each other their first message at the same time: the header of A's own copy erases
    the message that B has just stored there. -/
theorem first_message_erased : ¬ ∀ [URLSyntax] (db : Value) (es : List Event),
    Along step (fun _ s _ s' => MessagesStay s s') (init db) es := by
  intro h
  let _ := nonEmptyURLs
  let σ : Send := ⟨0, 0, 0, ann, bob⟩
  let τ : Send := ⟨1, 0, 0, bob, ann⟩
  let es : List Event := [.tap σ, .tap τ, .snapshot σ .sender, .snapshot τ .receiver,
    .callback σ .sender "-L1" "hello", .callback τ .receiver "-L2" "hi",
    .store τ .receiver .header 1, .store τ .receiver .message 2]
  let lost : Path := messageRef "A" "B" "-L2"
  obtain ⟨s', hs', hp'⟩ := exists_of_run_any step (init .null) (es ++ [.store σ .sender .header 3])
    (fun s => s.db.get lost = .null) (by decide)
  obtain ⟨s, hs, hp⟩ := exists_of_run_any step (init .null) es
    (fun s => s.db.get lost ≠ .null) (by decide)
  obtain ⟨m, hm, hstep⟩ := run_concat.mp hs'
  rw [hs] at hm; cases hm
  have hstay := h .null _ es _ [] rfl s s' hs hstep "A" "B" "-L2" (by simpa using hp)
  rw [decide_eq_true_iff] at hp hp'
  exact hp (hstay.symm.trans hp')

end PostApp.Chat
