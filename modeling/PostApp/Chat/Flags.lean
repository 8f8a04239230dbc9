import PostApp.Chat.Screen

/-! Who sent a message, and how it is shown.

    `isSender` is named from the point of view of the copy's owner: the receiver leg writes `true`
    into the partner's copy, the sender leg `false` into its own, and `cellForRowAt` shows a `true`
    message in the friend's bubble. So every message in X's copy of the conversation with Y comes
    from a send between the two, its flag says whether Y made it, and the screen puts it into the
    right bubble (`flags_and_bubbles`). -/

namespace PostApp.Screen
open Schemes Chat
variable [URLSyntax]

/-- A cell with the message it was set to. -/
inductive Cell where
  | friendRow (message : Option Message)
  | myRow (message : Option Message)
  deriving DecidableEq

/-- Both cells are dequeued, one of them is set, one of them is returned. -/
def cellForRowAt (messageRow : Message) : Cell :=
  let (friendRow, myRow) :=
    if messageRow.isSender then (some messageRow, none)
    else if !messageRow.isSender then (none, some messageRow)
    else (none, none)
  if messageRow.isSender then .friendRow friendRow else .myRow myRow

theorem cellForRowAt_eq (m : Message) :
    cellForRowAt m = if m.isSender then .friendRow (some m) else .myRow (some m) := by
  cases h : m.isSender <;> simp [cellForRowAt, h]

/-- The leg has stored its message with this text under `key` in the copy of `owner` with `peer`. -/
def Sent (s : Chat.State) (σ : Send) (side : Side) (owner peer key text : String) : Prop :=
  ∃ i, s.phase σ side = .issued i ∧ i.message = .stored ∧ i.key = key ∧ i.text = text ∧
    side.owner σ = owner ∧ side.peer σ = peer

/-- Every message in the store is the one that a leg has written there. -/
def AllSent (s : Chat.State) : Prop :=
  ∀ x y k, s.db.get (messageRef x y k) ≠ .null → ∃ σ side text now, Sent s σ side x y k text ∧
    s.db.get (messageRef x y k) = resolve now (messageObject side.isSender text)

theorem Sent.between {s : Chat.State} {σ : Send} {side : Side} {x y k text : String}
    (h : Sent s σ side x y k text) : Between σ x y := by
  obtain ⟨i, -, -, -, -, ho, hp⟩ := h
  exact between_of_side ho hp

/-- Between two users, the flag tells who made the send. -/
theorem Sent.made_by {s : Chat.State} {σ : Send} {side : Side} {x y k text : String}
    (hne : x ≠ y) (h : Sent s σ side x y k text) :
    (side.isSender = true ↔ σ.curentUser.uId = y) ∧
      (side.isSender = false ↔ σ.curentUser.uId = x) := by
  obtain ⟨i, -, -, -, -, rfl, rfl⟩ := h
  cases side with
  | receiver => exact ⟨iff_of_true rfl rfl, iff_of_false (by simp [Side.isSender]) (Ne.symm hne)⟩
  | sender => exact ⟨iff_of_false (by simp [Side.isSender]) hne, iff_of_true rfl rfl⟩

/-- What has been sent stays on record. -/
theorem sent_step {s s' : Chat.State} {e : Chat.Event} {σ : Send} {side : Side}
    {x y k text : String} (hs : Wf s) (h : Chat.step s e = some s')
    (hsent : Sent s σ side x y k text) : Sent s' σ side x y k text := by
  obtain ⟨i, hi, hm, hk, ht, hloc⟩ := hsent
  rcases phase_step h σ side with ⟨-, heq⟩ | hadv
  · exact ⟨i, by rw [heq, hi], hm, hk, ht, hloc⟩
  · generalize hph' : s'.phase σ side = ph' at hadv
    rw [hi] at hadv
    cases hadv with
    | store _ kind now =>
      refine ⟨_, hph', ?_, by rw [key_settle, hk], by rw [text_settle, ht], hloc⟩
      cases kind with
      | header => exact hm
      | message => rfl
    | reject _ kind =>
      obtain ⟨w, hpop⟩ := step_reject.mp h
      obtain ⟨j, ws, hj, hpend, -⟩ := pop_wf hs hpop
      rw [hi] at hj; cases hj
      cases kind with
      | header => exact ⟨_, hph', hm, hk, ht, hloc⟩
      | message => exact absurd hm (not_stored_of_pending hpend)
    | complete _ _ => exact ⟨_, hph', hm, hk, ht, hloc⟩

theorem allSent_step {s s' : Chat.State} {e : Chat.Event} (hs : Wf s) (ha : AllSent s)
    (h : Chat.step s e = some s') : AllSent s' := by
  intro x y k hk
  rcases message_step hs h x y k with ⟨heq, -⟩ | ⟨_, _, _, _, -, -, -, -, -, hnull⟩ |
    ⟨σ, side, now, i, rfl, ho, hp, hi, hkey, -, hnew⟩
  · rw [heq] at hk ⊢
    obtain ⟨σ, side, text, now, hsent, hv⟩ := ha x y k hk
    exact ⟨σ, side, text, now, sent_step hs h hsent, hv⟩
  · exact absurd hnull hk
  · rcases phase_step h σ side with ⟨hm, -⟩ | hadv
    · exact absurd ⟨rfl, rfl⟩ hm
    · generalize hph' : s'.phase σ side = ph' at hadv
      rw [hi] at hadv
      cases hadv
      exact ⟨σ, side, i.text, now, ⟨_, hph', rfl, hkey, rfl, ho, hp⟩, hnew⟩

/-- The leg behind a stored message is the one that used its key. -/
theorem Sent.unique {s : Chat.State} {σ τ : Send} {side sd : Side} {x y x' y' k t t' : String}
    (hs : Wf s) (h : Sent s σ side x y k t) (h' : Sent s τ sd x' y' k t') :
    σ = τ ∧ side = sd := by
  obtain ⟨i, hi, -, hk, -⟩ := h
  obtain ⟨j, hj, -, hk', -⟩ := h'
  exact hs.distinct σ side i τ sd j hi hj (hk.trans hk'.symm)

omit [URLSyntax] in
theorem asBool_isSender (isSender : Bool) (text : String) (now : Rat) :
    asBool ((resolve now (messageObject isSender text)).child "isSender") = some isSender := by
  rw [child_resolve_of_ne (by simp [messageObject])]
  simp [messageObject]

/-! ### On the screen -/

/-- A content of the messages node in which every message is one that a leg has written. -/
def Good (me user : UserProfile) (s : Chat.State) (v : Value) : Prop :=
  ∀ k, v.child k ≠ .null → ∃ σ side text now, Sent s σ side me.uId user.uId k text ∧
    v.child k = resolve now (messageObject side.isSender text)

section
variable {me user : UserProfile}

theorem child_messages (db : Value) (k : String) :
    (db.get (messagesRef me user)).child k = db.get (messageRef me.uId user.uId k) := by
  rw [messageRef, messagesRef, nodeRef, Node.get_append, Node.get_append]
  rfl

theorem AllSent.good {s : Chat.State} (ha : AllSent s) :
    Good me user s (s.db.get (messagesRef me user)) := by
  intro k hk
  rw [child_messages] at hk ⊢
  exact ha me.uId user.uId k hk

theorem good_step {s s' : Chat.State} {e : Chat.Event} {v : Value} (hs : Wf s)
    (h : Chat.step s e = some s') (hg : Good me user s v) : Good me user s' v := by
  intro k hk
  obtain ⟨σ, side, text, now, hsent, hv⟩ := hg k hk
  exact ⟨σ, side, text, now, sent_step hs h hsent, hv⟩

/-- A row comes from a send: its text and flag are those of the leg. -/
def Row (me user : UserProfile) (s : Chat.State) (m : Message) : Prop :=
  ∃ σ side k, Sent s σ side me.uId user.uId k m.text ∧ m.isSender = side.isSender

theorem Good.row {s : Chat.State} {v : Value} {ref : Path} {autor : UserProfile} {m : Message}
    (hg : Good me user s v) (hm : m ∈ observeMessages autor ⟨ref, v⟩) : Row me user s m := by
  obtain ⟨k, hne, hdec⟩ := mem_collect.mp hm
  obtain ⟨σ, side, text, now, hsent, hv⟩ := hg k hne
  simp only [hv, messageOf_messageObject, Option.some.injEq] at hdec
  subst hdec
  exact ⟨σ, side, k, hsent, rfl⟩

/-- Everything the screen shows, or is about to show, comes from sends. -/
structure Honest (me user : UserProfile) (s : State) : Prop where
  wf : Wf s.chat
  sent : AllSent s.chat
  pending : ∀ l ∈ s.listeners, ∀ v ∈ l.2.pending, Good me user s.chat v
  rows : ∀ m ∈ s.messages, Row me user s.chat m

theorem honest_step {s s' : State} {e : Event} (hs : Honest me user s)
    (h : step me user s e = some s') : Honest me user s' := by
  cases e with
  | chat e =>
    obtain ⟨chat, hc, rfl⟩ := step_chat h
    have hsent := allSent_step hs.wf hs.sent hc
    refine ⟨wf_step hs.wf hc, hsent, ?_, ?_⟩
    · intro l' hl' v hv
      obtain ⟨l, hl, rfl⟩ := List.mem_map.mp hl'
      rcases Listener.mem_pending_notify hv with hv | rfl
      · exact good_step hs.wf hc (hs.pending l hl v hv)
      · exact hsent.good
    · intro m hm
      obtain ⟨σ, side, k, hrow, hflag⟩ := hs.rows m hm
      exact ⟨σ, side, k, sent_step hs.wf hc hrow, hflag⟩
  | nodeEvent =>
    obtain ⟨_, _, _, -, -, rfl⟩ := step_nodeEvent h
    refine ⟨hs.wf, hs.sent, ?_, hs.rows⟩
    intro l hl w hw
    rcases List.mem_append.mp hl with hl | hl
    · exact hs.pending l hl w hw
    · obtain ⟨autor, -, rfl⟩ := List.mem_map.mp hl
      rw [List.mem_singleton.mp hw]
      exact hs.sent.good
  | messagesEvent i =>
    obtain ⟨autor, ℓ, v, ℓ', hi, hf, rfl⟩ := step_messagesEvent h
    obtain ⟨vs, hp, rfl⟩ := Listener.fire_eq.mp hf
    have hold := hs.pending _ (List.mem_of_getElem? hi)
    rw [hp] at hold
    refine ⟨hs.wf, hs.sent, ?_, ?_⟩
    · intro l hl w hw
      rcases List.mem_or_eq_of_mem_set hl with hl | rfl
      · exact hs.pending l hl w hw
      · exact hold w (List.mem_cons_of_mem _ hw)
    · intro m hm
      exact (hold v (List.mem_cons_self ..)).row hm
  | viewDidLoad =>
    obtain ⟨-, rfl⟩ := step_viewDidLoad h
    exact ⟨hs.wf, hs.sent, hs.pending, hs.rows⟩
  | snapshot =>
    obtain ⟨-, rfl⟩ := step_snapshot h
    exact ⟨hs.wf, hs.sent, hs.pending, hs.rows⟩
  | singleEvent =>
    rcases step_singleEvent h with ⟨_, -, ⟨-, rfl⟩ | ⟨-, rfl⟩⟩
    · exact ⟨hs.wf, hs.sent, hs.pending, hs.rows⟩
    · exact ⟨hs.wf, hs.sent, hs.pending, hs.rows⟩

theorem honest_run {s : State} {db : Value} {es : List Event}
    (hdb : ∀ x y k, db.get (messageRef x y k) = .null)
    (hr : run (step me user) (init db) es = some s) : Honest me user s := by
  refine run_invariant (I := Honest me user) ?_ (fun _ _ _ hs h => honest_step hs h) hr
  exact ⟨wf_init db, fun x y k hk => absurd (hdb x y k) hk,
    fun _ hl => (List.not_mem_nil hl).elim, fun _ hm => (List.not_mem_nil hm).elim⟩

/-- On an up-to-date screen every stored message has its row. -/
theorem exists_row {s : State} {k : String} (ha : AllSent s.chat) (hshows : Shows me user s)
    (hk : s.chat.db.get (messageRef me.uId user.uId k) ≠ .null) :
    ∃ m ∈ s.messages, ∃ σ side, Sent s.chat σ side me.uId user.uId k m.text ∧
      m.isSender = side.isSender := by
  obtain ⟨autor, -, hm⟩ := hshows
  obtain ⟨σ, side, text, now, hsent, hv⟩ := ha _ _ _ hk
  set snapshot := snapshotAt (messagesRef me user) s.chat.db with hsnap
  refine ⟨⟨autor, snapshot.key, text, now, side.isSender⟩, ?_, σ, side, hsent, rfl⟩
  rw [hm, ← collect_eq_filterMap, mem_collect]
  refine ⟨k, ?_, ?_⟩
  · rw [hsnap, snapshotAt, child_messages]
    exact hk
  · rw [hsnap, snapshotAt, child_messages, hv, messageOf_messageObject]

end

/-- From a store without messages, in every run of sends among any users, with the screen for `user`
    open on the device of `me`: every message in X's copy of the conversation with Y comes from a
    send between the two and is flagged exactly when Y made it; the flags of a send's two copies are
    opposite; the screen shows a message in the friend's bubble exactly when `user` made the send
    and in the own bubble exactly when `me` did, and an up-to-date screen has a row for each. -/
theorem flags_and_bubbles (me user : UserProfile) (db : Value) (es : List Event) (s : State)
    (hne : me.uId ≠ user.uId) (hdb : ∀ x y k, db.get (messageRef x y k) = .null)
    (hr : run (step me user) (init db) es = some s) :
    (∀ x y k, x ≠ y → s.chat.db.get (messageRef x y k) ≠ .null →
      ∃ σ side text, Sent s.chat σ side x y k text ∧ Between σ x y ∧
        asBool ((s.chat.db.get (messageRef x y k)).child "isSender") =
          some (decide (σ.curentUser.uId = y))) ∧
    (∀ σ x y k k' text text', Sent s.chat σ .receiver x y k text →
      Sent s.chat σ .sender y x k' text' → s.chat.db.get (messageRef x y k) ≠ .null →
      s.chat.db.get (messageRef y x k') ≠ .null →
      asBool ((s.chat.db.get (messageRef x y k)).child "isSender") = some true ∧
        asBool ((s.chat.db.get (messageRef y x k')).child "isSender") = some false) ∧
    (∀ m ∈ s.messages, ∃ σ side k, Sent s.chat σ side me.uId user.uId k m.text ∧
      (cellForRowAt m = .friendRow (some m) ↔ σ.curentUser.uId = user.uId) ∧
      (cellForRowAt m = .myRow (some m) ↔ σ.curentUser.uId = me.uId)) ∧
    (Shows me user s → ∀ k, s.chat.db.get (messageRef me.uId user.uId k) ≠ .null →
      ∃ m ∈ s.messages, ∃ σ side, Sent s.chat σ side me.uId user.uId k m.text ∧
        (cellForRowAt m = .friendRow (some m) ↔ σ.curentUser.uId = user.uId) ∧
        (cellForRowAt m = .myRow (some m) ↔ σ.curentUser.uId = me.uId)) := by
  have hs := honest_run hdb hr
  have hcell : ∀ (m : Message) (σ : Send) (side : Side) (k : String),
      Sent s.chat σ side me.uId user.uId k m.text → m.isSender = side.isSender →
      (cellForRowAt m = .friendRow (some m) ↔ σ.curentUser.uId = user.uId) ∧
      (cellForRowAt m = .myRow (some m) ↔ σ.curentUser.uId = me.uId) := by
    intro m σ side k hsent hflag
    obtain ⟨htrue, hfalse⟩ := hsent.made_by hne
    rw [← htrue, ← hfalse, cellForRowAt_eq, hflag]
    cases side.isSender <;> simp
  refine ⟨?_, ?_, ?_, ?_⟩
  · intro x y k hxy hk
    obtain ⟨σ, side, text, now, hsent, hv⟩ := hs.sent x y k hk
    refine ⟨σ, side, text, hsent, hsent.between, ?_⟩
    rw [hv, asBool_isSender, Option.some.injEq, Bool.eq_iff_iff, decide_eq_true_iff]
    exact (hsent.made_by hxy).1
  · intro σ x y k k' text text' hsr hss hk hk'
    obtain ⟨τ, sd, t, now, hτ, hv⟩ := hs.sent x y k hk
    obtain ⟨τ', sd', t', now', hτ', hv'⟩ := hs.sent y x k' hk'
    obtain ⟨-, rfl⟩ := hsr.unique hs.wf hτ
    obtain ⟨-, rfl⟩ := hss.unique hs.wf hτ'
    rw [hv, hv', asBool_isSender, asBool_isSender]
    exact ⟨rfl, rfl⟩
  · intro m hm
    obtain ⟨σ, side, k, hsent, hflag⟩ := hs.rows m hm
    exact ⟨σ, side, k, hsent, hcell m σ side k hsent hflag⟩
  · intro hshows k hk
    obtain ⟨m, hm, σ, side, hsent, hflag⟩ := exists_row hs.sent hshows hk
    exact ⟨m, hm, σ, side, hsent, hcell m σ side k hsent hflag⟩

omit [URLSyntax] in
/-- Bob's first message to Ann, and Ann's screen for Bob opened after it. -/
theorem flags_and_bubbles_first : ∃ (_ : URLSyntax) (me user : UserProfile) (es : List Event)
    (s : State), run (step me user) (init .null) es = some s ∧ ∃ m ∈ s.messages,
      ∃ σ side k, Sent s.chat σ side me.uId user.uId k m.text ∧
        (cellForRowAt m = .friendRow (some m) ↔ σ.curentUser.uId = user.uId) ∧
        (cellForRowAt m = .myRow (some m) ↔ σ.curentUser.uId = me.uId) := by
  let _ := nonEmptyURLs
  let σ : Send := ⟨1, 0, 0, bob, ann⟩
  let es : List Event := [.chat (.tap σ), .chat (.snapshot σ .receiver),
    .chat (.callback σ .receiver "-L1" "hi"), .chat (.store σ .receiver .header 1),
    .chat (.store σ .receiver .message 2), .viewDidLoad, .snapshot, .singleEvent, .nodeEvent,
    .messagesEvent 0]
  obtain ⟨s, hs, hp⟩ := exists_of_run_any (step ann bob) (init .null) es
    (fun s => s.messages ≠ []) (by decide)
  obtain ⟨m, hm⟩ := List.exists_mem_of_ne_nil _ (decide_eq_true_iff.mp hp)
  obtain ⟨-, -, hrows, -⟩ := flags_and_bubbles ann bob .null es s (by decide)
    (fun _ _ _ => Node.get_null _) hs
  exact ⟨nonEmptyURLs, ann, bob, es, s, hs, m, hm, hrows m hm⟩

end PostApp.Screen
