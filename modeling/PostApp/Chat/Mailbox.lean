import Mathlib.Data.List.Nodup
import PostApp.Chat.Overwrite
import PostApp.Chat.Decode

/-! The chat as mailboxes.

    What the chat is for: every send puts one message into each of two mailboxes, its sender's and its
    receiver's, and nothing ever leaves a mailbox. The abstract system is a log of deliveries, each
    made by one leg of a send and made once. As long as no header write is raced, the database refines
    it: a copy of a conversation holds exactly the messages delivered to it (`refines_mailboxes`). When
    all sends between two users have been delivered, with the same text to both, the two screens list
    the same dialogue with the bubbles swapped (`screens_mirror`). -/

namespace PostApp.Mailbox
open Schemes Chat Screen
variable [URLSyntax]

/-- A leg of a send puts its message into the mailbox that its owner keeps for the peer. -/
structure Delivery where
  send : Send
  side : Side
  message : Stored
  deriving DecidableEq

def Delivery.origin (d : Delivery) : Send × Side := (d.send, d.side)

/-- A leg delivers once. -/
def step (log : List Delivery) (d : Delivery) : Option (List Delivery) :=
  if d.origin ∈ log.map Delivery.origin then none else some (log ++ [d])

/-- The delivery goes to the mailbox that `x` keeps for `y`. -/
def Delivery.To (x y : String) (d : Delivery) : Prop := d.side.owner d.send = x ∧ d.side.peer d.send = y

instance (x y : String) (d : Delivery) : Decidable (d.To x y) := inferInstanceAs (Decidable (_ ∧ _))

/-- The deliveries to one mailbox, in the order they were made. -/
def deliveries (x y : String) (log : List Delivery) : List Delivery :=
  log.filter (fun d => decide (d.To x y))

/-- What a mailbox holds. -/
def box (x y : String) (log : List Delivery) : List Stored :=
  (deliveries x y log).map Delivery.message

/-- `users/profile/<x>/chat/<y>/messages` -/
def boxRef (x y : String) : Path := conversationRef x y ++ ["messages"]

/-- The message is the one that the leg has issued and stored. -/
def Delivery.Of (s : Chat.State) (d : Delivery) : Prop :=
  Sent s d.send d.side (d.side.owner d.send) (d.side.peer d.send) d.message.key d.message.text ∧
    d.message.isSender = d.side.isSender

/-- The database holds the mailboxes of the log: the legs that have delivered are those whose message
    is stored, each has delivered what it issued, and every copy of a conversation has the messages of
    its mailbox as its children. -/
structure Refines (s : Chat.State) (log : List Delivery) : Prop where
  delivered : ∀ σ side, (σ, side) ∈ log.map Delivery.origin ↔
    ∃ i, s.phase σ side = .issued i ∧ i.message = .stored
  issued : ∀ d ∈ log, d.Of s
  boxes : ∀ x y, Stores (box x y log) (s.db.get (boxRef x y))

/-! ### The log -/

section Log
variable {log log' : List Delivery} {d : Delivery}

theorem step_eq (h : step log d = some log') :
    d.origin ∉ log.map Delivery.origin ∧ log' = log ++ [d] := by
  simp only [step] at h
  split_ifs at h with hd
  cases h
  exact ⟨hd, rfl⟩

/-- No leg delivers twice. -/
theorem nodup_run {ds : List Delivery} (h : run step [] ds = some log) :
    (log.map Delivery.origin).Nodup := by
  refine run_invariant (I := fun log => (log.map Delivery.origin).Nodup) List.nodup_nil ?_ h
  intro log d log' hlog h
  obtain ⟨hd, rfl⟩ := step_eq h
  rw [List.map_append, List.map_singleton]
  refine List.nodup_append.mpr ⟨hlog, List.nodup_singleton _, ?_⟩
  rintro a ha b hb rfl
  rw [List.mem_singleton.mp hb] at ha
  exact hd ha

theorem mem_deliveries {x y : String} : d ∈ deliveries x y log ↔ d ∈ log ∧ d.To x y := by
  simp [deliveries]

theorem box_concat (x y : String) (log : List Delivery) (d : Delivery) :
    box x y (log ++ [d]) = if d.To x y then box x y log ++ [d.message] else box x y log := by
  simp only [box, deliveries, List.filter_append, List.map_append]
  split_ifs with h
  · simp [h]
  · simp [h]

end Log

/-! ### The simulation -/

section Step
variable {s s' : Chat.State} {e : Chat.Event} {log : List Delivery} {σ : Send} {side : Side}

/-- A leg has its message stored exactly from its store event on. -/
theorem stored_step (hs : Wf s) (h : Chat.step s e = some s') :
    (∃ i, s'.phase σ side = .issued i ∧ i.message = .stored) ↔
      (∃ i, s.phase σ side = .issued i ∧ i.message = .stored) ∨
        ∃ now, e = .store σ side .message now := by
  rcases phase_step h σ side with ⟨hmoves, heq⟩ | hadv
  · rw [heq]
    refine (or_iff_left ?_).symm
    rintro ⟨now, rfl⟩
    exact hmoves ⟨rfl, rfl⟩
  · generalize hph : s.phase σ side = ph at hadv
    generalize s'.phase σ side = ph' at hadv
    cases hadv with
    | tap => simp
    | snapshot => simp
    | callback snapshot key text =>
      rw [issue]
      split_ifs <;> simp
    | store i kind now => cases kind <;> simp [Issued.settle]
    | reject i kind =>
      cases kind with
      | header => simp [Issued.settle]
      | message =>
        obtain ⟨w, hpop⟩ := step_reject.mp h
        obtain ⟨j, -, hj, hpend, -⟩ := pop_wf hs hpop
        rw [hph] at hj
        cases hj
        simp [Issued.settle, not_stored_of_pending hpend]
    | complete i _ => simp

theorem Delivery.Of.step {d : Delivery} (hs : Wf s) (h : Chat.step s e = some s') (hd : d.Of s) :
    d.Of s' :=
  ⟨sent_step hs h hd.1, hd.2⟩

omit [URLSyntax] in
theorem child_boxRef (db : Value) (x y k : String) :
    (db.get (boxRef x y)).child k = db.get (messageRef x y k) := by
  have hpath : messageRef x y k = boxRef x y ++ [k] := by simp [messageRef, boxRef]
  rw [hpath, Node.get_append]
  rfl

/-- A message write adds its message to its mailbox. -/
theorem get_boxRef_message {i : Issued} {now : Rat} (db : Value) :
    (db.set (writeOf σ side i .message).path (resolve now (writeOf σ side i .message).value)).get
        (boxRef (side.owner σ) (side.peer σ)) =
      (db.get (boxRef (side.owner σ) (side.peer σ))).insert i.key
        (Stored.object ⟨i.key, i.text, now, side.isSender⟩) := by
  have hpath : (writeOf σ side i .message).path = boxRef (side.owner σ) (side.peer σ) ++ [i.key] := by
    simp [writeOf, messageRef, boxRef]
  rw [hpath, Node.get_set_append]
  rfl

theorem refines_init {db : Value} (hdb : ∀ x y, db.get (boxRef x y) = .null) :
    Refines (Chat.init db) [] where
  delivered := fun _ _ => by simp [Chat.init]
  issued := fun _ hd => absurd hd List.not_mem_nil
  boxes := by
    intro x y
    have hbox : (Chat.init db).db.get (boxRef x y) = .null := hdb x y
    rw [hbox]
    exact stores_nil

/-- A step that stores no message leaves the log as it is. -/
theorem refines_stutter (hs : Wf s) (hR : Refines s log) (h : Chat.step s e = some s')
    (hno : ∀ σ side now, e ≠ .store σ side .message now)
    (hboxes : ∀ x y, Stores (box x y log) (s'.db.get (boxRef x y))) : Refines s' log where
  delivered := by
    intro σ side
    rw [hR.delivered, stored_step hs h]
    refine (or_iff_left ?_).symm
    rintro ⟨now, he⟩
    exact hno σ side now he
  issued := fun d hd => (hR.issued d hd).step hs h
  boxes := hboxes

/-- A header write that erases no message finds its mailbox empty, and leaves it empty. -/
theorem refines_header {now : Rat} (hs : Wf s) (hR : Refines s log)
    (h : Chat.step s (.store σ side .header now) = some s') (hstay : MessagesStay s s') :
    Refines s' log := by
  rcases db_step hs h with ⟨-, hne⟩ | ⟨τ, sd, kind, t, i, heq, -, -, -, hdb⟩
  · exact absurd rfl (hne σ side .header now)
  · cases heq
    refine refines_stutter hs hR h (by simp) ?_
    intro x y
    by_cases hc : side.owner σ = x ∧ side.peer σ = y
    · obtain ⟨rfl, rfl⟩ := hc
      have hafter : s'.db.get (boxRef (side.owner σ) (side.peer σ)) = .null := by
        have hm : (resolve now (headerObject (side.author σ))).child "messages" = .null :=
          child_resolve_null (by simp [headerObject])
        rw [hdb]
        exact (Node.get_set _ _ _ _).trans hm
      have hbefore : ∀ k, (s.db.get (boxRef (side.owner σ) (side.peer σ))).child k = .null := by
        intro k
        by_contra hk
        rw [child_boxRef] at hk
        have heq := hstay _ _ k hk
        rw [← child_boxRef s'.db, hafter, Node.child_null] at heq
        exact hk heq.symm
      have hbox : box (side.owner σ) (side.peer σ) log = [] := by
        refine List.eq_nil_iff_forall_not_mem.mpr ?_
        intro m hm
        have hmem := (hR.boxes _ _).mem_iff.mp (List.mem_map.mpr ⟨m, hm, rfl⟩)
        obtain ⟨hchild, hne⟩ := Node.mem_children.mp hmem
        exact hne (hchild.symm.trans (hbefore m.key))
      rw [hafter, hbox]
      exact stores_nil
    · rw [hdb, boxRef, get_set_writeOf_of_ne _ _ hc]
      exact hR.boxes x y

/-- A message write delivers its message. -/
theorem refines_message {now : Rat} (hs : Wf s) (hR : Refines s log)
    (h : Chat.step s (.store σ side .message now) = some s') :
    ∃ d log', step log d = some log' ∧ Refines s' log' := by
  rcases db_step hs h with ⟨-, hne⟩ | ⟨τ, sd, kind, t, i, heq, hp, hpend, hp', hdb⟩
  · exact absurd rfl (hne σ side .message now)
  · cases heq
    let d : Delivery := ⟨σ, side, ⟨i.key, i.text, now, side.isSender⟩⟩
    have hnew : d.origin ∉ log.map Delivery.origin := by
      intro hmem
      obtain ⟨j, hj, hst⟩ := (hR.delivered σ side).mp hmem
      rw [hp] at hj
      cases hj
      exact not_stored_of_pending hpend hst
    refine ⟨d, log ++ [d], if_neg hnew, ?_, ?_, ?_⟩
    · intro τ sd
      rw [List.map_append, List.mem_append, hR.delivered, stored_step hs h]
      simp [d, Delivery.origin, eq_comm]
    · intro d' hd'
      rcases List.mem_append.mp hd' with hd' | hd'
      · exact (hR.issued d' hd').step hs h
      · rw [List.mem_singleton.mp hd']
        exact ⟨⟨_, hp', rfl, rfl, rfl, rfl, rfl⟩, rfl⟩
    · intro x y
      rw [box_concat, hdb]
      by_cases hc : d.To x y
      · obtain ⟨rfl, rfl⟩ := hc
        have hnull := hs.unstored σ side i hp (not_stored_of_pending hpend)
        rw [← child_boxRef] at hnull
        rw [if_pos ⟨rfl, rfl⟩, get_boxRef_message, Stores, List.map_append, List.map_singleton]
        exact List.perm_append_comm.trans
          (Node.perm_children_insert (hR.boxes _ _) hnull (object_ne_null _))
      · rw [if_neg hc, boxRef, get_set_writeOf_of_ne _ _ hc]
        exact hR.boxes x y

/-- A step that erases no message is a delivery or nothing. -/
theorem refines_step (hs : Wf s) (hR : Refines s log) (h : Chat.step s e = some s')
    (hstay : MessagesStay s s') : ∃ ds log', run step log ds = some log' ∧ Refines s' log' := by
  have hsame : (∀ σ side kind now, e ≠ .store σ side kind now) → s'.db = s.db →
      ∃ ds log', run step log ds = some log' ∧ Refines s' log' := by
    intro hno hdb
    refine ⟨[], log, rfl, refines_stutter hs hR h (fun σ side now => hno σ side .message now) ?_⟩
    rw [hdb]
    exact hR.boxes
  rcases db_step hs h with ⟨hdb, hne⟩ | ⟨σ, side, kind, now, i, rfl, -⟩
  · exact hsame hne hdb
  · cases kind with
    | header => exact ⟨[], log, rfl, refines_header hs hR h hstay⟩
    | message =>
      obtain ⟨d, log', hd, hR'⟩ := refines_message hs hR h
      exact ⟨[d], log', by rw [run, hd]; rfl, hR'⟩

end Step

/-- In every run on which no header write is raced, from a store without messages, the database holds
    the mailboxes of some log of deliveries, in which no leg delivers twice. -/
theorem refines_mailboxes (db : Value) (es : List Chat.Event) (s : Chat.State)
    (hdb : ∀ x y, db.get (boxRef x y) = .null)
    (hrace : Along Chat.step (fun pre _ e _ => Unraced pre e) (Chat.init db) es)
    (hr : run Chat.step (Chat.init db) es = some s) :
    ∃ ds log, run step [] ds = some log ∧ (log.map Delivery.origin).Nodup ∧ Refines s log := by
  have hstay := (stays_iff_unraced db es).mpr hrace
  obtain ⟨ds, log, hlog, hR⟩ : ∃ ds log, run step [] ds = some log ∧ Refines s log :=
    along_simulates (I := Staying) (staying_init db) (refines_init hdb)
      (fun _ _ _ _ hs h hm => staying_step hs h hm)
      (fun _ _ _ _ _ hs hR h hm => refines_step hs.wf hR h hm) hstay hr
  exact ⟨ds, log, hlog, nodup_run hlog, hR⟩

/-! ### Both ends of a dialogue -/

/-- Both legs have stored their message, with the same text. -/
def DeliveredAlike (s : Chat.State) (σ : Send) : Prop :=
  ∃ i j, s.phase σ .receiver = .issued i ∧ s.phase σ .sender = .issued j ∧
    i.message = .stored ∧ j.message = .stored ∧ i.text = j.text

section Mirror
variable {db : Value} {es : List Chat.Event} {s : Chat.State} {log : List Delivery} {x y : String}

theorem DeliveredAlike.stored {σ : Send} (h : DeliveredAlike s σ) (side : Side) :
    ∃ i, s.phase σ side = .issued i ∧ i.message = .stored := by
  obtain ⟨i, j, hi, hj, hst, hst', -⟩ := h
  cases side with
  | receiver => exact ⟨i, hi, hst⟩
  | sender => exact ⟨j, hj, hst'⟩

theorem under_way {σ : Send} {side : Side} {k text : String} (h : Sent s σ side x y k text) :
    s.phase σ side ≠ .idle := by
  obtain ⟨i, hi, -⟩ := h
  rw [hi]
  simp

/-- The text that the send has delivered. -/
def textOf (s : Chat.State) (σ : Send) : String :=
  match s.phase σ .receiver with
  | .issued i => i.text
  | _ => ""

theorem DeliveredAlike.textOf_eq {σ : Send} (h : DeliveredAlike s σ) {side : Side} {k text : String}
    (hsent : Sent s σ side x y k text) : textOf s σ = text := by
  obtain ⟨i, j, hi, hj, -, -, htext⟩ := h
  obtain ⟨i', hi', -, -, rfl, -⟩ := hsent
  rw [textOf, hi]
  cases side with
  | receiver =>
    rw [hi] at hi'
    cases hi'
    rfl
  | sender =>
    rw [hj] at hi'
    cases hi'
    exact htext

theorem Delivery.Of.to {d : Delivery} (hd : d.Of s) (hto : d.To x y) :
    Sent s d.send d.side x y d.message.key d.message.text := by
  obtain ⟨rfl, rfl⟩ := hto
  exact hd.1

/-- One delivery for each send between the two. -/
theorem nodup_sends (hne : x ≠ y) (hnodup : (log.map Delivery.origin).Nodup) :
    ((deliveries x y log).map Delivery.send).Nodup := by
  refine List.Nodup.map_on ?_ ((List.Nodup.of_map _ hnodup).filter _)
  intro d hd d' hd' heq
  obtain ⟨hd, ho, hp⟩ := mem_deliveries.mp hd
  obtain ⟨hd', ho', hp'⟩ := mem_deliveries.mp hd'
  refine List.inj_on_of_nodup_map hnodup hd hd' (Prod.ext heq ?_)
  -- the other leg of the send goes to the other mailbox
  rw [← heq] at ho' hp'
  show d.side = d'.side
  cases hs : d.side <;> cases hs' : d'.side <;> rw [hs] at ho hp <;> rw [hs'] at ho' hp' <;>
    first | rfl | exact absurd (ho.symm.trans hp') hne

theorem mem_sends (hr : run Chat.step (Chat.init db) es = some s) (hR : Refines s log)
    (hall : ∀ σ, .tap σ ∈ es → Between σ x y → DeliveredAlike s σ) {σ : Send} :
    σ ∈ (deliveries x y log).map Delivery.send ↔ .tap σ ∈ es ∧ Between σ x y := by
  constructor
  · intro hmem
    obtain ⟨d, hd, rfl⟩ := List.mem_map.mp hmem
    obtain ⟨hd, hto⟩ := mem_deliveries.mp hd
    have hsent := (hR.issued d hd).to hto
    exact ⟨tap_mem hr (under_way hsent), hsent.between⟩
  · rintro ⟨htap, hb⟩
    obtain ⟨side, ho, hp⟩ := side_of_between hb
    have hmem := (hR.delivered σ side).mpr ((hall σ htap hb).stored side)
    obtain ⟨d, hd, heq⟩ := List.mem_map.mp hmem
    obtain ⟨rfl, rfl⟩ := Prod.mk.inj heq
    exact List.mem_map.mpr ⟨d, mem_deliveries.mpr ⟨hd, ho, hp⟩, rfl⟩

/-- The two mailboxes hold the same texts, each under opposite flags. -/
theorem boxes_mirror (hne : x ≠ y) (hr : run Chat.step (Chat.init db) es = some s)
    (hnodup : (log.map Delivery.origin).Nodup) (hR : Refines s log)
    (hall : ∀ σ, .tap σ ∈ es → Between σ x y → DeliveredAlike s σ) :
    ((box x y log).map (fun m => (m.text, m.isSender))).Perm
      ((box y x log).map (fun m => (m.text, !m.isSender))) := by
  have hall' : ∀ σ, .tap σ ∈ es → Between σ y x → DeliveredAlike s σ :=
    fun σ htap hb => hall σ htap (Or.symm hb)
  -- what either mailbox says about a send
  let line (σ : Send) : String × Bool := (textOf s σ, decide (σ.curentUser.uId = y))
  have halike : ∀ {u v : String} {d : Delivery}, Between d.send x y → d ∈ log → d.To u v →
      textOf s d.send = d.message.text := by
    intro u v d hb hd hto
    have hsent := (hR.issued d hd).to hto
    exact (hall d.send (tap_mem hr (under_way hsent)) hb).textOf_eq hsent
  have hxy : (box x y log).map (fun m => (m.text, m.isSender)) =
      ((deliveries x y log).map Delivery.send).map line := by
    rw [box, List.map_map, List.map_map]
    refine List.map_congr_left ?_
    intro d hd
    obtain ⟨hd, hto⟩ := mem_deliveries.mp hd
    have hsent := (hR.issued d hd).to hto
    refine Prod.ext (halike hsent.between hd hto).symm ?_
    show d.message.isSender = decide (d.send.curentUser.uId = y)
    rw [(hR.issued d hd).2, Bool.eq_iff_iff, decide_eq_true_iff]
    exact (hsent.made_by hne).1
  have hyx : (box y x log).map (fun m => (m.text, !m.isSender)) =
      ((deliveries y x log).map Delivery.send).map line := by
    rw [box, List.map_map, List.map_map]
    refine List.map_congr_left ?_
    intro d hd
    obtain ⟨hd, hto⟩ := mem_deliveries.mp hd
    have hsent := (hR.issued d hd).to hto
    refine Prod.ext (halike (Or.symm hsent.between) hd hto).symm ?_
    show (!d.message.isSender) = decide (d.send.curentUser.uId = y)
    rw [(hR.issued d hd).2, Bool.eq_iff_iff, decide_eq_true_iff, Bool.not_eq_true']
    exact (hsent.made_by (Ne.symm hne)).2
  rw [hxy, hyx]
  refine List.Perm.map line ?_
  refine (List.perm_ext_iff_of_nodup (nodup_sends hne hnodup)
    (nodup_sends (Ne.symm hne) hnodup)).mpr ?_
  intro σ
  rw [mem_sends hr hR hall, mem_sends hr hR hall']
  exact and_congr_right fun _ => or_comm

end Mirror

/-- When every send between two users has been delivered to both, with the same text, and no header
    write was raced, their screens list the same dialogue: each line of one is a line of the other, as
    often, in the opposite bubble. -/
theorem screens_mirror (x y autor autor' : UserProfile) (db : Value) (es : List Chat.Event)
    (s : Chat.State) (hne : x.uId ≠ y.uId) (hdb : ∀ x y, db.get (boxRef x y) = .null)
    (hrace : Along Chat.step (fun pre _ e _ => Unraced pre e) (Chat.init db) es)
    (hr : run Chat.step (Chat.init db) es = some s)
    (hall : ∀ σ, .tap σ ∈ es → Between σ x.uId y.uId → DeliveredAlike s σ) :
    ((observeMessages autor (snapshotAt (messagesRef x y) s.db)).map
        (fun m => (m.text, m.isSender))).Perm
      ((observeMessages autor' (snapshotAt (messagesRef y x) s.db)).map
        (fun m => (m.text, !m.isSender))) := by
  obtain ⟨ds, log, -, hnodup, hR⟩ := refines_mailboxes db es s hdb hrace hr
  have hread : ∀ (u v a : UserProfile) (f : String → Bool → String × Bool),
      ((observeMessages a (snapshotAt (messagesRef u v) s.db)).map
        (fun m => f m.text m.isSender)).Perm
      ((box u.uId v.uId log).map (fun m => f m.text m.isSender)) := by
    intro u v a f
    have hbox : Stores (box u.uId v.uId log) (s.db.get (messagesRef u v)) := hR.boxes _ _
    rw [snapshotAt, observeMessages_of_stores u v a hbox, List.map_map]
    exact (List.mergeSort_perm _ _).map _
  exact (hread x y autor Prod.mk).trans ((boxes_mirror hne hr hnodup hR hall).trans
    (hread y x autor' (fun t b => (t, !b))).symm)

/-! ### A first message -/

/-- A first message, stored in both copies. -/
def firstMessage (σ : Send) : List Chat.Event :=
  [.tap σ, .snapshot σ .receiver, .snapshot σ .sender, .callback σ .receiver "-L1" "hi",
    .callback σ .sender "-L2" "hi", .store σ .receiver .header 1, .store σ .receiver .message 2,
    .store σ .sender .header 3, .store σ .sender .message 4]

section
omit [URLSyntax]

/-- It is delivered by both of its legs. -/
theorem refines_mailboxes_first : ∃ (_ : URLSyntax) (σ : Send) (s : Chat.State),
    run Chat.step (Chat.init .null) (firstMessage σ) = some s ∧
      ∃ ds log, run step [] ds = some log ∧ (log.map Delivery.origin).Nodup ∧ Refines s log := by
  let _ := nonEmptyURLs
  let σ : Send := ⟨0, 0, 0, ann, bob⟩
  obtain ⟨s, hs, -⟩ := exists_of_run_any Chat.step (Chat.init .null) (firstMessage σ)
    (fun _ => true) (by decide)
  exact ⟨nonEmptyURLs, σ, s, hs, refines_mailboxes .null (firstMessage σ) s
    (fun _ _ => Node.get_null _) (along_of_positions (by decide)) hs⟩

/-- Both ends list it. -/
theorem screens_mirror_first : ∃ (_ : URLSyntax) (x y : UserProfile) (s : Chat.State),
    run Chat.step (Chat.init .null) (firstMessage ⟨0, 0, 0, x, y⟩) = some s ∧
      ((observeMessages y (snapshotAt (messagesRef x y) s.db)).map
          (fun m => (m.text, m.isSender))).Perm
        ((observeMessages x (snapshotAt (messagesRef y x) s.db)).map
          (fun m => (m.text, !m.isSender))) := by
  let _ := nonEmptyURLs
  let σ : Send := ⟨0, 0, 0, ann, bob⟩
  let i : Issued := ⟨true, "-L1", "hi", .stored, .stored, false⟩
  let j : Issued := ⟨true, "-L2", "hi", .stored, .stored, false⟩
  obtain ⟨s, hs, hp⟩ := exists_of_run_any Chat.step (Chat.init .null) (firstMessage σ)
    (fun s => s.phase σ .receiver = .issued i ∧ s.phase σ .sender = .issued j) (by decide)
  obtain ⟨hi, hj⟩ := decide_eq_true_iff.mp hp
  refine ⟨nonEmptyURLs, ann, bob, s, hs, screens_mirror ann bob bob ann .null (firstMessage σ) s (by decide)
    (fun _ _ => Node.get_null _) (along_of_positions (by decide)) hs ?_⟩
  intro τ hτ _
  obtain rfl : τ = σ := by simpa [firstMessage] using hτ
  exact ⟨i, j, hi, hj, rfl, rfl, rfl⟩

end

end PostApp.Mailbox
