import PostApp.Chat.Flags
import Mathlib.Data.Set.Subsingleton

/-! The listeners a chat screen leaves on the messages.

    `observeMesseges` registers its messages listener in the handler of another `.value` listener, on
    the conversation above, and removes none. That one fires again for every message below it, so
    once the conversation has been delivered with its author every further delivery adds a listener
    (`listeners_grow`), and a stored message is rebuilt once by each (`rebuilds_chat`). The screen
    stays at one listener exactly in the runs where no second authored conversation is delivered
    (`one_listener_iff`). -/

namespace PostApp.Screen
open Schemes Chat
variable [URLSyntax]

/-- The rebuilds of the array that the listeners still owe. -/
def State.rebuilds (s : State) : ℕ := Listener.owed (s.listeners.map Prod.snd)

/-- The keys in a conversation whose value decodes as the author. -/
def autorKeys (user : UserProfile) (v : Value) : Set String :=
  {k | (decodeProfile user.uId (v.child k)).isSome}

section
variable {me user : UserProfile} {s s' : State}

theorem hasAutor_iff_autorKeys {v : Value} :
    HasAutor me user v ↔ (autorKeys user v).Nonempty := by
  rw [hasAutor_iff]
  exact exists_congr (fun k => Option.isSome_iff_exists.symm)

omit [URLSyntax] in
/-- Of a list without repetitions at most one element is kept, exactly when no two pass. -/
theorem length_filterMap_le_one {α β : Type} {f : α → Option β} {cs : List α} (h : cs.Nodup) :
    (cs.filterMap f).length ≤ 1 ↔
      ∀ a ∈ cs, ∀ b ∈ cs, (f a).isSome → (f b).isSome → a = b := by
  induction cs with
  | nil => simp
  | cons c cs ih =>
    obtain ⟨hc, hcs⟩ := List.nodup_cons.mp h
    cases hf : f c with
    | none =>
      rw [List.filterMap_cons_none hf, ih hcs]
      have hcons : ∀ {x}, x ∈ c :: cs → (f x).isSome → x ∈ cs := by
        intro x hx hs
        rcases List.mem_cons.mp hx with rfl | hx
        · rw [hf] at hs; cases hs
        · exact hx
      constructor
      · intro hone a ha b hb hsa hsb
        exact hone a (hcons ha hsa) b (hcons hb hsb) hsa hsb
      · intro hone a ha b hb
        exact hone a (List.mem_cons_of_mem _ ha) b (List.mem_cons_of_mem _ hb)
    | some y =>
      rw [List.filterMap_cons_some hf, List.length_cons, Nat.succ_le_succ_iff, Nat.le_zero,
        List.length_eq_zero_iff, List.filterMap_eq_nil_iff]
      constructor
      · intro hnone a ha b hb hsa hsb
        have honly : ∀ x ∈ c :: cs, (f x).isSome → x = c := by
          intro x hx hs
          rcases List.mem_cons.mp hx with hx | hx
          · exact hx
          · rw [hnone x hx] at hs; cases hs
        rw [honly a ha hsa, honly b hb hsb]
      · intro hone x hx
        by_contra hne
        have heq : x = c := hone x (List.mem_cons_of_mem _ hx) c (List.mem_cons_self ..)
          (Option.isSome_iff_ne_none.mpr hne) (by rw [hf]; rfl)
        rw [heq] at hx
        exact hc hx

theorem length_observeAutors_le_one {v : Value} :
    (observeAutors ⟨nodeRef me user, v⟩).length ≤ 1 ↔ (autorKeys user v).Subsingleton := by
  set snapshot : DataSnapshot := ⟨nodeRef me user, v⟩ with hsnap
  have hnodup : snapshot.children.Nodup :=
    (DataSnapshot.children_sorted snapshot).imp (fun hlt heq => absurd (heq ▸ hlt) (lt_irrefl _))
  have hdec : ∀ k, (autorOf snapshot ⟨nodeRef me user ++ [k], v.child k⟩).isSome ↔
      k ∈ autorKeys user v := by
    intro k
    rw [Option.isSome_iff_exists, autorKeys, Set.mem_ofPred_eq, Option.isSome_iff_exists]
    exact exists_congr (fun p => by rw [autorOf_iff, hsnap, key_nodeRef])
  have hchild : ∀ {k}, k ∈ autorKeys user v →
      (⟨nodeRef me user ++ [k], v.child k⟩ : DataSnapshot) ∈ snapshot.children := by
    intro k hk
    obtain ⟨p, hp⟩ := Option.isSome_iff_exists.mp hk
    have hname := ne_null_of_asString (decodeProfile_fields.mp hp).2.1
    exact List.mem_map.mpr ⟨(k, _), Node.mem_children.mpr ⟨rfl, Node.ne_null_of_child hname⟩, rfl⟩
  rw [observeAutors, collect_eq_filterMap, length_filterMap_le_one hnodup]
  constructor
  · intro hone k hk k' hk'
    have heq := congrArg DataSnapshot.key (hone _ (hchild hk) _ (hchild hk') ((hdec k).mpr hk)
      ((hdec k').mpr hk'))
    rwa [key_concat, key_concat] at heq
  · intro hsub c hc c' hc' hs hs'
    obtain ⟨⟨k, w⟩, hkw, rfl⟩ := List.mem_map.mp hc
    obtain ⟨⟨k', w'⟩, hkw', rfl⟩ := List.mem_map.mp hc'
    obtain ⟨rfl, -⟩ := Node.mem_children.mp hkw
    obtain ⟨rfl, -⟩ := Node.mem_children.mp hkw'
    rw [hsub ((hdec k).mp hs) ((hdec k').mp hs')]

/-! ### What a step adds -/

/-- A change of the messages costs one rebuild for every listener. -/
theorem rebuilds_chat {e : Chat.Event} (h : step me user s (.chat e) = some s') :
    s'.rebuilds = s.rebuilds +
      if s.chat.db.get (messagesRef me user) = s'.chat.db.get (messagesRef me user) then 0
      else s.listeners.length := by
  obtain ⟨chat, -, rfl⟩ := step_chat h
  simp only [State.rebuilds, List.map_map]
  have hsnd : ∀ old new : Value, s.listeners.map (Prod.snd ∘ fun l => (l.1, l.2.notify old new)) =
      (s.listeners.map Prod.snd).map (Listener.notify old new) := by
    intro old new
    rw [List.map_map]
    rfl
  rw [hsnd]
  split_ifs with heq
  · rw [heq, List.map_congr_left (fun ℓ _ => Listener.notify_self _ ℓ), List.map_id', Nat.add_zero]
  · rw [Listener.owed_notify heq, List.length_map]

theorem rebuilds_nodeEvent (h : step me user s .nodeEvent = some s') :
    s'.rebuilds + s.listeners.length = s.rebuilds + s'.listeners.length := by
  obtain ⟨ℓ, v, ℓ', -, -, rfl⟩ := step_nodeEvent h
  simp only [State.rebuilds, List.map_append, List.length_append, List.length_map,
    Listener.owed_append, List.map_map, Function.comp_def, Listener.owed_attach]
  omega

theorem rebuilds_messagesEvent {i : ℕ} (h : step me user s (.messagesEvent i) = some s') :
    s'.rebuilds + 1 = s.rebuilds ∧ s'.listeners.length = s.listeners.length := by
  obtain ⟨autor, ℓ, v, ℓ', hi, hf, rfl⟩ := step_messagesEvent h
  refine ⟨?_, List.length_set ..⟩
  rw [State.rebuilds, State.rebuilds, List.map_set]
  exact Listener.owed_fire (by rw [List.getElem?_map, hi]; rfl) hf

/-- No step owes more rebuilds than the screen has listeners. -/
theorem rebuilds_step {e : Event} (h : step me user s e = some s') :
    s'.rebuilds ≤ s.rebuilds + s'.listeners.length := by
  cases e with
  | chat e =>
    have hadd := rebuilds_chat h
    obtain ⟨chat, -, rfl⟩ := step_chat h
    rw [hadd, List.length_map]
    split_ifs <;> omega
  | nodeEvent =>
    have hadd := rebuilds_nodeEvent h
    omega
  | messagesEvent i =>
    obtain ⟨hless, -⟩ := rebuilds_messagesEvent h
    omega
  | viewDidLoad =>
    obtain ⟨-, rfl⟩ := step_viewDidLoad h
    exact Nat.le_add_right ..
  | snapshot =>
    obtain ⟨-, rfl⟩ := step_snapshot h
    exact Nat.le_add_right ..
  | singleEvent =>
    rcases step_singleEvent h with ⟨_, -, ⟨-, rfl⟩ | ⟨-, rfl⟩⟩ <;> exact Nat.le_add_right ..

/-! ### Which conversations have been delivered -/

/-- What the conversation listener has delivered and has yet to deliver. -/
structure Lasting (me user : UserProfile) (s : State) : Prop where
  fed : Fed me user s
  /-- a conversation with an author is followed by such only -/
  lasting : ∀ ℓ, s.node = some ℓ →
    ℓ.values.Pairwise (fun v w => HasAutor me user v → HasAutor me user w)
  /-- a listener on the messages is registered while the last conversation had an author -/
  shown : s.listeners ≠ [] → ∃ ℓ v, s.node = some ℓ ∧ ℓ.seen = some v ∧ HasAutor me user v

/-- Every conversation the listener has delivered or owes is one that still holds its author. -/
theorem Fed.hasAutor_of_values (hs : Fed me user s) {ℓ : Listener Value} {v : Value}
    (hℓ : s.node = some ℓ) (hv : v ∈ ℓ.values) (ha : HasAutor me user v) :
    HasAutor me user (s.chat.db.get (nodeRef me user)) := by
  rcases List.mem_append.mp hv with hv | hv
  · exact (hs.registered (hs.seen ℓ v hℓ (Option.mem_toList.mp hv) ha)).2
  · exact hs.pending ℓ v hℓ hv ha

theorem lasting_init (db : Value) : Lasting me user (init db) :=
  ⟨fed_init db, fun _ hℓ => (by cases hℓ), fun hne => absurd rfl hne⟩

/-- The values of the conversation listener stay in order. -/
theorem lasting_values {e : Event} (hs : Lasting me user s) (h : step me user s e = some s') :
    ∀ ℓ, s'.node = some ℓ →
      ℓ.values.Pairwise (fun v w => HasAutor me user v → HasAutor me user w) := by
  intro ℓ' hℓ'
  cases e with
  | chat e =>
    obtain ⟨chat, hc, rfl⟩ := step_chat h
    obtain ⟨ℓ, hℓ, rfl⟩ := Option.map_eq_some_iff.mp hℓ'
    refine Listener.pairwise_notify (hs.lasting ℓ hℓ) ?_
    intro v hv ha
    exact hasAutor_step hs.fed.wf hc (hs.fed.hasAutor_of_values hℓ hv ha)
  | nodeEvent =>
    obtain ⟨ℓ, v, _, hℓ, hf, rfl⟩ := step_nodeEvent h
    cases hℓ'
    exact Listener.pairwise_fire (hs.lasting ℓ hℓ) hf
  | messagesEvent i =>
    obtain ⟨_, _, _, _, -, -, rfl⟩ := step_messagesEvent h
    exact hs.lasting ℓ' hℓ'
  | viewDidLoad =>
    obtain ⟨-, rfl⟩ := step_viewDidLoad h
    exact hs.lasting ℓ' hℓ'
  | snapshot =>
    obtain ⟨-, rfl⟩ := step_snapshot h
    exact hs.lasting ℓ' hℓ'
  | singleEvent =>
    rcases step_singleEvent h with ⟨_, -, ⟨-, rfl⟩ | ⟨-, rfl⟩⟩
    · cases hℓ'
      exact Listener.pairwise_attach _
    · exact hs.lasting ℓ' hℓ'

/-- A screen with a listener has been shown a conversation with an author last. -/
theorem lasting_shown {e : Event} (hs : Lasting me user s) (h : step me user s e = some s')
    (hne : s'.listeners ≠ []) :
    ∃ ℓ v, s'.node = some ℓ ∧ ℓ.seen = some v ∧ HasAutor me user v := by
  cases e with
  | chat e =>
    obtain ⟨chat, -, rfl⟩ := step_chat h
    obtain ⟨ℓ, v, hℓ, hv, ha⟩ := hs.shown (by simpa using hne)
    refine ⟨_, v, Option.map_eq_some_iff.mpr ⟨ℓ, hℓ, rfl⟩, ?_, ha⟩
    rw [Listener.notify_seen, hv]
  | nodeEvent =>
    obtain ⟨ℓ, v, ℓ', hℓ, hf, rfl⟩ := step_nodeEvent h
    have hseen : ℓ'.seen = some v := by
      obtain ⟨vs, -, rfl⟩ := Listener.fire_eq.mp hf
      rfl
    refine ⟨ℓ', v, rfl, hseen, ?_⟩
    by_cases hold : s.listeners = []
    · rw [hold, List.nil_append, Ne, List.map_eq_nil_iff] at hne
      exact hne
    · obtain ⟨ℓ₁, w, hℓ₁, hw, ha⟩ := hs.shown hold
      rw [hℓ] at hℓ₁
      cases hℓ₁
      exact Listener.rel_of_fire (hs.lasting ℓ hℓ) hf hw ha
  | messagesEvent i =>
    obtain ⟨_, _, _, _, -, -, rfl⟩ := step_messagesEvent h
    exact hs.shown (by simpa using hne)
  | viewDidLoad =>
    obtain ⟨-, rfl⟩ := step_viewDidLoad h
    exact hs.shown hne
  | snapshot =>
    obtain ⟨-, rfl⟩ := step_snapshot h
    exact hs.shown hne
  | singleEvent =>
    -- the conversation listener is new, so nothing is registered yet
    obtain ⟨snapshot, hc, hs'⟩ := step_singleEvent h
    have hno := hs.fed.node_eq_none (by simp [hc])
    have hold : s.listeners ≠ [] := by
      rcases hs' with ⟨-, rfl⟩ | ⟨-, rfl⟩ <;> exact hne
    exact absurd hno (hs.fed.registered hold).1

theorem lasting_step {e : Event} (hs : Lasting me user s) (h : step me user s e = some s') :
    Lasting me user s' :=
  ⟨fed_step hs.fed h, lasting_values hs h, lasting_shown hs h⟩

theorem lasting_run {db : Value} {es : List Event} (hr : run (step me user) (init db) es = some s) :
    Lasting me user s :=
  run_invariant (lasting_init db) (fun _ _ _ hs h => lasting_step hs h) hr

/-! ### How the listeners grow -/

/-- A message is stored in the conversation the screen shows. -/
def Event.adds (me user : UserProfile) : Event → Bool
  | .chat (.store σ side .message _) => decide (side.owner σ = me.uId ∧ side.peer σ = user.uId)
  | _ => false

/-- The conversations that the screen has yet to be told of. -/
def State.news (s : State) : ℕ := Listener.owed s.node.toList

/-- A stored message changes the conversation it is stored in. -/
theorem node_changes {t t' : Chat.State} {e : Chat.Event} (ht : Wf t)
    (h : Chat.step t e = some t') (hadds : Event.adds me user (.chat e) = true) :
    t.db.get (nodeRef me user) ≠ t'.db.get (nodeRef me user) := by
  intro heq
  rcases db_step ht h with ⟨-, hne⟩ | ⟨σ, side, kind, now, i, rfl, hp, hpend, -, hdb⟩
  · match e, hadds with
    | .store σ side .message now, _ => exact hne σ side .message now rfl
  · match kind, hadds with
    | .message, hadds =>
      obtain ⟨ho, hpeer⟩ := of_decide_eq_true hadds
      have hnull := ht.unstored σ side i hp (not_stored_of_pending hpend)
      have hnew : t'.db.get (messageRef me.uId user.uId i.key) =
          resolve now (messageObject side.isSender i.text) := by
        rw [hdb, writeOf, ho, hpeer, Node.get_set_self]
      rw [ho, hpeer, ← child_messages, messagesRef, Node.get_append, heq] at hnull
      rw [← child_messages, messagesRef, Node.get_append, hnull] at hnew
      exact messageObject_ne_null _ _ _ hnew.symm

/-- Every step of a screen with a listener either keeps what is to come or turns it into one more. -/
theorem grow_step {e : Event} (hs : Lasting me user s) (hne : s.listeners ≠ [])
    (h : step me user s e = some s') :
    s'.listeners ≠ [] ∧ s.listeners.length + s.news + (if e.adds me user then 1 else 0) ≤
      s'.listeners.length + s'.news := by
  obtain ⟨ℓ, w, hℓ, hw, ha⟩ := hs.shown hne
  cases e with
  | chat e =>
    obtain ⟨chat, hc, rfl⟩ := step_chat h
    refine ⟨by simpa using hne, ?_⟩
    simp only [State.news, hℓ, Option.map_some, Option.toList_some, List.length_map]
    by_cases hadds : Event.adds me user (.chat e) = true
    · have hch := Listener.owed_notify (node_changes hs.fed.wf hc hadds) [ℓ]
      rw [List.map_singleton, List.length_singleton] at hch
      rw [if_pos hadds, hch]
      omega
    · rw [if_neg hadds]
      by_cases heq : s.chat.db.get (nodeRef me user) = chat.db.get (nodeRef me user)
      · rw [heq, Listener.notify_self]
        omega
      · have hch := Listener.owed_notify heq [ℓ]
        rw [List.map_singleton, List.length_singleton] at hch
        rw [hch]
        omega
  | nodeEvent =>
    obtain ⟨_, v, ℓ', hℓ', hf, rfl⟩ := step_nodeEvent h
    rw [hℓ] at hℓ'
    cases hℓ'
    have hpos : 0 < (observeAutors ⟨nodeRef me user, v⟩).length :=
      List.length_pos_iff.mpr (Listener.rel_of_fire (hs.lasting ℓ hℓ) hf hw ha)
    have hless : Listener.owed ([ℓ].set 0 ℓ') + 1 = Listener.owed [ℓ] := Listener.owed_fire rfl hf
    refine ⟨fun hnil => hne (List.append_eq_nil_iff.mp hnil).1, ?_⟩
    simp only [State.news, hℓ, Option.toList_some, List.length_append, List.length_map,
      Event.adds, Bool.false_eq_true, if_false]
    rw [List.set_cons_zero] at hless
    omega
  | messagesEvent i =>
    obtain ⟨_, _, _, _, -, -, rfl⟩ := step_messagesEvent h
    refine ⟨by simpa using hne, ?_⟩
    simp [State.news, Event.adds]
  | viewDidLoad =>
    obtain ⟨-, rfl⟩ := step_viewDidLoad h
    exact ⟨hne, le_refl _⟩
  | snapshot =>
    obtain ⟨-, rfl⟩ := step_snapshot h
    exact ⟨hne, le_refl _⟩
  | singleEvent =>
    obtain ⟨_, hc, -⟩ := step_singleEvent h
    rw [hs.fed.node_eq_none (by simp [hc])] at hℓ
    cases hℓ

theorem grow_run {es : List Event} (hs : Lasting me user s) (hne : s.listeners ≠ [])
    (hr : run (step me user) s es = some s') :
    s.listeners.length + s.news + es.countP (Event.adds me user) ≤
      s'.listeners.length + s'.news := by
  induction es generalizing s with
  | nil => cases hr; rfl
  | cons e es ih =>
    obtain ⟨m, hm, hr⟩ := Option.bind_eq_some_iff.mp hr
    obtain ⟨hne', hle⟩ := grow_step hs hne hm
    have hrest := ih (lasting_step hs hm) hne' hr
    rw [List.countP_cons]
    omega

/-- Once a screen has a listener it gains at least one more for every message that is stored in the
    conversation, as soon as it has been told of all of them. -/
theorem listeners_grow {db : Value} {es es' : List Event}
    (hr : run (step me user) (init db) es = some s) (hne : s.listeners ≠ [])
    (hr' : run (step me user) s es' = some s') (hq : s'.Quiet) :
    s.listeners.length + es'.countP (Event.adds me user) ≤ s'.listeners.length := by
  have hgrow := grow_run (lasting_run hr) hne hr'
  have hnews : s'.news = 0 := by
    rw [State.news]
    cases hn : s'.node with
    | none => rfl
    | some ℓ =>
      have hp := hq.node ℓ hn
      simp [Listener.owed, hp]
  omega

/-! ### One listener -/

/-- The screen has one listener on the messages at most, and the step owes one rebuild at most. -/
def OneListener (_ : List Event) (s : State) (_ : Event) (s' : State) : Prop :=
  s'.listeners.length ≤ 1 ∧ s'.rebuilds ≤ s.rebuilds + 1

/-- The conversation that is delivered has one author at most, and if it has one, the conversation
    delivered before it had none. -/
def FirstAutor (user : UserProfile) (_ : List Event) (s : State) : Event → State → Prop
  | .nodeEvent, _ => ∀ ℓ v vs, s.node = some ℓ → ℓ.pending = v :: vs →
      (autorKeys user v).Subsingleton ∧
        ((autorKeys user v).Nonempty → ∀ w, ℓ.seen = some w → ¬ (autorKeys user w).Nonempty)
  | _, _ => True

/-- Only the delivery of a conversation registers listeners. -/
theorem length_listeners {e : Event} (h : step me user s e = some s') (he : e ≠ .nodeEvent) :
    s'.listeners.length = s.listeners.length := by
  cases e with
  | nodeEvent => exact absurd rfl he
  | chat e =>
    obtain ⟨_, -, rfl⟩ := step_chat h
    exact List.length_map ..
  | messagesEvent i => exact (rebuilds_messagesEvent h).2
  | viewDidLoad =>
    obtain ⟨-, rfl⟩ := step_viewDidLoad h
    rfl
  | snapshot =>
    obtain ⟨-, rfl⟩ := step_snapshot h
    rfl
  | singleEvent => rcases step_singleEvent h with ⟨_, -, ⟨-, rfl⟩ | ⟨-, rfl⟩⟩ <;> rfl

theorem oneListener_nodeEvent {pre : List Event} (hs : Lasting me user s)
    (hone : s.listeners.length ≤ 1) (h : step me user s .nodeEvent = some s') :
    s'.listeners.length ≤ 1 ↔ FirstAutor user pre s .nodeEvent s' := by
  obtain ⟨ℓ, v, ℓ', hℓ, hf, rfl⟩ := step_nodeEvent h
  obtain ⟨vs, hp, rfl⟩ := Listener.fire_eq.mp hf
  rw [List.length_append, List.length_map]
  constructor
  · intro hle ℓ₁ v₁ vs₁ hℓ₁ hp₁
    rw [hℓ] at hℓ₁
    cases hℓ₁
    rw [hp] at hp₁
    cases hp₁
    refine ⟨length_observeAutors_le_one.mp (Nat.le_trans (Nat.le_add_left ..) hle), ?_⟩
    intro ha w hw haw
    have hpos : 0 < (observeAutors ⟨nodeRef me user, v⟩).length :=
      List.length_pos_iff.mpr (hasAutor_iff_autorKeys.mpr ha)
    have hold : 0 < s.listeners.length :=
      List.length_pos_iff.mpr (hs.fed.seen ℓ w hℓ hw (hasAutor_iff_autorKeys.mpr haw))
    omega
  · intro hfirst
    obtain ⟨hsub, hnew⟩ := hfirst ℓ v vs hℓ hp
    have hlen : (observeAutors ⟨nodeRef me user, v⟩).length ≤ 1 :=
      length_observeAutors_le_one.mpr hsub
    by_cases hold : s.listeners = []
    · rw [hold, List.length_nil]
      omega
    · obtain ⟨ℓ₁, w, hℓ₁, hw, haw⟩ := hs.shown hold
      rw [hℓ] at hℓ₁
      cases hℓ₁
      have hnone : observeAutors ⟨nodeRef me user, v⟩ = [] := by
        by_contra ha
        exact hnew (hasAutor_iff_autorKeys.mp ha) w hw (hasAutor_iff_autorKeys.mp haw)
      rw [hnone, List.length_nil]
      omega

theorem oneListener_step {pre : List Event} {e : Event} (hs : Lasting me user s)
    (hone : s.listeners.length ≤ 1) (h : step me user s e = some s') :
    OneListener pre s e s' ↔ FirstAutor user pre s e s' := by
  have hlen : OneListener pre s e s' ↔ s'.listeners.length ≤ 1 := by
    constructor
    · exact fun hle => hle.1
    · intro hle
      have hadd := rebuilds_step h
      exact ⟨hle, by omega⟩
  rw [hlen]
  by_cases he : e = .nodeEvent
  · subst he
    exact oneListener_nodeEvent hs hone h
  · have hkeep := length_listeners h he
    cases e with
    | nodeEvent => exact absurd rfl he
    | _ => exact iff_of_true (by omega) trivial

/-- In every run of stores and of one screen: the screen never has more than one listener on the
    messages, and no store change rebuilds the array more than once, exactly when every conversation
    delivered has one author at most, and none after one that has. -/
theorem one_listener_iff (me user : UserProfile) (db : Value) (es : List Event) :
    Along (step me user) OneListener (init db) es ↔
      Along (step me user) (FirstAutor user) (init db) es := by
  refine along_congr (I := fun _ s => Lasting me user s ∧ s.listeners.length ≤ 1) ?_ ?_ ?_
  · exact ⟨lasting_init db, Nat.zero_le 1⟩
  · intro pre s e s' ⟨hs, hone⟩ h
    exact oneListener_step hs hone h
  · intro pre s e s' ⟨hs, _⟩ h hR
    exact ⟨lasting_step hs h, hR.1⟩

end

omit [URLSyntax] in
/-- One message arrives on an open screen: it has two listeners then. -/
theorem second_listener : ¬ ∀ [URLSyntax] (me user : UserProfile) (db : Value) (es : List Event),
    Along (step me user) OneListener (init db) es := by
  intro h
  let _ := nonEmptyURLs
  let db : Value := Node.null.set (nodeRef ann bob) (headerObject bob)
  let σ : Send := ⟨1, 0, 0, bob, ann⟩
  let es : List Event := [.viewDidLoad, .snapshot, .singleEvent, .nodeEvent, .messagesEvent 0,
    .chat (.tap σ), .chat (.snapshot σ .receiver), .chat (.callback σ .receiver "-L1" "hi"),
    .chat (.store σ .receiver .message 1)]
  obtain ⟨s, hs, hp⟩ := exists_of_run_any (step ann bob) (init db) (es ++ [.nodeEvent])
    (fun s => s.listeners.length = 2) (by decide)
  have halong := h ann bob db (es ++ [.nodeEvent])
  obtain ⟨_, hone, -⟩ := halong.last hs
  rw [decide_eq_true_iff.mp hp] at hone
  exact absurd hone (by decide)

end PostApp.Screen
