import PostApp.Chat.Invariant
import PostApp.Schemes.Listener

/-! The chat screen of one user on another's device.

    `observeMesseges` looks once whether the conversation exists. Only then does it listen to the
    conversation, and every event there registers one more listener on the messages for each child
    that decodes as the author; every messages event rebuilds the array. When all events have been
    delivered, the array shows what is stored exactly when the conversation was there at the one
    look and has a decodable header, or nothing stored decodes (`shows_iff`): a screen opened before
    the first message stays empty.

    The events are those that stores raise. What the device of the screen is shown of its own writes
    before they are stored is left out, as it is of the legs of a send. -/

namespace PostApp.Screen
open Schemes Chat
variable [URLSyntax]

/-- The single event of `observeMesseges`. -/
inductive Check where
  | closed
  | asked
  | snapped (snapshot : DataSnapshot)
  | answered (found : Bool)
  deriving DecidableEq

structure State where
  chat : Chat.State
  check : Check
  /-- the listener on the conversation -/
  node : Option (Listener Value)
  /-- the listeners on its messages, each with its `autor` -/
  listeners : List (UserProfile × Listener Value)
  messages : List Message

inductive Event where
  | chat (e : Chat.Event)
  | viewDidLoad
  | snapshot
  | singleEvent
  | nodeEvent
  | messagesEvent (i : ℕ)

def init (db : Value) : State := ⟨Chat.init db, .closed, none, [], []⟩

section
variable (me user : UserProfile)

def nodeRef : Path := conversationRef me.uId user.uId

def messagesRef : Path := nodeRef me user ++ ["messages"]

/-- The screen for `user` on the device of `me`, whose profile is loaded. -/
def step (s : State) : Event → Option State
  | .chat e => do
    let chat ← Chat.step s.chat e
    some { s with
      chat
      node := s.node.map (fun ℓ =>
        ℓ.notify (s.chat.db.get (nodeRef me user)) (chat.db.get (nodeRef me user)))
      listeners := s.listeners.map (fun l => (l.1,
        l.2.notify (s.chat.db.get (messagesRef me user)) (chat.db.get (messagesRef me user)))) }
  | .viewDidLoad =>
    match s.check with
    | .closed => some { s with check := .asked }
    | _ => none
  | .snapshot =>
    match s.check with
    | .asked => some { s with check := .snapped (snapshotAt (chatRef me.uId) s.chat.db) }
    | _ => none
  | .singleEvent =>
    match s.check with
    | .snapped snapshot =>
      if snapshot.hasChild user.uId then
        some { s with
          check := .answered true
          node := some (.attach (s.chat.db.get (nodeRef me user))) }
      else some { s with check := .answered false }
    | _ => none
  | .nodeEvent => do
    let ℓ ← s.node
    let (v, ℓ') ← ℓ.fire
    some { s with
      node := some ℓ'
      listeners := s.listeners ++ (observeAutors ⟨nodeRef me user, v⟩).map (fun autor =>
        (autor, .attach (s.chat.db.get (messagesRef me user)))) }
  | .messagesEvent i => do
    let (autor, ℓ) ← s.listeners[i]?
    let (v, ℓ') ← ℓ.fire
    some { s with
      listeners := s.listeners.set i (autor, ℓ')
      messages := observeMessages autor ⟨messagesRef me user, v⟩ }

/-- The screen is open and all its events have been delivered. -/
structure State.Quiet (s : State) : Prop where
  check : ∃ found, s.check = .answered found
  node : ∀ ℓ, s.node = some ℓ → ℓ.pending = []
  listeners : ∀ l ∈ s.listeners, l.2.pending = []

/-- The array is the list of the stored messages that decode, in key order. -/
def Shows (s : State) : Prop :=
  ∃ autor, autor.uId = user.uId ∧ s.messages =
    (snapshotAt (messagesRef me user) s.chat.db).children.filterMap
      (messageOf autor (snapshotAt (messagesRef me user) s.chat.db))

/-- A child of the conversation decodes as the author. -/
def HasAutor (v : Value) : Prop := observeAutors ⟨nodeRef me user, v⟩ ≠ []

end

/-! ### What a step can do -/

section
variable {me user : UserProfile} {s s' : State}

theorem step_chat {e : Chat.Event} (h : step me user s (.chat e) = some s') :
    ∃ chat, Chat.step s.chat e = some chat ∧ s' = { s with
      chat
      node := s.node.map (fun ℓ =>
        ℓ.notify (s.chat.db.get (nodeRef me user)) (chat.db.get (nodeRef me user)))
      listeners := s.listeners.map (fun l => (l.1,
        l.2.notify (s.chat.db.get (messagesRef me user)) (chat.db.get (messagesRef me user)))) } := by
  obtain ⟨chat, hc, hs'⟩ := Option.bind_eq_some_iff.mp h
  cases hs'
  exact ⟨chat, hc, rfl⟩

theorem step_viewDidLoad (h : step me user s .viewDidLoad = some s') :
    s.check = .closed ∧ s' = { s with check := .asked } := by
  simp only [step] at h
  split at h
  · next hc =>
    cases h
    exact ⟨hc, rfl⟩
  · cases h

theorem step_snapshot (h : step me user s .snapshot = some s') :
    s.check = .asked ∧ s' = { s with
      check := .snapped (snapshotAt (chatRef me.uId) s.chat.db) } := by
  simp only [step] at h
  split at h
  · next hc =>
    cases h
    exact ⟨hc, rfl⟩
  · cases h

/-- The single event attaches the listener if the conversation was there, and only answers if not. -/
theorem step_singleEvent (h : step me user s .singleEvent = some s') :
    ∃ snapshot, s.check = .snapped snapshot ∧
      ((snapshot.hasChild user.uId = true ∧ s' = { s with
          check := .answered true
          node := some (.attach (s.chat.db.get (nodeRef me user))) }) ∨
        (snapshot.hasChild user.uId = false ∧ s' = { s with check := .answered false })) := by
  simp only [step] at h
  split at h
  · next snapshot hc =>
    split_ifs at h with hchild
    · cases h
      exact ⟨snapshot, hc, Or.inl ⟨hchild, rfl⟩⟩
    · cases h
      exact ⟨snapshot, hc, Or.inr ⟨Bool.eq_false_of_not_eq_true hchild, rfl⟩⟩
  · cases h

theorem step_nodeEvent (h : step me user s .nodeEvent = some s') :
    ∃ ℓ v ℓ', s.node = some ℓ ∧ ℓ.fire = some (v, ℓ') ∧ s' = { s with
      node := some ℓ'
      listeners := s.listeners ++ (observeAutors ⟨nodeRef me user, v⟩).map (fun autor =>
        (autor, .attach (s.chat.db.get (messagesRef me user)))) } := by
  simp only [step, Option.bind_eq_bind, Option.bind_eq_some_iff, Prod.exists] at h
  obtain ⟨ℓ, hℓ, v, ℓ', hf, hs'⟩ := h
  cases hs'
  exact ⟨ℓ, v, ℓ', hℓ, hf, rfl⟩

theorem step_messagesEvent {i : ℕ} (h : step me user s (.messagesEvent i) = some s') :
    ∃ autor ℓ v ℓ', s.listeners[i]? = some (autor, ℓ) ∧ ℓ.fire = some (v, ℓ') ∧ s' = { s with
      listeners := s.listeners.set i (autor, ℓ')
      messages := observeMessages autor ⟨messagesRef me user, v⟩ } := by
  simp only [step, Option.bind_eq_bind, Option.bind_eq_some_iff, Prod.exists] at h
  obtain ⟨autor, ℓ, hi, v, ℓ', hf, hs'⟩ := h
  cases hs'
  exact ⟨autor, ℓ, v, ℓ', hi, hf, rfl⟩

end

/-! ### The author header -/

section
variable {me user : UserProfile}

theorem key_nodeRef (v : Value) : DataSnapshot.key ⟨nodeRef me user, v⟩ = user.uId :=
  key_concat _ _ _

theorem hasAutor_iff {v : Value} :
    HasAutor me user v ↔ ∃ k p, decodeProfile user.uId (v.child k) = some p := by
  constructor
  · intro ha
    obtain ⟨p, hp⟩ := List.exists_mem_of_ne_nil _ ha
    obtain ⟨k, -, hk⟩ := mem_collect.mp hp
    rw [autorOf_iff, key_nodeRef] at hk
    exact ⟨k, p, hk⟩
  · rintro ⟨k, p, hp⟩
    have hname := ne_null_of_asString (decodeProfile_fields.mp hp).2.1
    refine List.ne_nil_of_mem (a := p) (mem_collect.mpr ⟨k, Node.ne_null_of_child hname, ?_⟩)
    rw [autorOf_iff, key_nodeRef]
    exact hp

theorem uId_of_mem_observeAutors {v : Value} {autor : UserProfile}
    (h : autor ∈ observeAutors ⟨nodeRef me user, v⟩) : autor.uId = user.uId := by
  obtain ⟨k, -, hk⟩ := mem_collect.mp h
  rw [autorOf_iff, key_nodeRef] at hk
  exact (decodeProfile_fields.mp hk).1

/-- A value under a new key does not make a profile undecodable. -/
theorem decodeProfile_insert {uId k : String} {dict v : Value} {p : UserProfile}
    (h : decodeProfile uId dict = some p) (hk : dict.child k = .null) :
    decodeProfile uId (dict.insert k v) = some p := by
  obtain ⟨hid, hname, hsurname, url, hurl, hu⟩ := decodeProfile_fields.mp h
  have hkeep : ∀ {f s : String}, asString (dict.child f) = some s →
      (dict.insert k v).child f = dict.child f := by
    intro f s hf
    have hne : f ≠ k := by
      rintro rfl
      rw [hk] at hf; cases hf
    exact Node.child_insert_ne hne v dict
  exact decodeProfile_fields.mpr ⟨hid, by rw [hkeep hname]; exact hname,
    by rw [hkeep hsurname]; exact hsurname, url, by rw [hkeep hurl]; exact hurl, hu⟩

theorem hasAutor_header (a : UserProfile) (now : Rat) :
    HasAutor me user (resolve now (headerObject a)) :=
  hasAutor_iff.mpr ⟨"author", _, decodeProfile_header user.uId now a⟩

/-- Once a conversation has an author it always has one: a header replaces the conversation by one
    with an author, a message goes under a new key. -/
theorem hasAutor_step {s s' : Chat.State} {e : Chat.Event} (hs : Wf s)
    (h : Chat.step s e = some s') (ha : HasAutor me user (s.db.get (nodeRef me user))) :
    HasAutor me user (s'.db.get (nodeRef me user)) := by
  rcases db_step hs h with ⟨hdb, -⟩ | ⟨σ, side, kind, now, i, rfl, hp, hpend, -, hdb⟩
  · rw [hdb]; exact ha
  · rw [hdb]
    by_cases hc : side.owner σ = me.uId ∧ side.peer σ = user.uId
    · obtain ⟨ho, hpeer⟩ := hc
      cases kind with
      | header =>
        have hpath : (writeOf σ side i .header).path = nodeRef me user := by
          simp [writeOf, Side.conversation, ho, hpeer, nodeRef]
        rw [hpath, Node.get_set_self]
        exact hasAutor_header _ _
      | message =>
        have hnull := hs.unstored σ side i hp (not_stored_of_pending hpend)
        have hpath : (writeOf σ side i .message).path =
            nodeRef me user ++ ["messages", i.key] := by
          simp [writeOf, messageRef, ho, hpeer, nodeRef]
        rw [ho, hpeer, messageRef, Node.get_append, ← nodeRef] at hnull
        rw [hpath, Node.get_set_append]
        obtain ⟨k, p, hk⟩ := hasAutor_iff.mp ha
        rw [hasAutor_iff]
        by_cases hm : k = "messages"
        · subst hm
          refine ⟨"messages", p, ?_⟩
          rw [Node.set, Node.child_insert]
          exact decodeProfile_insert hk hnull
        · refine ⟨k, p, ?_⟩
          rw [Node.set, Node.child_insert_ne hm]
          exact hk
    · have hap : Apart (writeOf σ side i kind).path (nodeRef me user) := by
        have hbelow := fun q => apart_conversation_below (not_and_or.mp hc) q []
        simp only [List.append_nil] at hbelow
        cases kind with
        | header => simpa [writeOf, Side.conversation, nodeRef] using hbelow []
        | message => exact hbelow ["messages", i.key]
      rw [Node.get_set_apart hap]
      exact ha

/-! ### The listeners and the array -/

/-- How the screen hangs on the store. -/
structure Fed (me user : UserProfile) (s : State) : Prop where
  wf : Wf s.chat
  found : s.check = .answered true ↔ s.node ≠ none
  node : ∀ ℓ, s.node = some ℓ → ℓ.Tracks (s.chat.db.get (nodeRef me user))
  /-- an author in an event that is still to come is no news -/
  pending : ∀ ℓ v, s.node = some ℓ → v ∈ ℓ.pending → HasAutor me user v →
    HasAutor me user (s.chat.db.get (nodeRef me user))
  seen : ∀ ℓ v, s.node = some ℓ → ℓ.seen = some v → HasAutor me user v → s.listeners ≠ []
  registered : s.listeners ≠ [] →
    s.node ≠ none ∧ HasAutor me user (s.chat.db.get (nodeRef me user))
  autors : ∀ l ∈ s.listeners, l.1.uId = user.uId ∧
    l.2.Tracks (s.chat.db.get (messagesRef me user))
  empty : s.listeners = [] → s.messages = []
  /-- the array is up to date, or some listener has yet to rebuild it -/
  shows : s.listeners ≠ [] → (∃ l ∈ s.listeners, l.2.pending ≠ []) ∨
    ∃ autor, autor.uId = user.uId ∧ s.messages =
      observeMessages autor (snapshotAt (messagesRef me user) s.chat.db)

theorem Fed.node_eq_none {s : State} (hs : Fed me user s) (hc : s.check ≠ .answered true) :
    s.node = none := by
  by_contra hne
  exact hc (hs.found.mpr hne)

theorem fed_init (db : Value) : Fed me user (init db) where
  wf := wf_init db
  found := by simp [init]
  node := fun _ h => (by cases h)
  pending := fun _ _ h => (by cases h)
  seen := fun _ _ h => (by cases h)
  registered := fun h => absurd rfl h
  autors := fun _ h => (List.not_mem_nil h).elim
  empty := fun _ => rfl
  shows := fun h => absurd rfl h

theorem fed_chat {s s' : State} {e : Chat.Event} (hs : Fed me user s)
    (h : step me user s (.chat e) = some s') : Fed me user s' := by
  obtain ⟨chat, hc, rfl⟩ := step_chat h
  have hauthor : HasAutor me user (s.chat.db.get (nodeRef me user)) →
      HasAutor me user (chat.db.get (nodeRef me user)) := hasAutor_step hs.wf hc
  refine ⟨wf_step hs.wf hc, ?_, ?_, ?_, ?_, ?_, ?_, ?_, ?_⟩
  · rw [Ne, Option.map_eq_none_iff]; exact hs.found
  · intro ℓ' hℓ'
    obtain ⟨ℓ, hℓ, rfl⟩ := Option.map_eq_some_iff.mp hℓ'
    exact (hs.node ℓ hℓ).notify _
  · intro ℓ' v hℓ' hv ha
    obtain ⟨ℓ, hℓ, rfl⟩ := Option.map_eq_some_iff.mp hℓ'
    rcases Listener.mem_pending_notify hv with hv | rfl
    · exact hauthor (hs.pending ℓ v hℓ hv ha)
    · exact ha
  · intro ℓ' v hℓ' hv ha
    obtain ⟨ℓ, hℓ, rfl⟩ := Option.map_eq_some_iff.mp hℓ'
    rw [Listener.notify_seen] at hv
    simpa using hs.seen ℓ v hℓ hv ha
  · intro hne
    obtain ⟨hnode, ha⟩ := hs.registered (by simpa using hne)
    exact ⟨by simpa using hnode, hauthor ha⟩
  · intro l' hl'
    obtain ⟨l, hl, rfl⟩ := List.mem_map.mp hl'
    obtain ⟨hid, htracks⟩ := hs.autors l hl
    exact ⟨hid, htracks.notify _⟩
  · intro hnil; exact hs.empty (by simpa using hnil)
  · intro hne
    have hne' : s.listeners ≠ [] := by simpa using hne
    by_cases heq : s.chat.db.get (messagesRef me user) = chat.db.get (messagesRef me user)
    · rcases hs.shows hne' with ⟨l, hl, hp⟩ | ⟨autor, hid, hm⟩
      · refine Or.inl ⟨_, List.mem_map.mpr ⟨l, hl, rfl⟩, ?_⟩
        simpa [Listener.notify, heq] using hp
      · exact Or.inr ⟨autor, hid, by simpa [snapshotAt, heq] using hm⟩
    · obtain ⟨l, hl⟩ := List.exists_mem_of_ne_nil _ hne'
      refine Or.inl ⟨_, List.mem_map.mpr ⟨l, hl, rfl⟩, ?_⟩
      simp [Listener.notify, heq]

theorem fed_nodeEvent {s s' : State} (hs : Fed me user s)
    (h : step me user s .nodeEvent = some s') : Fed me user s' := by
  obtain ⟨ℓ, v, ℓ', hℓ, hf, rfl⟩ := step_nodeEvent h
  obtain ⟨vs, hp, rfl⟩ := Listener.fire_eq.mp hf
  have hv : HasAutor me user v → HasAutor me user (s.chat.db.get (nodeRef me user)) :=
    hs.pending ℓ v hℓ (by rw [hp]; exact List.mem_cons_self ..)
  refine ⟨hs.wf, ?_, ?_, ?_, ?_, ?_, ?_, ?_, ?_⟩
  · exact iff_of_true (hs.found.mpr (by simp [hℓ])) (by simp)
  · rintro _ hℓ'; cases hℓ'
    exact (hs.node ℓ hℓ).fire hf
  · rintro _ w hℓ' hw ha; cases hℓ'
    exact hs.pending ℓ w hℓ (by rw [hp]; exact List.mem_cons_of_mem _ hw) ha
  · rintro _ w hℓ' hw ha; cases hℓ'
    obtain rfl : v = w := Option.some.inj hw
    intro hnil
    exact ha (List.map_eq_nil_iff.mp (List.append_eq_nil_iff.mp hnil).2)
  · intro hne
    refine ⟨by simp, ?_⟩
    by_cases hold : s.listeners = []
    · rw [hold, List.nil_append, Ne, List.map_eq_nil_iff] at hne
      exact hv hne
    · exact (hs.registered hold).2
  · intro l hl
    rcases List.mem_append.mp hl with hl | hl
    · exact hs.autors l hl
    · obtain ⟨autor, ha, rfl⟩ := List.mem_map.mp hl
      exact ⟨uId_of_mem_observeAutors ha, Listener.tracks_attach _⟩
  · intro hnil; exact hs.empty (List.append_eq_nil_iff.mp hnil).1
  · intro hne
    by_cases hnew : observeAutors ⟨nodeRef me user, v⟩ = []
    · simp only [hnew, List.map_nil, List.append_nil] at hne ⊢
      exact hs.shows hne
    · -- a new listener owes its initial event
      obtain ⟨autor, ha⟩ := List.exists_mem_of_ne_nil _ hnew
      exact Or.inl ⟨_, List.mem_append_right _ (List.mem_map.mpr ⟨autor, ha, rfl⟩),
        by simp [Listener.attach]⟩

theorem fed_messagesEvent {s s' : State} {i : ℕ} (hs : Fed me user s)
    (h : step me user s (.messagesEvent i) = some s') : Fed me user s' := by
  obtain ⟨autor, ℓ, v, ℓ', hi, hf, rfl⟩ := step_messagesEvent h
  have hmem : (autor, ℓ) ∈ s.listeners := List.mem_of_getElem? hi
  obtain ⟨hid, htracks⟩ := hs.autors _ hmem
  have hlt : i < s.listeners.length := (List.getElem?_eq_some_iff.mp hi).1
  refine ⟨hs.wf, hs.found, hs.node, hs.pending, ?_, ?_, ?_, ?_, ?_⟩
  · intro ℓ₁ w hℓ₁ hw ha
    simpa using hs.seen ℓ₁ w hℓ₁ hw ha
  · intro hne; exact hs.registered (by simpa using hne)
  · intro l hl
    rcases List.mem_or_eq_of_mem_set hl with hl | rfl
    · exact hs.autors l hl
    · exact ⟨hid, htracks.fire hf⟩
  · intro hnil
    rw [List.set_eq_nil_iff] at hnil
    rw [hnil] at hmem
    exact (List.not_mem_nil hmem).elim
  · intro _
    by_cases hp : ℓ'.pending = []
    · -- the last event of a listener carries the current messages
      have hseen := (htracks.fire hf).seen hp
      obtain ⟨vs, -, rfl⟩ := Listener.fire_eq.mp hf
      obtain rfl : v = s.chat.db.get (messagesRef me user) := Option.some.inj hseen
      exact Or.inr ⟨autor, hid, rfl⟩
    · exact Or.inl ⟨_, List.mem_set hlt _, hp⟩

theorem fed_step {s s' : State} {e : Event} (hs : Fed me user s)
    (h : step me user s e = some s') : Fed me user s' := by
  cases e with
  | chat e => exact fed_chat hs h
  | nodeEvent => exact fed_nodeEvent hs h
  | messagesEvent i => exact fed_messagesEvent hs h
  | viewDidLoad =>
    obtain ⟨hc, rfl⟩ := step_viewDidLoad h
    have hno := hs.node_eq_none (by simp [hc])
    exact { hs with found := by simp [hno] }
  | snapshot =>
    obtain ⟨hc, rfl⟩ := step_snapshot h
    have hno := hs.node_eq_none (by simp [hc])
    exact { hs with found := by simp [hno] }
  | singleEvent =>
    obtain ⟨snapshot, hc, hs'⟩ := step_singleEvent h
    have hno := hs.node_eq_none (by simp [hc])
    have hnil : s.listeners = [] := by
      by_contra hne
      exact (hs.registered hne).1 hno
    rcases hs' with ⟨-, rfl⟩ | ⟨-, rfl⟩
    · refine ⟨hs.wf, by simp, ?_, ?_, ?_, fun hne => absurd hnil hne, hs.autors, hs.empty,
        fun hne => absurd hnil hne⟩
      · rintro _ hℓ; cases hℓ; exact Listener.tracks_attach _
      · rintro _ v hℓ hv ha; cases hℓ
        rwa [List.mem_singleton.mp hv] at ha
      · rintro _ v hℓ hv; cases hℓ; cases hv
    · exact { hs with found := by simp [hno] }

/-- Whether a message decodes does not depend on the author it is shown with. -/
theorem decodes_nothing {autor : UserProfile} (autor' : UserProfile) {snapshot : DataSnapshot}
    (h : snapshot.children.filterMap (messageOf autor snapshot) = []) :
    snapshot.children.filterMap (messageOf autor' snapshot) = [] := by
  rw [List.filterMap_eq_nil_iff] at h ⊢
  intro c hc
  have hdec := h c hc
  simp only [messageOf, Option.bind_eq_bind, Option.bind_eq_none_iff, Option.pure_def,
    reduceCtorEq] at hdec ⊢
  exact hdec

theorem quiet_of_all {s : State} {found : Bool} (hc : s.check = .answered found)
    (hn : s.node.all (fun ℓ => ℓ.pending.isEmpty) = true)
    (hl : s.listeners.all (fun l => l.2.pending.isEmpty) = true) : s.Quiet where
  check := ⟨found, hc⟩
  node := fun ℓ hℓ => by simpa [hℓ] using hn
  listeners := fun l h => by simpa using List.all_eq_true.mp hl l h

/-- When all events have been delivered, the array shows what is stored exactly when the
    conversation was there when the screen looked and it has an author, or nothing decodes. -/
theorem shows_iff (me user : UserProfile) (db : Value) (es : List Event) (s : State)
    (hr : run (step me user) (init db) es = some s) (hq : s.Quiet) :
    Shows me user s ↔
      (s.check = .answered true ∧ HasAutor me user (s.chat.db.get (nodeRef me user))) ∨
        observeMessages user (snapshotAt (messagesRef me user) s.chat.db) = [] := by
  have hs : Fed me user s :=
    run_invariant (I := Fed me user) (fed_init db) (fun _ _ _ hs h => fed_step hs h) hr
  have hcurrent : s.listeners ≠ [] → Shows me user s := by
    intro hne
    rcases hs.shows hne with ⟨l, hl, hp⟩ | ⟨autor, hid, hm⟩
    · exact absurd (hq.listeners l hl) hp
    · exact ⟨autor, hid, by rw [hm, observeMessages, collect_eq_filterMap]⟩
  rw [observeMessages, collect_eq_filterMap]
  constructor
  · rintro ⟨autor, -, hm⟩
    by_cases hnil : s.listeners = []
    · rw [hs.empty hnil] at hm
      exact Or.inr (decodes_nothing user hm.symm)
    · obtain ⟨hnode, ha⟩ := hs.registered hnil
      exact Or.inl ⟨hs.found.mpr hnode, ha⟩
  · rintro (⟨hfound, ha⟩ | hempty)
    · obtain ⟨ℓ, hℓ⟩ := Option.ne_none_iff_exists'.mp (hs.found.mp hfound)
      have hseen := (hs.node ℓ hℓ).seen (hq.node ℓ hℓ)
      exact hcurrent (hs.seen ℓ _ hℓ hseen ha)
    · by_cases hnil : s.listeners = []
      · exact ⟨user, rfl, by rw [hs.empty hnil, hempty]⟩
      · exact hcurrent hnil

omit [URLSyntax] in
/-- A screen opened on a conversation with a header, and the partner's message arriving. -/
theorem shows_iff_arrived : ∃ (_ : URLSyntax) (me user : UserProfile) (db : Value)
    (es : List Event) (s : State), run (step me user) (init db) es = some s ∧ s.messages ≠ [] ∧
      Shows me user s := by
  let _ := nonEmptyURLs
  let db : Value := Node.null.set (nodeRef ann bob) (headerObject bob)
  let σ : Send := ⟨1, 0, 0, bob, ann⟩
  let es : List Event := [.viewDidLoad, .snapshot, .singleEvent, .nodeEvent, .messagesEvent 0,
    .chat (.tap σ), .chat (.snapshot σ .receiver), .chat (.callback σ .receiver "-L1" "hi"),
    .chat (.store σ .receiver .message 1), .nodeEvent, .messagesEvent 0, .messagesEvent 1]
  obtain ⟨s, hs, hp⟩ := exists_of_run_any (step ann bob) (init db) es
    (fun s => (s.check = .answered true ∧ s.node.all (fun ℓ => ℓ.pending.isEmpty) ∧
      s.listeners.all (fun l => l.2.pending.isEmpty)) ∧ s.messages ≠ [] ∧
      observeAutors ⟨nodeRef ann bob, s.chat.db.get (nodeRef ann bob)⟩ ≠ []) (by decide)
  obtain ⟨⟨hc, hn, hl⟩, hm, ha⟩ := decide_eq_true_iff.mp hp
  exact ⟨nonEmptyURLs, ann, bob, db, es, s, hs, hm,
    (shows_iff ann bob db es s hs (quiet_of_all hc hn hl)).mpr (Or.inl ⟨hc, ha⟩)⟩

omit [URLSyntax] in
/-- A screen opened before the first message never shows it. -/
theorem opened_too_early : ¬ ∀ [URLSyntax] (me user : UserProfile) (db : Value) (es : List Event)
    (s : State), run (step me user) (init db) es = some s → s.Quiet → Shows me user s := by
  intro h
  let _ := nonEmptyURLs
  let σ : Send := ⟨0, 0, 0, ann, bob⟩
  let es : List Event := [.viewDidLoad, .snapshot, .singleEvent, .chat (.tap σ),
    .chat (.snapshot σ .sender), .chat (.callback σ .sender "-L1" "hi"),
    .chat (.store σ .sender .header 1), .chat (.store σ .sender .message 2),
    .chat (.complete σ .sender)]
  obtain ⟨s, hs, hp⟩ := exists_of_run_any (step ann bob) (init .null) es
    (fun s => (s.check = .answered false ∧ s.node.all (fun ℓ => ℓ.pending.isEmpty) ∧
      s.listeners.all (fun l => l.2.pending.isEmpty)) ∧ s.messages = [] ∧
      observeMessages bob (snapshotAt (messagesRef ann bob) s.chat.db) ≠ []) (by decide)
  obtain ⟨⟨hc, hn, hl⟩, hm, hstored⟩ := decide_eq_true_iff.mp hp
  obtain ⟨autor, -, hshows⟩ := h ann bob .null es s hs (quiet_of_all hc hn hl)
  rw [observeMessages, collect_eq_filterMap] at hstored
  exact hstored (decodes_nothing bob (hshows.symm.trans hm))

end

end PostApp.Screen
