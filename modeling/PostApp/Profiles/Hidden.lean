import PostApp.Profiles.Isolation

/-! Who knows of an account.

    A chat is opened from a list that shows the partner, and the lists show profiles that some view of the
    database holds, and headers. An account that saves its profile once is hidden while that write waits to
    be judged: it is in the views of no device but the one that makes the write, and no leg writes to it or
    names it, except behind that write (`hidden_step`). Two devices that save profiles for one uid know of
    it from different moments on, so a second save is left out here (`First`). -/

namespace PostApp.Copies
open Schemes Chat
variable [URLSyntax]

/-- The devices that value events have been raised for, in order. -/
def raisers (es : List Event) : List ℕ :=
  es.filterMap fun
    | .raise client _ => some client
    | _ => none

/-- A value event is delivered to the device it was raised for. `pre` are the events so far. -/
def OwnView (pre : List Event) : Event → Prop
  | .value client _ n => (raisers pre)[n]? = some client
  | _ => True

instance (pre : List Event) : ∀ e, Decidable (OwnView pre e)
  | .value client _ n => inferInstanceAs (Decidable ((raisers pre)[n]? = some client))
  | .saveProfile _ _ _ _ _ | .savePost _ _ _ | .commit _ _ | .reject _ | .chat _ | .raise _ _
  | .signOut _ => .isTrue trivial

/-- A chat write is applied after the profile writes that its device made before it. -/
def InTurn (pre : List Event) (s : State) : Event → Prop
  | .chat (.store σ side _ _) => ∀ uId userName userSurname url key text,
      .chat (.callback σ side key text) ∈ after (.saveProfile σ.client uId userName userSurname url) pre →
        ∀ w ∈ s.pending σ.client, w.1 ≠ profileRef uId
  | _ => True

/-! ### Accounts that nobody knows of -/

/-- There is nothing at the node of the account, and no header names it. -/
structure Unknown (uId : String) (v : Value) : Prop where
  node : v.get (profileRef uId) = .null
  headers : ∀ owner, decodeProfile uId ((v.get (conversationRef owner uId)).child "author") = none

/-- The writes of the app that have nothing to do with the account. -/
inductive Foreign (uId : String) : Path × Value → Prop
  | profile (u userName userSurname : String) (url : URL) : u ≠ uId →
      Foreign uId (profileRef u, userObject userName userSurname url)
  | post (key : String) (v : Value) : Foreign uId (postsRef ++ [key], v)
  | chat (owner peer : String) (q : Path) (v : Value) : owner ≠ uId → peer ≠ uId →
      Foreign uId (conversationRef owner peer ++ q, v)

section Unknown
variable {uId : String} {v : Value} {w : Path × Value}

/-- Below a new profile there are no chats. -/
theorem get_chat_userObject (now : Rat) (userName userSurname : String) (url : URL) (q : Path) :
    (resolve now (userObject userName userSurname url)).get ("chat" :: q) = .null := by
  have hchat : (resolve now (userObject userName userSurname url)).child "chat" = .null :=
    child_resolve_null (by simp [userObject])
  rw [Node.get_cons, hchat, Node.get_null]

theorem Unknown.store (h : Unknown uId v) (hw : Foreign uId w) (now : Rat) :
    Unknown uId (store now v w) := by
  have hauthor : ∀ {v' : Value} {owner : String},
      v'.get (conversationRef owner uId) = v.get (conversationRef owner uId) →
        decodeProfile uId ((v'.get (conversationRef owner uId)).child "author") = none := by
    intro v' owner heq
    rw [heq]
    exact h.headers owner
  cases hw with
  | profile u userName userSurname url hu =>
    refine ⟨?_, ?_⟩
    · have hap := apart_profile hu [] []
      rw [List.append_nil, List.append_nil] at hap
      exact (Node.get_set_apart hap _ _).trans h.node
    · intro owner
      by_cases ho : u = owner
      · subst ho
        rw [Copies.store, conversationRef_eq, Node.get_set, get_chat_userObject, Node.child_null,
          decodeProfile_null]
      · have hap := apart_profile ho [] ["chat", uId]
        rw [List.append_nil, ← conversationRef_eq] at hap
        exact hauthor (Node.get_set_apart hap _ _)
  | post key x =>
    refine ⟨?_, fun owner => hauthor ?_⟩
    · have hap := (apart_profile_posts uId [] [key]).symm
      rw [List.append_nil] at hap
      exact (Node.get_set_apart hap _ _).trans h.node
    · have hap := (apart_posts owner uId [key]).symm
      exact Node.get_set_apart hap _ _
  | chat owner peer q x ho hp =>
    refine ⟨?_, fun owner' => hauthor ?_⟩
    · have hap := apart_append (apart_profile ho ["chat", peer] []) q []
      rw [← conversationRef_eq, List.append_nil, List.append_nil] at hap
      exact (Node.get_set_apart hap _ _).trans h.node
    · have hap : Apart (conversationRef owner peer ++ q) (conversationRef owner' uId ++ []) :=
        apart_conversation_below (Or.inr hp) q []
      rw [List.append_nil] at hap
      exact Node.get_set_apart hap _ _

theorem Unknown.foldl (now : Rat) {ws : List (Path × Value)} (hws : ∀ w ∈ ws, Foreign uId w)
    {v : Value} (h : Unknown uId v) : Unknown uId (ws.foldl (Copies.store now) v) := by
  induction ws generalizing v with
  | nil => exact h
  | cons w ws ih =>
    exact ih (fun w' hw' => hws w' (List.mem_cons_of_mem _ hw'))
      (h.store (hws w (List.mem_cons_self ..)) now)

/-- The readers whose profiles a device keeps. -/
def Reader.keeps : Reader → Bool
  | .userProfile _ | .persons | .partners _ => true
  | .autors _ _ | .posts => false

theorem Unknown.profile (h : Unknown uId v) (u : String) {p : UserProfile}
    (hp : decodeProfile u (v.get (profileRef u)) = some p) : p.uId ≠ uId := by
  rintro rfl
  rw [(decodeProfile_fields.mp hp).1] at h
  rw [h.node, decodeProfile_null] at hp
  cases hp

/-- None of them yields the account. -/
theorem Unknown.read (h : Unknown uId v) {reader : Reader} (hr : reader.keeps = true) {p : UserProfile}
    (hp : p ∈ (reader.read v).people) : p.uId ≠ uId := by
  cases reader with
  | userProfile u => exact h.profile u (observeUserProfile_iff.mp (Option.mem_toList.mp hp))
  | persons => exact h.profile p.uId (mem_persons.mp hp)
  | partners owner =>
    obtain ⟨peer, -, hpeer⟩ := mem_collect.mp hp
    rw [partnerOf_iff, key_concat] at hpeer
    rintro rfl
    rw [(decodeProfile_fields.mp hpeer).1] at h
    have hnone := h.headers owner
    rw [conversationRef, Node.get_append] at hnone
    have hsome := hnone.symm.trans hpeer
    cases hsome
  | autors | posts => cases hr

end Unknown

/-! ### Who registers an account -/

/-- The event does not save the profile of the account again. -/
def First (uId : String) (pre : List Event) (e : Event) : Prop :=
  e.account = some uId → uId ∉ pre.filterMap Event.account

/-- The device has saved the profile of the account. -/
def Saves (uId : String) (pre : List Event) (client : ℕ) : Prop :=
  ∃ userName userSurname url, .saveProfile client uId userName userSurname url ∈ pre

/-- The write of the profile is still to be made or to be judged. -/
def Open (uId : String) (pre : List Event) (s : State) : Prop :=
  uId ∉ pre.filterMap Event.account ∨ ∃ client, ∃ w ∈ s.pending client, w.1 = profileRef uId

section Owned
variable {uId : String} {pre : List Event} {s s' : State} {e : Event}

/-- An account whose profile is saved at most once saves it first whenever it does. -/
theorem first_of_count {es post : List Event} (hone : (es.filterMap Event.account).count uId ≤ 1)
    (hes : es = pre ++ e :: post) : First uId pre e := by
  intro he hmem
  have hpos := List.count_pos_iff.mpr hmem
  rw [hes, List.filterMap_append, List.filterMap_cons_some he, List.count_append,
    List.count_cons_self] at hone
  omega

theorem Saves.concat {c : ℕ} (h : Saves uId pre c) (e : Event) : Saves uId (pre ++ [e]) c := by
  obtain ⟨userName, userSurname, url, hmem⟩ := h
  exact ⟨userName, userSurname, url, List.mem_append_left _ hmem⟩

theorem Saves.mem {c : ℕ} (h : Saves uId pre c) : uId ∈ pre.filterMap Event.account :=
  mem_accounts.mpr ⟨c, h⟩

theorem saves_concat {c : ℕ} : Saves uId (pre ++ [e]) c ↔ Saves uId pre c ∨
    ∃ userName userSurname url, e = .saveProfile c uId userName userSurname url := by
  simp only [Saves, List.mem_append, List.mem_singleton, eq_comm (b := e), exists_or]

theorem Made.profile {c : ℕ} {w : Path × Value} (h : Made e c w) (hpath : w.1 = profileRef uId) :
    ∃ userName userSurname url, e = .saveProfile c uId userName userSurname url := by
  rcases h with ⟨u, userName, userSurname, url, he, rfl⟩ | ⟨key, a, text, rfl⟩
  · obtain rfl : u = uId := by simpa [profileRef] using hpath
    exact ⟨userName, userSurname, url, he⟩
  · simp [postsRef, profileRef] at hpath

/-- A write to the node of the account that waits after a step waited before, or has just been made. -/
theorem mem_pending_step (h : step s e = some s') {c : ℕ} {w : Path × Value} (hw : w ∈ s'.pending c)
    (hpath : w.1 = profileRef uId) : w ∈ s.pending c ∨
      ∃ userName userSurname url, e = .saveProfile c uId userName userSurname url := by
  rcases pending_step h c with heq | ⟨w₀, heq⟩ | ⟨w₁, heq, hnew⟩
  · exact Or.inl (heq ▸ hw)
  · exact Or.inl (heq ▸ List.mem_cons_of_mem _ hw)
  · rw [heq] at hw
    rcases List.mem_append.mp hw with hw | hw
    · exact Or.inl hw
    · rw [List.mem_singleton.mp hw] at hpath
      exact Or.inr (hnew.profile hpath)

/-- Where the write of the profile waits, the profile has been saved. -/
def Waits (uId : String) (pre : List Event) (s : State) : Prop :=
  ∀ c, ∀ w ∈ s.pending c, w.1 = profileRef uId → Saves uId pre c

theorem waits_init (db : Value) : Waits uId [] (init db) := fun _ _ h => absurd h List.not_mem_nil

theorem waits_step (hs : Waits uId pre s) (h : step s e = some s') : Waits uId (pre ++ [e]) s' := by
  intro c w hw hpath
  rcases mem_pending_step h hw hpath with hold | hnew
  · exact (hs c w hold hpath).concat e
  · exact saves_concat.mpr (Or.inr hnew)

/-- The profile is saved by one device, and waits there if anywhere. -/
structure Owned (uId : String) (pre : List Event) (s : State) : Prop where
  sound : Sound s
  waits : Waits uId pre s
  one : ∀ c c', Saves uId pre c → Saves uId pre c' → c = c'
  once : ∀ c, (s.pending c).Pairwise (fun w w' => w.1 = profileRef uId → w'.1 ≠ profileRef uId)

/-- What is not open is not opened again. -/
theorem open_step (hfirst : First uId pre e) (h : step s e = some s')
    (hopen : Open uId (pre ++ [e]) s') : Open uId pre s := by
  rcases hopen with hnone | ⟨c, w, hw, hpath⟩
  · refine Or.inl fun hmem => hnone ?_
    rw [List.filterMap_append]
    exact List.mem_append_left _ hmem
  · rcases mem_pending_step h hw hpath with hold | ⟨_, _, _, rfl⟩
    · exact Or.inr ⟨c, w, hold, hpath⟩
    · exact Or.inl (hfirst rfl)

theorem owned_init (db : Value) : Owned uId [] (init db) where
  sound := sound_init db
  waits := waits_init db
  one := fun _ _ ⟨_, _, _, h⟩ => absurd h List.not_mem_nil
  once := fun _ => List.Pairwise.nil

theorem owned_step (hs : Owned uId pre s) (hfirst : First uId pre e) (h : step s e = some s') :
    Owned uId (pre ++ [e]) s' := by
  refine ⟨sound_step hs.sound h, waits_step hs.waits h, ?_, ?_⟩
  · intro c c' hc hc'
    rcases saves_concat.mp hc with hold | ⟨userName, userSurname, url, he⟩
    · rcases saves_concat.mp hc' with hold' | ⟨_, _, _, rfl⟩
      · exact hs.one c c' hold hold'
      · exact absurd hold.mem (hfirst rfl)
    · rcases saves_concat.mp hc' with hold' | ⟨_, _, _, he'⟩
      · rw [he] at hfirst
        exact absurd hold'.mem (hfirst rfl)
      · rw [he] at he'
        exact (Event.saveProfile.inj he').1
  · intro c
    rcases pending_step h c with heq | ⟨w, heq⟩ | ⟨w, heq, hnew⟩
    · rw [heq]
      exact hs.once c
    · have honce := hs.once c
      rw [heq] at honce
      exact honce.of_cons
    · rw [heq, List.pairwise_append]
      refine ⟨hs.once c, List.pairwise_singleton .., ?_⟩
      intro w₀ hw₀ w₁ hw₁ hpath₀ hpath₁
      rw [List.mem_singleton.mp hw₁] at hpath₁
      obtain ⟨userName, userSurname, url, rfl⟩ := hnew.profile hpath₁
      exact hfirst rfl (hs.waits c w₀ hw₀ hpath₀).mem

/-- As long as the write has not been judged, it waits on the device that has made it. -/
theorem Owned.waiting (hs : Owned uId pre s) (hopen : Open uId pre s) {c : ℕ} (hc : Saves uId pre c) :
    ∃ w ∈ s.pending c, w.1 = profileRef uId := by
  rcases hopen with hnone | ⟨c', w, hw, hpath⟩
  · exact absurd hc.mem hnone
  · obtain rfl := hs.one c c' hc (hs.waits c' w hw hpath)
    exact ⟨w, hw, hpath⟩

/-- Once its write is judged, the account is open no more. -/
theorem Owned.judged (hs : Owned uId pre s) {c : ℕ} {w : Path × Value} {ws : List (Path × Value)}
    (hp : s.pending c = w :: ws) (hpath : w.1 = profileRef uId)
    (hpending : s'.pending = Function.update s.pending c ws) : ¬ Open uId (pre ++ [e]) s' := by
  have hc : Saves uId pre c := hs.waits c w (by rw [hp]; exact List.mem_cons_self ..) hpath
  rintro (hnone | ⟨c', w', hw', hpath'⟩)
  · exact hnone (hc.concat e).mem
  · rw [hpending] at hw'
    by_cases hcc : c' = c
    · subst hcc
      rw [Function.update_self] at hw'
      have honce := hs.once c'
      rw [hp] at honce
      exact List.rel_of_pairwise_cons honce hw' hpath hpath'
    · rw [Function.update_of_ne hcc] at hw'
      exact hcc (hs.one c' c (hs.waits c' w' hw' hpath') hc)

/-- The other writes that wait have nothing to do with the account. -/
theorem Owned.foreign (hs : Owned uId pre s) {c : ℕ} {w : Path × Value} (hw : w ∈ s.pending c)
    (hne : w.1 ≠ profileRef uId) : Foreign uId w := by
  cases hs.sound.pending c w hw with
  | profile p _ => exact .profile p.uId _ _ _ (fun heq => hne (congrArg profileRef heq))
  | post key a text _ => exact .post key _

end Owned

/-! ### Who knows of an account -/

/-- The device of a leg has saved the profile of the account, and the leg's callback came later. -/
def Behind (uId : String) (pre : List Event) (s : State) (σ : Send) (side : Side) : Prop :=
  ∃ userName userSurname url, .saveProfile σ.client uId userName userSurname url ∈ pre ∧
    ∀ i, s.chat.phase σ side = .issued i → ∃ key text, .chat (.callback σ side key text) ∈
      after (.saveProfile σ.client uId userName userSurname url) pre

/-- Only the device that registers the account has seen its profile, and chats with it. -/
structure Hidden (uId : String) (pre : List Event) (s : State) : Prop where
  unknown : Unknown uId s.chat.db
  raised : List.Forall₂ (fun c v => Saves uId pre c ∨ Unknown uId v) (raisers pre) s.raised
  current : ∀ c p, s.currentUserProfile c = some p → p.uId = uId → Saves uId pre c
  shown : ∀ c, ∀ p ∈ s.shown c, p.uId = uId → Saves uId pre c
  sends : ∀ σ side, s.chat.phase σ side ≠ .idle → side.owner σ = uId ∨ side.peer σ = uId →
    Behind uId pre s σ side

section Hidden
variable {uId : String} {pre : List Event} {s s' : State} {e : Event} {σ : Send} {side : Side}

theorem Behind.saves (h : Behind uId pre s σ side) : Saves uId pre σ.client := by
  obtain ⟨userName, userSurname, url, hmem, -⟩ := h
  exact ⟨userName, userSurname, url, hmem⟩

/-- A callback after the profile was saved is behind it, and later events change nothing. -/
theorem Behind.concat (h : Behind uId pre s σ side)
    (hphase : ∀ i, s'.chat.phase σ side = .issued i → (∃ j, s.chat.phase σ side = .issued j) ∨
      ∃ key text, e = .chat (.callback σ side key text)) : Behind uId (pre ++ [e]) s' σ side := by
  obtain ⟨userName, userSurname, url, hmem, hcall⟩ := h
  refine ⟨userName, userSurname, url, List.mem_append_left _ hmem, ?_⟩
  intro i hi
  rw [after_append_of_mem [e] hmem]
  rcases hphase i hi with ⟨j, hj⟩ | ⟨key, text, he⟩
  · obtain ⟨key, text, hin⟩ := hcall j hj
    exact ⟨key, text, List.mem_append_left _ hin⟩
  · exact ⟨key, text, List.mem_append_right _ (List.mem_singleton.mpr he.symm)⟩

theorem hidden_init {db : Value} (hdb : Unknown uId db) : Hidden uId [] (init db) where
  unknown := hdb
  raised := List.Forall₂.nil
  current := fun _ _ h => nomatch h
  shown := fun _ _ h => absurd h List.not_mem_nil
  sends := fun _ _ h => absurd rfl h

/-- A leg writes nothing about the account unless it is behind the saving of its profile. -/
theorem Hidden.foreign (hh : Hidden uId pre s) {i : Issued} (hi : s.chat.phase σ side = .issued i)
    (hnot : ¬ Behind uId pre s σ side) (kind : Kind) (v : Value) :
    Foreign uId ((writeOf σ side i kind).path, v) := by
  have hnames : ¬ (side.owner σ = uId ∨ side.peer σ = uId) :=
    fun hnames => hnot (hh.sends σ side (by simp [hi]) hnames)
  rw [not_or] at hnames
  rw [writeOf_path]
  exact .chat _ _ _ _ hnames.1 hnames.2

/-- What a device sees does not show the account, unless the device registers it. -/
theorem Hidden.view (hh : Hidden uId pre s) (hs : Owned uId pre s) {c : ℕ} (hc : ¬ Saves uId pre c)
    (now : Rat) : Unknown uId (s.view c now) := by
  refine Unknown.foldl now ?_ hh.unknown
  intro w hw
  rcases mem_waiting hw with ⟨v, hv, rfl⟩ | hw
  · obtain ⟨rfl, i, hi, hwrite, -⟩ := hs.sound.wf.queued c v hv
    rw [hwrite]
    exact hh.foreign hi (fun hb => hc hb.saves) _ _
  · exact hs.foreign hw (fun hpath => hc (hs.waits c w hw hpath))

theorem raisers_concat (he : ∀ client now, e ≠ .raise client now) :
    raisers (pre ++ [e]) = raisers pre := by
  rw [raisers, List.filterMap_append, List.filterMap_cons_none, List.filterMap_nil, List.append_nil]
  · rfl
  · cases e with
    | raise client now => exact absurd rfl (he client now)
    | saveProfile | savePost | commit | reject | chat | value | signOut => rfl

/-- A step that raises no event and shows nobody the account keeps it hidden, if the database does. -/
theorem Hidden.concat (hh : Hidden uId pre s) (he : ∀ client now, e ≠ .raise client now)
    (hraised : s'.raised = s.raised) (hdb : Unknown uId s'.chat.db)
    (hcurrent : ∀ c p, s'.currentUserProfile c = some p → p.uId = uId → Saves uId pre c)
    (hshown : ∀ c, ∀ p ∈ s'.shown c, p.uId = uId → Saves uId pre c)
    (hsends : ∀ σ side, s'.chat.phase σ side ≠ .idle → side.owner σ = uId ∨ side.peer σ = uId →
      Behind uId (pre ++ [e]) s' σ side) : Hidden uId (pre ++ [e]) s' := by
  refine ⟨hdb, ?_, fun c p hp hu => (hcurrent c p hp hu).concat e,
    fun c p hp hu => (hshown c p hp hu).concat e, hsends⟩
  rw [hraised, raisers_concat he]
  exact hh.raised.imp (fun _ _ hv => hv.imp_left (Saves.concat · e))

/-- The legs are where they were. -/
theorem Hidden.same (hh : Hidden uId pre s) (hphase : s'.chat.phase = s.chat.phase) :
    ∀ σ side, s'.chat.phase σ side ≠ .idle → side.owner σ = uId ∨ side.peer σ = uId →
      Behind uId (pre ++ [e]) s' σ side := by
  intro σ side hσ hnames
  rw [hphase] at hσ
  refine (hh.sends σ side hσ hnames).concat ?_
  intro i hi
  rw [hphase] at hi
  exact Or.inl ⟨i, hi⟩

/-- A chat event keeps the account hidden while the write of its profile waits: what involves the
    account comes from the device of that write, and waits behind it. -/
theorem hidden_chat {e : Chat.Event} (hs : Owned uId pre s) (hh : Hidden uId pre s)
    (hopen : Open uId pre s) (hturn : InTurn pre s (.chat e)) (h : step s (.chat e) = some s') :
    Hidden uId (pre ++ [.chat e]) s' := by
  obtain ⟨chat, hc, hs'⟩ := Option.bind_eq_some_iff.mp h
  split_ifs at hs' with hallowed
  cases hs'
  refine hh.concat (by simp) rfl ?_ hh.current hh.shown ?_
  · rcases db_step hs.sound.wf hc with ⟨hdb, -⟩ | ⟨σ, side, kind, now, i, rfl, hp, -, -, hdb⟩
    · rw [hdb]
      exact hh.unknown
    · simp only [hdb]
      refine hh.unknown.store (hh.foreign hp ?_ kind _) now
      intro hb
      obtain ⟨w, hw, hpath⟩ := hs.waiting hopen hb.saves
      obtain ⟨userName, userSurname, url, -, hcall⟩ := hb
      obtain ⟨key, text, hin⟩ := hcall i hp
      exact hturn uId userName userSurname url key text hin w hw hpath
  · intro σ side hσ hnames
    rcases phase_step hc σ side with ⟨-, heq⟩ | hadv
    · refine (hh.sends σ side (by rwa [← heq]) hnames).concat ?_
      intro i hi
      exact Or.inl ⟨i, heq ▸ hi⟩
    · generalize hph : s.chat.phase σ side = ph at hadv
      generalize hph' : chat.phase σ side = ph' at hadv
      have hold : ph ≠ .idle → Behind uId pre s σ side :=
        fun hne => hh.sends σ side (by rwa [hph]) hnames
      cases hadv with
      | tap =>
        -- the device of a tap holds the profiles of both users
        have hsaves : Saves uId pre σ.client := by
          cases side with
          | receiver =>
            rcases hnames with huser | hcur
            · exact hh.shown σ.client σ.user hallowed.2 huser
            · exact hh.current σ.client σ.curentUser hallowed.1 hcur
          | sender =>
            rcases hnames with hcur | huser
            · exact hh.current σ.client σ.curentUser hallowed.1 hcur
            · exact hh.shown σ.client σ.user hallowed.2 huser
        obtain ⟨userName, userSurname, url, hmem⟩ := hsaves
        refine ⟨userName, userSurname, url, List.mem_append_left _ hmem, ?_⟩
        intro i hi
        rw [hph'] at hi
        cases hi
      | snapshot =>
        refine (hold (by simp)).concat ?_
        intro i hi
        rw [hph'] at hi
        cases hi
      | callback snapshot key text => exact (hold (by simp)).concat (fun _ _ => Or.inr ⟨key, text, rfl⟩)
      | store i kind now | reject i kind | complete i _ =>
        exact (hold (by simp)).concat (fun _ _ => Or.inl ⟨i, hph⟩)

/-- A value event shows the account to nobody but its own device. -/
theorem hidden_value {client n : ℕ} {reader : Reader} (hh : Hidden uId pre s)
    (hown : OwnView pre (.value client reader n)) (h : step s (.value client reader n) = some s') :
    Hidden uId (pre ++ [.value client reader n]) s' := by
  obtain ⟨view, hn, hs'⟩ := Option.bind_eq_some_iff.mp h
  cases hs'
  -- the event carries a view of its own device
  have hview : Saves uId pre client ∨ Unknown uId view := by
    obtain ⟨hlt, hget⟩ := List.getElem?_eq_some_iff.mp hown
    obtain ⟨hlt', hget'⟩ := List.getElem?_eq_some_iff.mp hn
    have hrel := (List.forall₂_iff_get.mp hh.raised).2 n hlt hlt'
    rw [List.get_eq_getElem, List.get_eq_getElem, hget, hget'] at hrel
    exact hrel
  have hread : reader.keeps = true → ∀ p ∈ (reader.read view).people, p.uId = uId →
      Saves uId pre client := by
    intro hkeeps p hp hu
    exact hview.resolve_right (fun hv => hv.read hkeeps hp hu)
  have hshown : reader.keeps = true → ∀ c,
      ∀ p ∈ Function.update s.shown client (s.shown client ++ (reader.read view).people) c,
        p.uId = uId → Saves uId pre c := by
    intro hkeeps
    refine (Function.forall_update_iff s.shown
      (fun c ps => ∀ p ∈ ps, p.uId = uId → Saves uId pre c)).mpr ⟨?_, fun c _ => hh.shown c⟩
    intro p hp
    rcases List.mem_append.mp hp with hp | hp
    · exact hh.shown client p hp
    · exact hread hkeeps p hp
  cases reader with
  | userProfile u =>
    refine hh.concat (by simp) rfl hh.unknown ?_ hh.shown (hh.same rfl)
    exact (Function.forall_update_iff s.currentUserProfile
      (fun c q => ∀ p, q = some p → p.uId = uId → Saves uId pre c)).mpr
      ⟨fun p hp => hread rfl p (List.mem_of_mem_head? hp), fun c _ => hh.current c⟩
  | persons | partners owner =>
    exact hh.concat (by simp) rfl hh.unknown hh.current (hshown rfl) (hh.same rfl)
  | autors owner peer | posts =>
    exact hh.concat (by simp) rfl hh.unknown hh.current hh.shown (hh.same rfl)

/-- The account stays hidden until the write of its profile is judged. -/
theorem hidden_step (hs : Owned uId pre s) (hh : Hidden uId pre s) (hfirst : First uId pre e)
    (hopen : Open uId (pre ++ [e]) s') (hown : OwnView pre e) (hturn : InTurn pre s e)
    (h : step s e = some s') : Hidden uId (pre ++ [e]) s' := by
  have hopen₀ := open_step hfirst h hopen
  cases e with
  | chat e => exact hidden_chat hs hh hopen₀ hturn h
  | value client reader n => exact hidden_value hh hown h
  | saveProfile client u userName userSurname url =>
    cases h
    exact hh.concat (by simp) rfl hh.unknown hh.current hh.shown (hh.same rfl)
  | savePost client key text =>
    simp only [step] at h
    split at h <;> (cases h; exact hh.concat (by simp) rfl hh.unknown hh.current hh.shown (hh.same rfl))
  | commit client now =>
    simp only [step] at h
    split at h
    · cases h
    · next w ws hp =>
      cases h
      have hne : w.1 ≠ profileRef uId := by
        intro hpath
        exact hs.judged hp hpath (by rfl) hopen
      have hforeign := hs.foreign (by rw [hp]; exact List.mem_cons_self ..) hne
      exact hh.concat (by simp) rfl (hh.unknown.store hforeign now) hh.current hh.shown (hh.same rfl)
  | reject client =>
    simp only [step] at h
    split at h
    · cases h
    · cases h
      exact hh.concat (by simp) rfl hh.unknown hh.current hh.shown (hh.same rfl)
  | signOut client =>
    cases h
    refine hh.concat (by simp) rfl hh.unknown ?_ hh.shown (hh.same rfl)
    exact (Function.forall_update_iff s.currentUserProfile
      (fun c q => ∀ p, q = some p → p.uId = uId → Saves uId pre c)).mpr
      ⟨by simp, fun c _ => hh.current c⟩
  | raise client now =>
    cases h
    refine ⟨hh.unknown, ?_, fun c p hp hu => (hh.current c p hp hu).concat _,
      fun c p hp hu => (hh.shown c p hp hu).concat _, hh.same rfl⟩
    have hraisers : raisers (pre ++ [.raise client now]) = raisers pre ++ [client] := by
      rw [raisers, List.filterMap_append]
      rfl
    rw [hraisers]
    have hview : Saves uId (pre ++ [.raise client now]) client ∨ Unknown uId (s.view client now) := by
      by_cases hc : Saves uId pre client
      · exact Or.inl (hc.concat _)
      · exact Or.inr (hh.view hs hc now)
    exact List.rel_append (hh.raised.imp (fun _ _ hv => hv.imp_left (Saves.concat · _)))
      (.cons hview .nil)

end Hidden

end PostApp.Copies
