import Mathlib.Data.List.Forall2
import PostApp.Chat.Interference
import PostApp.Profiles.Copies
import PostApp.Profiles.PersonList

/-! Chats leave the rest of the app alone.

    Chats are kept below the profiles of their owners, so a chat write is a write into the node that
    `AllPersonVC` lists and the profile listeners watch. It changes nothing there that they decode: the
    run without the chats is a run, and its feed, its list of people and its profiles are the same
    (`chats_go_unnoticed`). So the people listed are those whose profile the server has stored, with the
    profile that it stored last for each uid, whatever has been posted and sent since (`registered_iff`). -/

namespace PostApp.Copies
open Schemes Chat
variable [URLSyntax]

/-! ### One step -/

section Step
variable {s s' : State} {e : Event}

/-- The write that an event makes on a device: of a profile, or of a post. -/
def Made (e : Event) (c : ℕ) (w : Path × Value) : Prop :=
  (∃ u userName userSurname url, e = .saveProfile c u userName userSurname url ∧
    w = (profileRef u, userObject userName userSurname url)) ∨
  ∃ key a text, w = (postsRef ++ [key], postObject a text)

/-- A step leaves the writes of a device alone, or judges the first, or makes one. -/
theorem pending_step (h : step s e = some s') (c : ℕ) :
    s'.pending c = s.pending c ∨ (∃ w, s.pending c = w :: s'.pending c) ∨
    ∃ w, s'.pending c = s.pending c ++ [w] ∧ Made e c w := by
  cases e with
  | saveProfile client u userName userSurname url =>
    cases h
    by_cases hc : c = client
    · subst hc
      exact Or.inr (Or.inr ⟨_, Function.update_self ..,
        Or.inl ⟨u, userName, userSurname, url, rfl, rfl⟩⟩)
    · exact Or.inl (Function.update_of_ne hc ..)
  | savePost client key text =>
    simp only [step, PostApp.savePost] at h
    cases hp : s.currentUserProfile client with
    | none =>
      rw [hp] at h
      cases h
      exact Or.inl rfl
    | some a =>
      rw [hp] at h
      cases h
      by_cases hc : c = client
      · subst hc
        exact Or.inr (Or.inr ⟨_, Function.update_self .., Or.inr ⟨key, a, text, rfl⟩⟩)
      · exact Or.inl (Function.update_of_ne hc ..)
  | commit client now | reject client =>
    simp only [step] at h
    split at h
    · cases h
    · next w ws hp =>
      cases h
      by_cases hc : c = client
      · subst hc
        exact Or.inr (Or.inl ⟨w, by simp only [State.judge, Function.update_self, hp]⟩)
      · exact Or.inl (Function.update_of_ne hc ..)
  | chat e =>
    obtain ⟨chat, -, hs'⟩ := Option.bind_eq_some_iff.mp h
    split_ifs at hs' with hallowed
    cases hs'
    exact Or.inl rfl
  | raise client now | signOut client =>
    cases h
    exact Or.inl rfl
  | value client reader n =>
    obtain ⟨view, -, hs'⟩ := Option.bind_eq_some_iff.mp h
    cases hs'
    cases reader <;> exact Or.inl rfl

/-- A step is one of the chats, or stores the first write of a device, or leaves the database alone. -/
theorem chat_step (h : step s e = some s') :
    (∃ c, e = .chat c ∧ Chat.step s.chat c = some s'.chat) ∨
    ((∀ c, e ≠ .chat c) ∧ ∃ db, s'.chat = { s.chat with db := db } ∧ (db = s.chat.db ∨
      ∃ client now w ws, e = .commit client now ∧ s.pending client = w :: ws ∧
        db = store now s.chat.db w)) := by
  cases e with
  | chat c =>
    obtain ⟨chat, hc, hs'⟩ := Option.bind_eq_some_iff.mp h
    split_ifs at hs' with hallowed
    cases hs'
    exact Or.inl ⟨c, rfl, hc⟩
  | saveProfile client u userName userSurname url =>
    cases h
    exact Or.inr ⟨by simp, _, rfl, Or.inl rfl⟩
  | savePost client key text =>
    simp only [step] at h
    split at h <;> (cases h; exact Or.inr ⟨by simp, _, rfl, Or.inl rfl⟩)
  | commit client now =>
    simp only [step] at h
    split at h
    · cases h
    · next w ws hp =>
      cases h
      exact Or.inr ⟨by simp, _, rfl, Or.inr ⟨client, now, w, ws, rfl, hp, rfl⟩⟩
  | reject client =>
    simp only [step] at h
    split at h
    · cases h
    · cases h
      exact Or.inr ⟨by simp, _, rfl, Or.inl rfl⟩
  | raise client now | signOut client =>
    cases h
    exact Or.inr ⟨by simp, _, rfl, Or.inl rfl⟩
  | value client reader n =>
    obtain ⟨view, -, hs'⟩ := Option.bind_eq_some_iff.mp h
    cases hs'
    cases reader <;> exact Or.inr ⟨by simp, _, rfl, Or.inl rfl⟩

end Step

/-! ### What is written outside chats -/

/-- The chats are well formed, and the rest waits to write profiles and posts. -/
structure Sound (s : State) : Prop where
  wf : Wf s.chat
  pending : ∀ c, ∀ w ∈ s.pending c, Record (fun _ => True) w

section Sound
variable {s s' : State} {e : Event} {w : Path × Value}

theorem sound_init (db : Value) : Sound (init db) := ⟨wf_init db, fun _ _ h => absurd h List.not_mem_nil⟩

theorem Made.record {c : ℕ} (hw : Made e c w) : Record (fun _ => True) w := by
  rcases hw with ⟨u, userName, userSurname, url, -, rfl⟩ | ⟨key, a, text, rfl⟩
  · exact .profile ⟨u, userName, userSurname, url⟩ trivial
  · exact .post key a text trivial

theorem sound_step (hs : Sound s) (h : step s e = some s') : Sound s' := by
  refine ⟨?_, ?_⟩
  · rcases chat_step h with ⟨c, -, hc⟩ | ⟨-, db, hchat, rfl | ⟨client, now, w, ws, -, hp, rfl⟩⟩
    · exact wf_step hs.wf hc
    · rw [hchat]
      exact hs.wf
    · have hr := hs.pending client w (by rw [hp]; exact List.mem_cons_self ..)
      rw [hchat]
      exact wf_db hs.wf (fun x y k => record_stores_no_message hr x y k)
  · intro c w hw
    rcases pending_step h c with heq | ⟨w₀, heq⟩ | ⟨w₁, heq, hmade⟩
    · exact hs.pending c w (heq ▸ hw)
    · exact hs.pending c w (heq ▸ List.mem_cons_of_mem _ hw)
    · rw [heq] at hw
      rcases List.mem_append.mp hw with hw | hw
      · exact hs.pending c w hw
      · rw [List.mem_singleton.mp hw]
        exact hmade.record

end Sound

/-! ### Views that differ in chats only -/

structure SameOutside (v v' : Value) : Prop where
  profiles : ∀ uId field, field ≠ "chat" →
    v.get (profileRef uId ++ [field]) = v'.get (profileRef uId ++ [field])
  posts : v.get postsRef = v'.get postsRef

/-- The readers that do not look into chats. -/
def Reader.Outside : Reader → Prop
  | .userProfile _ | .persons | .posts => True
  | .partners _ | .autors _ _ => False

section Views
variable {v v' : Value}

omit [URLSyntax] in
theorem SameOutside.rfl : SameOutside v v := ⟨fun _ _ _ => Eq.refl _, Eq.refl _⟩

omit [URLSyntax] in
theorem SameOutside.trans {v'' : Value} (h : SameOutside v v') (h' : SameOutside v' v'') :
    SameOutside v v'' :=
  ⟨fun uId field hf => (h.profiles uId field hf).trans (h'.profiles uId field hf),
    h.posts.trans h'.posts⟩

omit [URLSyntax] in
/-- The same write keeps two such views alike. -/
theorem SameOutside.store (h : SameOutside v v') (now : Rat) (w : Path × Value) :
    SameOutside (store now v w) (store now v' w) :=
  ⟨fun uId field hf => Node.get_set_congr _ _ _ (h.profiles uId field hf),
    Node.get_set_congr _ _ _ h.posts⟩

omit [URLSyntax] in
/-- A write below a conversation is not seen outside chats. -/
theorem sameOutside_set (o p : String) (q : Path) (x db : Value) :
    SameOutside (db.set (conversationRef o p ++ q) x) db := by
  refine ⟨?_, ?_⟩
  · intro uId field hf
    have hap := apart_append (apart_profile_field (o := o) (p := p) (u := uId) hf) q []
    rw [List.append_nil] at hap
    exact Node.get_set_apart hap _ _
  · have hap := apart_append (apart_posts o p []) q []
    simp only [List.append_nil] at hap
    exact Node.get_set_apart hap _ _

theorem SameOutside.decodeProfile (h : SameOutside v v') (uId : String) :
    decodeProfile uId (v.get (profileRef uId)) = decodeProfile uId (v'.get (profileRef uId)) := by
  refine decodeProfile_congr ?_
  intro field hf
  have hfield := h.profiles uId field hf
  rw [Node.get_append, Node.get_append] at hfield
  exact hfield

theorem SameOutside.observeUserProfile (h : SameOutside v v') (uId : String) :
    observeUserProfile uId (snapshotAt (profileRef uId) v) =
      observeUserProfile uId (snapshotAt (profileRef uId) v') := by
  refine Option.ext ?_
  intro p
  rw [observeUserProfile_iff, observeUserProfile_iff, snapshotAt, snapshotAt, h.decodeProfile]

/-- A person is listed exactly if the profile of the uid decodes. -/
theorem mem_persons {p : UserProfile} : p ∈ observePersons (snapshotAt ["users", "profile"] v) ↔
    decodeProfile p.uId (v.get (profileRef p.uId)) = some p := by
  rw [observePersons, mem_collect]
  simp only [personOf_eq, observeUserProfile_iff, key_concat]
  constructor
  · rintro ⟨uId, -, hp⟩
    rw [(decodeProfile_fields.mp hp).1]
    exact hp
  · intro hp
    exact ⟨p.uId, Node.ne_null_of_child (ne_null_of_asString (decodeProfile_fields.mp hp).2.1), hp⟩

theorem SameOutside.observePersons (h : SameOutside v v') :
    observePersons (snapshotAt ["users", "profile"] v) =
      observePersons (snapshotAt ["users", "profile"] v') := by
  have hsorted := fun v : Value => List.pairwise_map.mp
    (PersonList.observeUsers_sorted .allPersonVC (snapshotAt ["users", "profile"] v))
  have hnodup : ∀ v : Value, (PostApp.observePersons (snapshotAt ["users", "profile"] v)).Nodup :=
    fun v => (hsorted v).imp (fun hlt heq => absurd hlt (by rw [heq]; exact lt_irrefl _))
  refine List.Perm.eq_of_pairwise ?_ (hsorted v) (hsorted v')
    ((List.perm_ext_iff_of_nodup (hnodup v) (hnodup v')).mpr ?_)
  · intro p p' _ _ hlt hgt
    exact absurd hlt (lt_asymm hgt)
  · intro p
    rw [mem_persons, mem_persons, h.decodeProfile]

/-- The readers outside chats cannot tell the two views apart. -/
theorem SameOutside.read (h : SameOutside v v') (reader : Reader) (hr : reader.Outside) :
    reader.read v = reader.read v' := by
  cases reader with
  | userProfile uId => exact congrArg (fun p => Reading.profiles p.toList) (h.observeUserProfile uId)
  | persons => exact congrArg Reading.profiles h.observePersons
  | posts =>
    have hposts : snapshotAt postsRef v = snapshotAt postsRef v' := by rw [snapshotAt, snapshotAt, h.posts]
    simp only [Reader.read, hposts]
  | partners | autors => exact hr.elim

end Views

/-! ### Two runs -/

def Event.isChat : Event → Bool
  | .chat _ => true
  | _ => false

/-- `t` is `s` without its chats. -/
structure Without (s t : State) : Prop where
  sound : Sound s
  db : SameOutside s.chat.db t.chat.db
  queue : ∀ c, t.chat.queue c = []
  pending : t.pending = s.pending
  raised : List.Forall₂ SameOutside s.raised t.raised
  current : t.currentUserProfile = s.currentUserProfile

section Runs
variable {s t s' : State} {e : Event}

omit [URLSyntax] in
/-- In whatever order they were issued, the writes of the chats are not seen outside them. -/
theorem sameOutside_merge {chats : List (Path × Value)} (now : Rat) (order : List Lane)
    (records : List (Path × Value)) {v v' : Value}
    (hchats : ∀ w ∈ chats, ∃ o p q, w.1 = conversationRef o p ++ q) (h : SameOutside v v') :
    SameOutside ((merge order chats records).foldl (store now) v) (records.foldl (store now) v') := by
  have hchat : ∀ {w : Path × Value} {v v' : Value}, (∃ o p q, w.1 = conversationRef o p ++ q) →
      SameOutside v v' → SameOutside (store now v w) v' := by
    rintro w v v' ⟨o, p, q, hw⟩ h
    rw [store, hw]
    exact (sameOutside_set o p q _ v).trans h
  fun_induction merge order chats records generalizing v v' with
  | case1 order w chats records ih =>
    exact ih (fun w' hw' => hchats w' (List.mem_cons_of_mem _ hw'))
      (hchat (hchats w (List.mem_cons_self ..)) h)
  | case2 order chats w records ih => exact ih hchats (h.store now w)
  | case3 lane order chats records _ _ ih => exact ih hchats h
  | case4 chats records =>
    rw [List.foldl_append]
    induction chats generalizing v with
    | nil =>
      induction records generalizing v v' with
      | nil => exact h
      | cons w records ih => exact ih (h.store now w)
    | cons w chats ih =>
      exact ih (fun w' hw' => hchats w' (List.mem_cons_of_mem _ hw'))
        (hchat (hchats w (List.mem_cons_self ..)) h)

omit [URLSyntax] in
theorem merge_nil (order : List Lane) (records : List (Path × Value)) :
    merge order [] records = records := by
  generalize hchats : ([] : List (Path × Value)) = chats
  fun_induction merge order chats records with
  | case1 => cases hchats
  | case2 order chats w records ih => rw [ih hchats]
  | case3 lane order chats records _ _ ih => exact ih hchats
  | case4 chats records => rw [← hchats, List.nil_append]

theorem Without.view (h : Without s t) (client : ℕ) (now : Rat) :
    SameOutside (s.view client now) (t.view client now) := by
  have hpath : ∀ w ∈ (s.chat.queue client).map (fun w => (w.path, w.value)),
      ∃ o p q, w.1 = conversationRef o p ++ q := by
    intro w hw
    obtain ⟨v, hv, rfl⟩ := List.mem_map.mp hw
    obtain ⟨-, i, -, hwrite, -⟩ := h.sound.wf.queued client v hv
    rw [hwrite]
    exact ⟨_, _, _, writeOf_path ..⟩
  rw [State.view, State.view, State.waiting, State.waiting, h.queue client, List.map_nil, merge_nil,
    h.pending]
  exact sameOutside_merge now _ _ hpath h.db

theorem Without.raised_get (h : Without s t) {n : ℕ} {view : Value} (hn : s.raised[n]? = some view) :
    ∃ view', t.raised[n]? = some view' ∧ SameOutside view view' := by
  obtain ⟨hlen, hget⟩ := List.forall₂_iff_get.mp h.raised
  obtain ⟨hlt, rfl⟩ := List.getElem?_eq_some_iff.mp hn
  have hlt' : n < t.raised.length := by omega
  exact ⟨t.raised[n], List.getElem?_eq_getElem hlt', hget n hlt hlt'⟩

/-- A chat event goes unnoticed. -/
theorem Without.drop (h : Without s t) (he : e.isChat = true) (hs : step s e = some s') :
    Without s' t := by
  have hsound := sound_step h.sound hs
  cases e with
  | chat e =>
    obtain ⟨chat, hc, hs'⟩ := Option.bind_eq_some_iff.mp hs
    split_ifs at hs' with hallowed
    cases hs'
    have hframe := frame_step h.sound.wf hc
    have hdb : SameOutside chat.db s.chat.db := ⟨hframe.profiles, hframe.posts⟩
    exact ⟨hsound, hdb.trans h.db, h.queue, h.pending, h.raised, h.current⟩
  | saveProfile | savePost | commit | reject | raise | value | signOut => cases he

/-- Any other event has its counterpart. -/
theorem Without.keep (h : Without s t) (he : e.isChat = false) (hs : step s e = some s') :
    ∃ t', step t e = some t' ∧ Without s' t' := by
  have hsound := sound_step h.sound hs
  cases e with
  | chat e => cases he
  | saveProfile client uId userName userSurname url =>
    cases hs
    refine ⟨_, rfl, hsound, h.db, h.queue, ?_, h.raised, h.current⟩
    simp only [State.push, h.pending]
  | savePost client key text =>
    simp only [step] at hs ⊢
    rw [h.current]
    split at hs
    · cases hs
      exact ⟨t, rfl, h⟩
    · cases hs
      refine ⟨_, rfl, hsound, h.db, h.queue, ?_, h.raised, h.current⟩
      simp only [State.push, h.pending]
  | commit client now =>
    simp only [step] at hs ⊢
    rw [h.pending]
    split at hs
    · cases hs
    · next w ws hp =>
      cases hs
      refine ⟨_, rfl, hsound, h.db.store now w, h.queue, ?_, h.raised, h.current⟩
      simp only [State.judge, h.pending]
  | reject client =>
    simp only [step] at hs ⊢
    rw [h.pending]
    split at hs
    · cases hs
    · cases hs
      refine ⟨_, rfl, hsound, h.db, h.queue, ?_, h.raised, h.current⟩
      simp only [State.judge, h.pending]
  | raise client now =>
    cases hs
    refine ⟨_, rfl, hsound, h.db, h.queue, h.pending, ?_, h.current⟩
    exact List.rel_append h.raised (.cons (h.view client now) .nil)
  | value client reader n =>
    obtain ⟨view, hn, hs'⟩ := Option.bind_eq_some_iff.mp hs
    cases hs'
    obtain ⟨view', hn', hview⟩ := h.raised_get hn
    refine ⟨t.yield client (reader.read view').people reader, by simp only [step, hn']; rfl, ?_⟩
    cases reader with
    | userProfile uId =>
      refine ⟨hsound, h.db, h.queue, h.pending, h.raised, ?_⟩
      simp only [State.yield, h.current, hview.read (.userProfile uId) trivial]
    | persons | partners | autors | posts =>
      exact ⟨hsound, h.db, h.queue, h.pending, h.raised, h.current⟩
  | signOut client =>
    cases hs
    exact ⟨_, rfl, hsound, h.db, h.queue, h.pending, h.raised, by rw [h.current]⟩

end Runs

/-- The people listed in the database. -/
def persons (db : Value) : List UserProfile := observePersons (snapshotAt ["users", "profile"] db)

/-- The profile that a write stores; a post stores none. -/
def profileOf (w : Path × Value) : Option UserProfile := do
  let uId ← w.1.getLast?
  if w.1 = profileRef uId then decodeProfile uId w.2 else none

/-- The profile that the server stores with the event. -/
def registers (s : State) : Event → Option UserProfile
  | .commit client _ => (s.pending client).head?.bind profileOf
  | _ => none

/-- The profiles that the server stores along the run, in order. -/
def registrations (s : State) : List Event → List UserProfile
  | [] => []
  | e :: es => (registers s e).toList ++
    match step s e with
    | some s' => registrations s' es
    | none => []

/-- The one that was stored last for the uid. -/
def latest (ps : List UserProfile) (uId : String) : Option UserProfile :=
  (ps.filter (fun p => p.uId = uId)).getLast?

section Registered
variable {s s' : State} {e : Event} {p q : UserProfile}

theorem registrations_concat : ∀ {es : List Event} {s s' : State}, run step s es = some s' →
    registrations s (es ++ [e]) = registrations s es ++ (registers s' e).toList
  | [], s, s', hr => by
    cases hr
    simp only [List.nil_append, registrations]
    cases step s e <;> rw [List.append_nil]
  | e' :: es, s, s', hr => by
    obtain ⟨m, hm, hr⟩ := Option.bind_eq_some_iff.mp hr
    simp only [List.cons_append, registrations, hm, registrations_concat hr, List.append_assoc]

theorem latest_concat (ps : List UserProfile) (q : UserProfile) (uId : String) :
    latest (ps ++ [q]) uId = if q.uId = uId then some q else latest ps uId := by
  rw [latest, latest, List.filter_append, List.filter_singleton]
  split_ifs <;> simp_all

theorem profileOf_profile (p : UserProfile) :
    profileOf (profileRef p.uId, userObject p.name p.surname p.photoURL) = some p := by
  simp [profileOf, profileRef]

theorem profileOf_post (key : String) (v : Value) : profileOf (postsRef ++ [key], v) = none := by
  simp [profileOf, postsRef, profileRef]

/-- Storing a profile lists it in place of the one before. -/
theorem mem_persons_profile (now : Rat) (v : Value) : p ∈ persons (store now v
    (profileRef q.uId, userObject q.name q.surname q.photoURL)) ↔
      q = p ∨ (p ∈ persons v ∧ q.uId ≠ p.uId) := by
  rw [persons, persons, mem_persons, mem_persons, store]
  by_cases huid : q.uId = p.uId
  · rw [← huid, Node.get_set_self, decodeProfile_resolve, decodeProfile_userObject, Option.some.injEq]
    exact ⟨Or.inl, fun h => h.resolve_right fun hold => hold.2 rfl⟩
  · have hap := apart_profile huid [] []
    rw [List.append_nil, List.append_nil] at hap
    rw [Node.get_set_apart hap]
    constructor
    · exact fun hp => Or.inr ⟨hp, huid⟩
    · rintro (rfl | ⟨hp, -⟩)
      · exact absurd rfl huid
      · exact hp

theorem mem_persons_post (now : Rat) (v : Value) (key : String) (x : Value) :
    p ∈ persons (store now v (postsRef ++ [key], x)) ↔ p ∈ persons v := by
  have hap := (apart_profile_posts p.uId [] [key]).symm
  rw [List.append_nil] at hap
  rw [persons, persons, mem_persons, mem_persons, store, Node.get_set_apart hap]

/-- A step lists whom it registers, in place of who was listed under the uid, and nobody else. -/
theorem persons_step (hs : Sound s) (h : step s e = some s') : p ∈ persons s'.chat.db ↔
    registers s e = some p ∨ (p ∈ persons s.chat.db ∧ ∀ q, registers s e = some q → q.uId ≠ p.uId) := by
  cases e with
  | commit client now =>
    simp only [step] at h
    split at h
    · cases h
    · next w ws hp =>
      cases h
      have hr := hs.pending client w (by rw [hp]; exact List.mem_cons_self ..)
      simp only [registers, hp, List.head?_cons, Option.bind_some]
      cases hr with
      | profile q _ => simp [mem_persons_profile, profileOf_profile]
      | post key a text _ => simp [mem_persons_post, profileOf_post]
  | chat c =>
    obtain ⟨chat, hc, hs'⟩ := Option.bind_eq_some_iff.mp h
    split_ifs at hs' with hallowed
    cases hs'
    have hframe := frame_step hs.wf hc
    have hsame : SameOutside chat.db s.chat.db := ⟨hframe.profiles, hframe.posts⟩
    simp [registers, persons, hsame.observePersons]
  | saveProfile | savePost | reject | raise | value | signOut =>
    rcases chat_step h with ⟨c, hc, -⟩ | ⟨-, db, hchat, rfl | ⟨client, now, w, ws, hc, -⟩⟩
    · cases hc
    · simp [registers, hchat]
    · cases hc

end Registered

/-- In every run, the people listed in the database, one for each uid and in the order of the uids, are
    the profiles that the server has stored last under their uids, and from before the run those under
    whose uid it has stored none since. -/
theorem registered_iff (db : Value) (es : List Event) (s : State)
    (hr : run step (init db) es = some s) :
    ((persons s.chat.db).map UserProfile.uId).Pairwise (· < ·) ∧
      ∀ p, p ∈ persons s.chat.db ↔ latest (registrations (init db) es) p.uId = some p ∨
        (latest (registrations (init db) es) p.uId = none ∧ p ∈ persons db) := by
  refine ⟨PersonList.observeUsers_sorted .allPersonVC _, ?_⟩
  have hrun := run_history (I := fun es s => run step (init db) es = some s ∧ Sound s ∧
    ∀ p, p ∈ persons s.chat.db ↔ latest (registrations (init db) es) p.uId = some p ∨
      (latest (registrations (init db) es) p.uId = none ∧ p ∈ persons db))
    ⟨rfl, sound_init db, fun p => by simp [registrations, latest, init, Chat.init]⟩ ?_ hr
  · exact hrun.2.2
  · rintro pre s e s' ⟨hpre, hs, hlists⟩ h
    refine ⟨run_concat.mpr ⟨s, hpre, h⟩, sound_step hs h, ?_⟩
    intro p
    rw [persons_step hs h, hlists p, registrations_concat hpre]
    cases hreg : registers s e with
    | none => simp
    | some q =>
      rw [Option.toList_some, latest_concat]
      by_cases huid : q.uId = p.uId
      · simp [huid]
      · have hne : q ≠ p := fun heq => huid (congrArg UserProfile.uId heq)
        simp [huid, hne]

omit [URLSyntax] in
/-- Two devices save profiles for Bob's uid; the one that the server stores last is listed, with a chat
    below it. -/
theorem registered_iff_two : ∃ (_ : URLSyntax) (es : List Event) (s : State),
    run step (init .null) es = some s ∧ (persons s.chat.db).map UserProfile.name = ["Ann", "Bob"] ∧
      (registrations (init .null) es).map UserProfile.name = ["Rob", "Ann", "Bob"] ∧
      ∀ p ∈ persons s.chat.db, latest (registrations (init .null) es) p.uId = some p := by
  let _ := nonEmptyURLs
  let σ : Send := ⟨0, 0, 0, ann, bob⟩
  let es : List Event := [.saveProfile 0 "A" "Ann" "Lee" ann.photoURL,
    .saveProfile 1 "B" "Bob" "Ray" bob.photoURL, .saveProfile 2 "B" "Rob" "Ray" bob.photoURL,
    .commit 2 1, .commit 0 2, .commit 1 3, .raise 0 4, .value 0 (.userProfile "A") 0,
    .value 0 .persons 0, .chat (.tap σ), .chat (.snapshot σ .receiver),
    .chat (.callback σ .receiver "-L1" "hi"), .chat (.store σ .receiver .header 5)]
  obtain ⟨s, hs, hp⟩ := exists_of_run_any step (init .null) es
    (fun s => (persons s.chat.db).map UserProfile.name = ["Ann", "Bob"]) (by decide)
  refine ⟨nonEmptyURLs, es, s, hs, decide_eq_true_iff.mp hp, by decide, ?_⟩
  intro p hmem
  rcases ((registered_iff .null es s hs).2 p).mp hmem with hreg | ⟨-, hold⟩
  · exact hreg
  · rw [persons, mem_persons, Node.get_null, decodeProfile_null] at hold
    cases hold

end PostApp.Copies
