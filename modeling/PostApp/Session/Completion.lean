import PostApp.Profiles.Copies
import PostApp.Session.Atomic

/-! Which accounts have a profile.

    Any number of registrations run on a device, with sign-ins and sign-outs between their steps. As long
    as every step finds nobody else signed in, an account has a profile exactly when the last step of its
    registration has stored it, and the profile is what was typed and uploaded for that registration
    (`profile_iff_completed`). No other step writes one: an account whose registration has ended without
    a profile never gets it (`orphan_stays`). -/

namespace PostApp.SignUp
open Schemes
variable [URLSyntax]

/-- Registration `n` ran to its end for the account of this profile, with what was typed and uploaded
    for it. -/
structure Completed (es : List Event) (n : ℕ) (p : UserProfile) : Prop where
  typed : ∃ form r, .registrate n form ∈ es ∧ registrate form = some r ∧ r.userName = p.name ∧
    r.userSurname = p.surname
  created : .createUser n (some p.uId) ∈ es
  uploaded : .putDataCallback n (some p.photoURL) ∈ es
  saved : .setValueCallback n true ∈ es

/-- What other screens and devices write is apart from the account's node or in its chats. -/
def Elsewhere (uId : String) : Event → Prop
  | .change path _ => Apart path (profileRef uId) ∨ ∃ q, path = chatRef uId ++ q
  | _ => True

/-- The registration that an event is a step of. -/
def Event.about : Event → Option ℕ
  | .registrate n _ | .createUser n _ | .createUserCallback n | .putDataCallback n _
  | .commitCallback n _ | .setValueCallback n _ => some n
  | .signIn _ | .signOut | .change _ _ => none

/-- What registration `n` has captured and created, and that nothing is stored for it yet. -/
structure Underway (es : List Event) (n : ℕ) (r : Registration) (uId : Option String) : Prop where
  typed : ∃ form, .registrate n form ∈ es ∧ registrate form = some r
  created : ∀ u, .createUser n (some u) ∈ es ↔ uId = some u
  unsaved : .setValueCallback n true ∉ es

/-- What the events so far say about a registration in this phase. -/
def Traced (es : List Event) (n : ℕ) : Phase → Prop
  | .idle => (∀ u, .createUser n (some u) ∉ es) ∧ .setValueCallback n true ∉ es
  | .creating r => Underway es n r none
  | .created r uId => Underway es n r (some uId)
  | .waiting a => Underway es n a.registration (some a.uId) ∧
    ∀ url, a.url = some url → .putDataCallback n (some url) ∈ es
  | .ended => True

/-! ### Phases -/

section Phases
variable {es : List Event} {s s' : State} {e : Event} {n : ℕ} {r : Registration} {uId : Option String}

theorem Underway.concat (h : Underway es n r uId) (hcreate : ∀ u, e ≠ .createUser n (some u))
    (hsave : e ≠ .setValueCallback n true) : Underway (es ++ [e]) n r uId := by
  obtain ⟨⟨form, hform, hr⟩, hcreated, hunsaved⟩ := h
  refine ⟨⟨form, List.mem_append_left _ hform, hr⟩, ?_, by simp [hunsaved, hsave.symm]⟩
  intro u
  rw [← hcreated u]
  simp [(hcreate u).symm]

theorem Traced.concat {ph : Phase} (h : Traced es n ph) (hcreate : ∀ u, e ≠ .createUser n (some u))
    (hsave : e ≠ .setValueCallback n true) : Traced (es ++ [e]) n ph := by
  cases ph with
  | idle =>
    refine ⟨fun u => ?_, by simp [h.2, hsave.symm]⟩
    simp [h.1 u, (hcreate u).symm]
  | creating r => exact Underway.concat h hcreate hsave
  | created r uId => exact Underway.concat h hcreate hsave
  | waiting a =>
    exact ⟨h.1.concat hcreate hsave, fun url hurl => List.mem_append_left _ (h.2 url hurl)⟩
  | ended => trivial

theorem proceed_phase_of_ne {m : ℕ} (hm : m ≠ n) (r : Registration) (uId : String)
    (url : Option URL) (q : Option Request) : (s.proceed n r uId url q).phase m = s.phase m := by
  cases q <;> simp [State.proceed, State.put, hm]

/-- Asking creates no account and stores nothing. -/
theorem proceed_same (s : State) (n : ℕ) (r : Registration) (uId : String) (url : Option URL)
    (q : Option Request) : (s.proceed n r uId url q).accounts = s.accounts ∧
      (s.proceed n r uId url q).db = s.db := by
  cases q <;> exact ⟨rfl, rfl⟩

/-- A step moves only the registration it is about. -/
theorem phase_of_ne (h : step s e = some s') {m : ℕ} (hm : e.about ≠ some m) :
    s'.phase m = s.phase m := by
  cases e with
  | registrate n form =>
    have hne : m ≠ n := fun heq => hm (congrArg some heq.symm)
    rcases step_registrate h with ⟨-, ⟨-, rfl⟩ | ⟨r, -, rfl⟩⟩
    · rfl
    · exact if_neg hne
  | createUser n result =>
    have hne : m ≠ n := fun heq => hm (congrArg some heq.symm)
    rcases step_createUser h with ⟨r, -, ⟨-, rfl⟩ | ⟨uId, -, -, rfl⟩⟩
    · exact if_neg hne
    · exact if_neg hne
  | createUserCallback n =>
    obtain ⟨_, _, -, rfl⟩ := step_createUserCallback h
    exact proceed_phase_of_ne (fun heq => hm (congrArg some heq.symm)) ..
  | putDataCallback n url =>
    obtain ⟨_, _, _, _, _, -, rfl⟩ := step_putDataCallback h
    exact proceed_phase_of_ne (fun heq => hm (congrArg some heq.symm)) ..
  | commitCallback n succeeded =>
    obtain ⟨_, _, _, _, -, rfl⟩ := step_commitCallback h
    exact proceed_phase_of_ne (fun heq => hm (congrArg some heq.symm)) ..
  | setValueCallback n succeeded =>
    have hne : m ≠ n := fun heq => hm (congrArg some heq.symm)
    obtain ⟨_, _, _, _, _, -, rfl⟩ := step_setValueCallback h
    exact if_neg hne
  | signIn uId =>
    obtain ⟨-, rfl⟩ := step_signIn h
    rfl
  | signOut | change path value => cases h; rfl

/-- A registration that goes on keeps what it has captured. -/
theorem traced_proceed {uId : String} {url : Option URL} (q : Option Request)
    (h : Underway es n r (some uId)) (hurl : ∀ u, url = some u → .putDataCallback n (some u) ∈ es) :
    Traced es n ((s.proceed n r uId url q).phase n) := by
  cases q with
  | none => simp [State.proceed, Traced]
  | some q =>
    simp only [State.proceed, put_phase]
    exact ⟨h, hurl⟩

theorem traced_step (ht : ∀ m, Traced es m (s.phase m)) (h : step s e = some s') (m : ℕ) :
    Traced (es ++ [e]) m (s'.phase m) := by
  by_cases hm : e.about = some m
  · have hold := ht m
    cases e with
    | registrate n form =>
      cases hm
      rcases step_registrate h with ⟨hp, ⟨-, rfl⟩ | ⟨r, hr, rfl⟩⟩
      · exact hold.concat (by simp) (by simp)
      · rw [hp] at hold
        simp only [put_phase]
        exact ⟨⟨form, by simp, hr⟩, by simp [hold.1], by simp [hold.2]⟩
    | createUser n result =>
      cases hm
      obtain ⟨r, hp, hs'⟩ := step_createUser h
      rw [hp] at hold
      rcases hs' with ⟨-, rfl⟩ | ⟨uId, rfl, -, rfl⟩
      · simp [Traced]
      · obtain ⟨⟨form, hform, hr⟩, hcreated, hunsaved⟩ := hold
        simp only [put_phase]
        refine ⟨⟨form, List.mem_append_left _ hform, hr⟩, ?_, by simp [hunsaved]⟩
        intro u
        have hnone := hcreated u
        simp only [List.mem_append, hnone, List.mem_singleton]
        simp [eq_comm]
    | createUserCallback n =>
      cases hm
      obtain ⟨r, uId, hp, rfl⟩ := step_createUserCallback h
      rw [hp] at hold
      exact traced_proceed _ (Underway.concat hold (by simp) (by simp)) (by simp)
    | putDataCallback n url =>
      cases hm
      obtain ⟨r, uId, _, _, _, hp, rfl⟩ := step_putDataCallback h
      rw [hp] at hold
      refine traced_proceed _ (hold.1.concat (by simp) (by simp)) ?_
      rintro u rfl
      exact List.mem_append_right _ (List.mem_singleton_self _)
    | commitCallback n succeeded =>
      cases hm
      obtain ⟨r, uId, url, _, hp, rfl⟩ := step_commitCallback h
      rw [hp] at hold
      refine traced_proceed _ (hold.1.concat (by simp) (by simp)) ?_
      exact fun u hu => List.mem_append_left _ (hold.2 u hu)
    | setValueCallback n succeeded =>
      cases hm
      obtain ⟨_, _, _, _, _, -, rfl⟩ := step_setValueCallback h
      simp [Traced]
    | signIn | signOut | change => cases hm
  · rw [phase_of_ne h hm]
    refine (ht m).concat ?_ ?_
    · rintro u rfl
      exact hm rfl
    · rintro rfl
      exact hm rfl

end Phases

/-! ### The profile of one account -/

/-- The profile that the node of the account decodes as. -/
def profileOf (db : Value) (uId : String) : Option UserProfile :=
  observeUserProfile uId (snapshotAt (profileRef uId) db)

/-- What the events so far say about the profile of `uId`. -/
structure Tracked (uId : String) (es : List Event) (s : State) : Prop where
  faithful : Faithful s
  known : ∀ n u, .createUser n (some u) ∈ es → u ∈ s.accounts
  once : ∀ n m u, .createUser n (some u) ∈ es → .createUser m (some u) ∈ es → n = m
  traced : ∀ n, Traced es n (s.phase n)
  sound : ∀ p, profileOf s.db uId = some p → ∃ n, Completed es n p
  complete : ∀ n, .createUser n (some uId) ∈ es → .setValueCallback n true ∈ es → HasProfile s.db uId

section Track
variable {es : List Event} {s s' : State} {e : Event} {uId : String} {p : UserProfile}

theorem Completed.concat {n : ℕ} (h : Completed es n p) (e : Event) : Completed (es ++ [e]) n p := by
  obtain ⟨⟨form, r, hform, hr⟩, hcreated, huploaded, hsaved⟩ := h
  exact ⟨⟨form, r, List.mem_append_left _ hform, hr⟩, List.mem_append_left _ hcreated,
    List.mem_append_left _ huploaded, List.mem_append_left _ hsaved⟩

/-- A new account is one that no registration has created before. -/
theorem created_step (ht : Tracked uId es s) (h : step s e = some s') :
    (∀ n u, .createUser n (some u) ∈ es ++ [e] → u ∈ s'.accounts) ∧
      ∀ n m u, .createUser n (some u) ∈ es ++ [e] → .createUser m (some u) ∈ es ++ [e] → n = m := by
  by_cases he : ∃ n u, e = .createUser n (some u)
  · obtain ⟨n, u, rfl⟩ := he
    obtain ⟨r, -, ⟨hnone, -⟩ | ⟨u', hu, hnew, rfl⟩⟩ := step_createUser h
    · cases hnone
    · cases hu
      have hold : ∀ m, .createUser m (some u) ∉ es := fun m hm => hnew (ht.known m u hm)
      constructor
      · intro m v hm
        rcases List.mem_append.mp hm with hm | hm
        · exact List.mem_cons_of_mem _ (ht.known m v hm)
        · cases List.mem_singleton.mp hm
          exact List.mem_cons_self ..
      · intro m k v hm hk
        rcases List.mem_append.mp hm with hm | hm <;> rcases List.mem_append.mp hk with hk | hk
        · exact ht.once m k v hm hk
        · cases List.mem_singleton.mp hk
          exact absurd hm (hold m)
        · cases List.mem_singleton.mp hm
          exact absurd hk (hold k)
        · cases List.mem_singleton.mp hm
          cases List.mem_singleton.mp hk
          rfl
  · have hsame : ∀ n u, .createUser n (some u) ∈ es ++ [e] → .createUser n (some u) ∈ es := by
      intro n u hmem
      rcases List.mem_append.mp hmem with hmem | hmem
      · exact hmem
      · exact absurd ⟨n, u, (List.mem_singleton.mp hmem).symm⟩ he
    have haccounts : s.accounts ⊆ s'.accounts := by
      cases e with
      | createUser n result =>
        obtain ⟨r, -, ⟨-, rfl⟩ | ⟨u, rfl, -, rfl⟩⟩ := step_createUser h
        · exact fun _ hu => hu
        · exact absurd ⟨n, u, rfl⟩ he
      | registrate n form =>
        rcases step_registrate h with ⟨-, ⟨-, rfl⟩ | ⟨r, -, rfl⟩⟩ <;> exact fun _ hu => hu
      | createUserCallback n =>
        obtain ⟨_, _, -, rfl⟩ := step_createUserCallback h
        rw [(proceed_same ..).1]
        exact fun _ hu => hu
      | putDataCallback n url =>
        obtain ⟨_, _, _, _, _, -, rfl⟩ := step_putDataCallback h
        rw [(proceed_same ..).1]
        exact fun _ hu => hu
      | commitCallback n succeeded =>
        obtain ⟨_, _, _, _, -, rfl⟩ := step_commitCallback h
        rw [(proceed_same ..).1]
        exact fun _ hu => hu
      | setValueCallback n succeeded =>
        obtain ⟨_, _, _, _, _, -, rfl⟩ := step_setValueCallback h
        exact fun _ hu => hu
      | signIn u =>
        obtain ⟨-, rfl⟩ := step_signIn h
        exact fun _ hu => hu
      | signOut | change path value => cases h; exact fun _ hu => hu
    exact ⟨fun n u hmem => haccounts (ht.known n u (hsame n u hmem)),
      fun n m u hn hm => ht.once n m u (hsame n u hn) (hsame m u hm)⟩

/-- A write elsewhere leaves the profile as it is. -/
theorem profileOf_set {db v : Value} {path : Path}
    (h : Apart path (profileRef uId) ∨ ∃ q, path = chatRef uId ++ q) :
    profileOf (db.set path v) uId = profileOf db uId := by
  refine Option.ext ?_
  intro p
  rw [profileOf, profileOf, observeUserProfile_iff, observeUserProfile_iff, snapshotAt, snapshotAt]
  rcases h with hap | ⟨q, rfl⟩
  · rw [Node.get_set_apart hap]
  · have hpath : chatRef uId ++ q = profileRef uId ++ "chat" :: q := by simp [chatRef]
    rw [hpath, Copies.profile_below_chat]

/-- A step that does not complete a `setValue` leaves the profile of the account as it is. -/
theorem profileOf_step (hels : Elsewhere uId e) (h : step s e = some s')
    (he : ∀ n, e ≠ .setValueCallback n true) : profileOf s'.db uId = profileOf s.db uId := by
  cases e with
  | registrate n form =>
    rcases step_registrate h with ⟨-, ⟨-, rfl⟩ | ⟨r, -, rfl⟩⟩ <;> rfl
  | createUser n result =>
    rcases step_createUser h with ⟨r, -, ⟨-, rfl⟩ | ⟨uId, -, -, rfl⟩⟩ <;> rfl
  | createUserCallback n =>
    obtain ⟨_, _, -, rfl⟩ := step_createUserCallback h
    rw [(proceed_same ..).2]
  | putDataCallback n url =>
    obtain ⟨_, _, _, _, _, -, rfl⟩ := step_putDataCallback h
    rw [(proceed_same ..).2]
  | commitCallback n succeeded =>
    obtain ⟨_, _, _, _, -, rfl⟩ := step_commitCallback h
    rw [(proceed_same ..).2]
  | setValueCallback n succeeded =>
    obtain ⟨_, _, _, _, _, -, rfl⟩ := step_setValueCallback h
    cases succeeded with
    | false => rfl
    | true => exact absurd rfl (he n)
  | signIn u =>
    obtain ⟨-, rfl⟩ := step_signIn h
    rfl
  | signOut =>
    cases h
    rfl
  | change path value =>
    cases h
    exact profileOf_set hels

/-- A registration stores its own profile, and no other account's. -/
theorem tracked_setValueCallback {n : ℕ} (ht : Tracked uId es s)
    (h : step s (.setValueCallback n true) = some s') :
    (∀ p, profileOf s'.db uId = some p → ∃ n', Completed (es ++ [.setValueCallback n true]) n' p) ∧
      ∀ k, .createUser k (some uId) ∈ es ++ [.setValueCallback n true] →
        .setValueCallback k true ∈ es ++ [.setValueCallback n true] → HasProfile s'.db uId := by
  obtain ⟨r, u, url, path, value, hp, rfl⟩ := step_setValueCallback h
  obtain ⟨hpath, url', hurl, hvalue⟩ := ht.faithful.requests _ (ht.faithful.asked n _ hp)
  obtain rfl : path = profileRef u := hpath
  obtain rfl : value = userObject r.userName r.userSurname url' := hvalue
  have htraced := ht.traced n
  rw [hp] at htraced
  obtain ⟨⟨⟨form, hform, hr⟩, hcreated, -⟩, huploaded⟩ := htraced
  simp only [if_true]
  constructor
  · intro p hprofile
    by_cases hu : u = uId
    · subst hu
      rw [profileOf, observeUserProfile_iff, snapshotAt, Node.get_set_self, decodeProfile_userObject]
        at hprofile
      cases hprofile
      refine ⟨n, ⟨form, r, List.mem_append_left _ hform, hr, rfl, rfl⟩, ?_, ?_, by simp⟩
      · exact List.mem_append_left _ ((hcreated u).mpr rfl)
      · exact List.mem_append_left _ (huploaded url' hurl)
    · have hap : Apart (profileRef u) (profileRef uId) := by simpa [profileRef, Apart] using hu
      rw [profileOf_set (Or.inl hap)] at hprofile
      obtain ⟨n', hn'⟩ := ht.sound p hprofile
      exact ⟨n', hn'.concat _⟩
  · intro k hk hsaved
    rw [hasProfile_set]
    have hk : .createUser k (some uId) ∈ es := by simpa using hk
    rcases List.mem_append.mp hsaved with hsaved | hsaved
    · exact Or.inr (ht.complete k hk hsaved)
    · cases List.mem_singleton.mp hsaved
      exact Or.inl (Option.some.inj ((hcreated uId).mp hk))

theorem tracked_step (ht : Tracked uId es s) (h : step s e = some s') (hown : Own s e)
    (hels : Elsewhere uId e) : Tracked uId (es ++ [e]) s' := by
  have htarget := (on_target_step ht.faithful h).mpr hown
  have hfaithful : Faithful s' := ⟨htarget.requests, asked_step h ht.faithful.asked⟩
  obtain ⟨hknown, honce⟩ := created_step ht h
  suffices hdb : (∀ p, profileOf s'.db uId = some p → ∃ n, Completed (es ++ [e]) n p) ∧
      ∀ n, .createUser n (some uId) ∈ es ++ [e] → .setValueCallback n true ∈ es ++ [e] →
        HasProfile s'.db uId from
    ⟨hfaithful, hknown, honce, traced_step ht.traced h, hdb.1, hdb.2⟩
  by_cases he : ∃ n, e = .setValueCallback n true
  · obtain ⟨n, rfl⟩ := he
    exact tracked_setValueCallback ht h
  · have hsame := profileOf_step hels h (fun n heq => he ⟨n, heq⟩)
    constructor
    · intro p hp
      rw [hsame] at hp
      obtain ⟨n, hn⟩ := ht.sound p hp
      exact ⟨n, hn.concat e⟩
    · intro n hcreated hsaved
      have hsaved : .setValueCallback n true ∈ es := by
        rcases List.mem_append.mp hsaved with hsaved | hsaved
        · exact hsaved
        · exact absurd ⟨n, (List.mem_singleton.mp hsaved).symm⟩ he
      rcases List.mem_append.mp hcreated with hcreated | hcreated
      · have hold := ht.complete n hcreated hsaved
        rw [HasProfile] at hold ⊢
        rw [profileOf, profileOf] at hsame
        rwa [hsame]
      · -- an account is created before anything is stored for it
        have htraced := ht.traced n
        obtain ⟨r, hp, -⟩ := step_createUser (List.mem_singleton.mp hcreated ▸ h)
        rw [hp] at htraced
        exact absurd hsaved htraced.unsaved

theorem tracked_run {db : Value} {accounts : List String} (hdb : ¬ HasProfile db uId)
    (hown : Along step (fun _ s e _ => Own s e) (init db accounts) es)
    (hels : ∀ e ∈ es, Elsewhere uId e) (hr : run step (init db accounts) es = some s) :
    Tracked uId es s := by
  have hinit : Tracked uId [] (init db accounts) := by
    refine ⟨⟨fun _ ha => absurd ha List.not_mem_nil, fun _ _ h => (by cases h)⟩,
      fun _ _ h => absurd h List.not_mem_nil, fun _ _ _ h => absurd h List.not_mem_nil,
      fun n => ⟨fun _ => List.not_mem_nil, List.not_mem_nil⟩, ?_, fun _ h => absurd h List.not_mem_nil⟩
    intro p hp
    exact absurd (Option.isSome_iff_exists.mpr ⟨p, hp⟩) hdb
  refine along_history (I := Tracked uId) (R := fun _ s e _ => Own s e ∧ Elsewhere uId e) hinit
    (fun pre s e s' ht h hR => tracked_step ht h hR.1 hR.2) ?_ es [] (List.append_nil es).symm s hr
  rintro pre e post hes s s' hs hs'
  exact ⟨hown pre e post hes s s' hs hs', hels e (by rw [hes]; simp)⟩

end Track

/-- In every run in which each step of a registration finds nobody else signed in and everybody else
    writes elsewhere: an account that had no profile has one exactly when the last step of its
    registration has stored it, and then it is what was typed and uploaded for that registration. -/
theorem profile_iff_completed (db : Value) (accounts : List String) (es : List Event) (s : State)
    (uId : String) (hdb : ¬ HasProfile db uId)
    (hown : Along step (fun _ s e _ => Own s e) (init db accounts) es)
    (hels : ∀ e ∈ es, Elsewhere uId e) (hr : run step (init db accounts) es = some s) :
    (HasProfile s.db uId ↔ ∃ n, .createUser n (some uId) ∈ es ∧ .setValueCallback n true ∈ es) ∧
      ∀ p, profileOf s.db uId = some p → ∃ n, Completed es n p := by
  have ht := tracked_run hdb hown hels hr
  refine ⟨⟨?_, fun ⟨n, hcreated, hsaved⟩ => ht.complete n hcreated hsaved⟩, ht.sound⟩
  intro hprofile
  obtain ⟨p, hp⟩ := Option.isSome_iff_exists.mp hprofile
  obtain ⟨n, hn⟩ := ht.sound p hp
  have huid : p.uId = uId := (decodeProfile_fields.mp (observeUserProfile_iff.mp hp)).1
  exact ⟨n, huid ▸ hn.created, hn.saved⟩

/-- Who is signed in is the account of the registration, if anybody is. -/
def ownCheck (s : State) : Event → Bool
  | .createUserCallback n =>
    match s.phase n with
    | .created r uId => r.image.jpegRepresentation.isNone || s.currentUser.all (· == uId)
    | _ => true
  | .putDataCallback n _ | .commitCallback n _ =>
    match s.phase n with
    | .waiting a => s.currentUser.all (· == a.uId)
    | _ => true
  | _ => true

theorem own_of_ownCheck (s : State) (e : Event) (h : ownCheck s e = true) : Own s e := by
  cases e with
  | createUserCallback n =>
    intro r uId hp himage user huser
    simpa [ownCheck, hp, huser, himage] using h
  | putDataCallback n url =>
    cases url with
    | none => trivial
    | some url =>
      intro a hp user huser
      simpa [ownCheck, hp, huser] using h
  | commitCallback n succeeded =>
    cases succeeded with
    | false => trivial
    | true =>
      intro a hp user huser
      simpa [ownCheck, hp, huser] using h
  | registrate | createUser | setValueCallback | signIn | signOut | change => trivial

omit [URLSyntax] in
/-- Two registrations one after the other: U's is completed, W's fails at the upload. -/
theorem profile_iff_completed_two : ∃ (_ : URLSyntax) (es : List Event) (s : State),
    run step (init .null []) es = some s ∧ s.accounts = ["W", "U"] ∧
      (HasProfile s.db "U" ↔ ∃ n, .createUser n (some "U") ∈ es ∧ .setValueCallback n true ∈ es) ∧
      ∀ p, profileOf s.db "U" = some p → ∃ n, Completed es n p := by
  let _ := nonEmptyURLs
  let u : URL := ⟨"u.jpg", by decide⟩
  let una : Form := ⟨some "Una", some "Poe", some "u@x", some "secret", some ⟨some [1]⟩⟩
  let wim : Form := ⟨some "Wim", some "Roe", some "w@x", some "secret", some ⟨some [2]⟩⟩
  let es : List Event := [.registrate 0 una, .createUser 0 (some "U"), .createUserCallback 0,
    .putDataCallback 0 (some u), .commitCallback 0 true, .setValueCallback 0 true, .signOut,
    .registrate 1 wim, .createUser 1 (some "W"), .createUserCallback 1, .putDataCallback 1 none,
    .change (conversationRef "U" "V") (headerObject ann)]
  obtain ⟨s, hs, hp⟩ := exists_of_run_any step (init .null []) es
    (fun s => s.accounts = ["W", "U"]) (by decide)
  have hown : Along step (fun _ s e _ => Own s e) (init .null []) es :=
    along_of_checks own_of_ownCheck (by decide)
  have hels : ∀ e ∈ es, Elsewhere "U" e := by
    intro e he
    simp only [es, List.mem_cons, List.not_mem_nil, or_false] at he
    rcases he with rfl | rfl | rfl | rfl | rfl | rfl | rfl | rfl | rfl | rfl | rfl | rfl <;>
      first | trivial | exact Or.inr ⟨["V"], rfl⟩
  have hno : ¬ HasProfile .null "U" := by
    rw [HasProfile]
    decide
  exact ⟨nonEmptyURLs, es, s, hs, decide_eq_true_iff.mp hp,
    profile_iff_completed .null [] es s "U" hno hown hels hs⟩

/-- The phase in which a registration takes this step. -/
def Event.expects : Event → Phase → Bool
  | .registrate _ _, .idle | .createUser _ _, .creating _ | .createUserCallback _, .created _ _ => true
  | .putDataCallback _ _, .waiting ⟨_, _, _, .putData _ _⟩ => true
  | .commitCallback _ _, .waiting ⟨_, _, _, .commitChanges _⟩ => true
  | .setValueCallback _ _, .waiting ⟨_, _, _, .setValue _ _⟩ => true
  | _, _ => false

theorem expects_of_step {s s' : State} {e : Event} {n : ℕ} (h : step s e = some s')
    (hm : e.about = some n) : e.expects (s.phase n) = true := by
  cases e with
  | registrate k form =>
    cases hm
    rw [(step_registrate h).1]
    rfl
  | createUser k result =>
    cases hm
    obtain ⟨r, hp, -⟩ := step_createUser h
    rw [hp]
    rfl
  | createUserCallback k =>
    cases hm
    obtain ⟨_, _, hp, -⟩ := step_createUserCallback h
    rw [hp]
    rfl
  | putDataCallback k url =>
    cases hm
    obtain ⟨_, _, _, _, _, hp, -⟩ := step_putDataCallback h
    rw [hp]
    rfl
  | commitCallback k succeeded =>
    cases hm
    obtain ⟨_, _, _, _, hp, -⟩ := step_commitCallback h
    rw [hp]
    rfl
  | setValueCallback k succeeded =>
    cases hm
    obtain ⟨_, _, _, _, _, hp, -⟩ := step_setValueCallback h
    rw [hp]
    rfl
  | signIn | signOut | change => cases hm

/-- The steps of a registration that has ended are over. -/
theorem not_about_of_ended {s s' : State} {e : Event} {n : ℕ} (hend : s.phase n = .ended)
    (h : step s e = some s') : e.about ≠ some n := by
  intro hm
  have hexpects := expects_of_step h hm
  rw [hend] at hexpects
  cases e <;> cases hexpects

/-- A registration that stores nothing any more: its upload is never made, or it has ended. -/
def Phase.Over : Phase → Prop
  | .created r _ => r.image.jpegRepresentation = none
  | .ended => True
  | _ => False

section Over
variable {es post : List Event} {m s s' : State} {e : Event} {uId : String} {n : ℕ} {r : Registration}

/-- The completion of `createUser` ends a registration whose image does not encode. -/
theorem over_created (hp : s.phase n = .created r uId) (himage : r.image.jpegRepresentation = none)
    (hm : e.about = some n) (h : step s e = some s') :
    (s'.phase n).Over ∧ e ≠ .setValueCallback n true := by
  have hexpects := expects_of_step h hm
  rw [hp] at hexpects
  cases e with
  | createUserCallback k =>
    cases hm
    obtain ⟨r', u', hp', rfl⟩ := step_createUserCallback h
    cases hp.symm.trans hp'
    have hnone : uploadProfileImage s.currentUser r.image = none := by
      cases huser : s.currentUser <;> simp [uploadProfileImage, himage]
    rw [hnone]
    simp [State.proceed, Phase.Over]
  | registrate | createUser | putDataCallback | commitCallback | setValueCallback | signIn | signOut
    | change => cases hexpects

/-- A registration that is over stays so and stores nothing. -/
theorem over_stays (hover : (m.phase n).Over) (hr : run step m post = some s) :
    (s.phase n).Over ∧ .setValueCallback n true ∉ post := by
  refine run_history (I := fun pre s => (s.phase n).Over ∧ .setValueCallback n true ∉ pre)
    ⟨hover, List.not_mem_nil⟩ ?_ hr
  rintro pre s e s' ⟨hs, hpre⟩ h
  suffices hnext : (s'.phase n).Over ∧ e ≠ .setValueCallback n true from
    ⟨hnext.1, by simpa [hpre] using hnext.2.symm⟩
  by_cases hm : e.about = some n
  · cases hp : s.phase n with
    | created r u => exact over_created hp (by rwa [hp] at hs) hm h
    | ended => exact absurd hm (not_about_of_ended hp h)
    | idle | creating | waiting => rw [hp] at hs; exact hs.elim
  · rw [phase_of_ne h hm]
    refine ⟨hs, ?_⟩
    rintro rfl
    exact hm rfl

/-- An account whose registration is over without a profile does not get one. -/
theorem never_profile (hm : Tracked uId es m) (hs : Tracked uId (es ++ post) s)
    (hr : run step m post = some s) (hcreated : .createUser n (some uId) ∈ es)
    (hover : (m.phase n).Over) (hno : ¬ HasProfile m.db uId) : ¬ HasProfile s.db uId := by
  intro hprofile
  obtain ⟨p, hp⟩ := Option.isSome_iff_exists.mp hprofile
  obtain ⟨k, hk⟩ := hs.sound p hp
  have huid : p.uId = uId := (decodeProfile_fields.mp (observeUserProfile_iff.mp hp)).1
  obtain rfl := hs.once k n uId (huid ▸ hk.created) (List.mem_append_left _ hcreated)
  rcases List.mem_append.mp hk.saved with hsaved | hsaved
  · exact hno (hm.complete k hcreated hsaved)
  · exact (over_stays hover hr).2 hsaved

end Over

/-- An account whose registration has ended without a profile never gets one: no other step of the app
    writes it, and the registration cannot be taken up again. -/
theorem orphan_stays (db : Value) (accounts : List String) (pre post : List Event) (m s : State)
    (uId : String) (n : ℕ) (hdb : ¬ HasProfile db uId)
    (hown : Along step (fun _ s e _ => Own s e) (init db accounts) (pre ++ post))
    (hels : ∀ e ∈ pre ++ post, Elsewhere uId e) (hpre : run step (init db accounts) pre = some m)
    (hpost : run step m post = some s) (hcreated : .createUser n (some uId) ∈ pre)
    (hend : m.phase n = .ended) (hno : ¬ HasProfile m.db uId) : ¬ HasProfile s.db uId := by
  have hr : run step (init db accounts) (pre ++ post) = some s := by
    rw [run_append, hpre]
    exact hpost
  have hownpre : Along step (fun _ s e _ => Own s e) (init db accounts) pre := by
    rintro pre' e post' rfl s s' hs hs'
    exact hown pre' e (post' ++ post) (by simp) s s' hs hs'
  have htpre := tracked_run hdb hownpre (fun e he => hels e (List.mem_append_left _ he)) hpre
  exact never_profile htpre (tracked_run hdb hown hels hr) hpost hcreated (by rw [hend]; trivial) hno

omit [URLSyntax] in
/-- The upload fails; signing out and in again, and a message from V, do not help. -/
theorem orphan_stays_upload : ∃ (_ : URLSyntax) (es : List Event) (s : State),
    run step (init .null []) es = some s ∧ "U" ∈ s.accounts ∧ s.currentUser = some "U" ∧
      ¬ HasProfile s.db "U" := by
  let _ := nonEmptyURLs
  let una : Form := ⟨some "Una", some "Poe", some "u@x", some "secret", some ⟨some [1]⟩⟩
  let pre : List Event := [.registrate 0 una, .createUser 0 (some "U"), .createUserCallback 0,
    .putDataCallback 0 none]
  let post : List Event := [.signOut, .signIn "U", .change (conversationRef "U" "V") (headerObject ann)]
  obtain ⟨m, hm, hp⟩ := exists_of_run_any step (init .null []) pre
    (fun m => (m.phase 0).hasEnded && !(profileOf m.db "U").isSome &&
      (run step m post).any (fun s => "U" ∈ s.accounts ∧ s.currentUser = some "U")) (by decide)
  simp only [Bool.and_eq_true, Bool.not_eq_true', Option.any_eq_true, decide_eq_true_eq] at hp
  obtain ⟨⟨hend, hprofile⟩, s, hs, haccount, huser⟩ := hp
  have hown : Along step (fun _ s e _ => Own s e) (init .null []) (pre ++ post) :=
    along_of_checks own_of_ownCheck (by decide)
  have hels : ∀ e ∈ pre ++ post, Elsewhere "U" e := by
    intro e he
    simp only [pre, post, List.cons_append, List.nil_append, List.mem_cons, List.not_mem_nil,
      or_false] at he
    rcases he with rfl | rfl | rfl | rfl | rfl | rfl | rfl <;>
      first | trivial | exact Or.inr ⟨["V"], rfl⟩
  have hno : ¬ HasProfile .null "U" := by
    rw [HasProfile]
    decide
  have hnever := orphan_stays .null [] pre post m s "U" 0 hno hown hels hm hs (by simp [pre])
    (Phase.hasEnded_iff.mp hend) (by rw [HasProfile]; simpa [profileOf] using hprofile)
  refine ⟨nonEmptyURLs, pre ++ post, s, ?_, haccount, huser, hnever⟩
  rw [run_append, hm]
  exact hs

end PostApp.SignUp
