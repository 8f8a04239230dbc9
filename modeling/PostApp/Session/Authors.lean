import PostApp.Session.CurrentUser

/-! In whose name the device writes.

    A save or a send takes its author from `UserService.currentUserProfile`, which only profile listeners
    and sign-outs change. Whatever the order of sign-ins, sign-outs and events, two things hold. What is
    written carries a profile that the database had for its uid at some moment: an account without a
    profile writes nothing (`authors_had_profiles`). And when the listeners have delivered their events,
    the loaded profile is the one that the database has then for an account that has signed in on the
    device, or there is none and nobody is signed in (`loaded_is_stored`). -/

namespace PostApp.Session
open Schemes
variable [URLSyntax]

/-- The database had this profile for its uid at some moment of the run. -/
def Had (db₀ : Value) (es : List Event) (p : UserProfile) : Prop :=
  ∃ pre post m, es = pre ++ post ∧ run step (init db₀) pre = some m ∧
    observeUserProfile p.uId (snapshotAt (profileRef p.uId) m.db) = some p

/-- The calls are those of a save or of a leg of a send in the name of this profile. -/
def Signed (p : UserProfile) (calls : List (Path × Value)) : Prop :=
  (∃ key text, calls = [(postsRef ++ [key], postObject p text)]) ∨
    ∃ (σ : Send) (side : Side) (snapshot : DataSnapshot) (key text : String), σ.curentUser = p ∧
      calls = (leg side σ snapshot key text).map (fun w => (w.path, w.value))

/-- Every profile that is loaded, or in whose name something is written, the database has had. -/
structure Sourced (db₀ : Value) (es : List Event) (s : State) : Prop where
  pending : ∀ l ∈ s.listeners, ∀ v ∈ l.2.pending, ∀ p,
    observeUserProfile l.1 ⟨profileRef l.1, v⟩ = some p → Had db₀ es p
  current : ∀ p, s.currentUserProfile = some p → Had db₀ es p
  sends : ∀ x ∈ s.pending, Had db₀ es x.1.curentUser
  written : ∀ w ∈ s.written, ∃ p, Had db₀ es p ∧ w.author = p.uId ∧ Signed p w.calls

section Sourced
variable {db₀ : Value} {es : List Event} {s s' : State} {e : Event} {p : UserProfile}

theorem Had.concat (h : Had db₀ es p) (e : Event) : Had db₀ (es ++ [e]) p := by
  obtain ⟨pre, post, m, rfl, hm⟩ := h
  exact ⟨pre, post ++ [e], m, by simp, hm⟩

/-- The database has it now. -/
theorem had_now {uId : String} (hr : run step (init db₀) es = some s)
    (hp : observeUserProfile uId ⟨profileRef uId, s.db.get (profileRef uId)⟩ = some p) :
    Had db₀ es p := by
  obtain rfl := observeUserProfile_uId hp
  exact ⟨es, [], s, (List.append_nil es).symm, hr, hp⟩

theorem Sourced.concat (h : Sourced db₀ es s) (e : Event) : Sourced db₀ (es ++ [e]) s where
  pending := fun l hl v hv p hp => (h.pending l hl v hv p hp).concat e
  current := fun p hp => (h.current p hp).concat e
  sends := fun x hx => (h.sends x hx).concat e
  written := fun w hw => by
    obtain ⟨p, hp, hauthor⟩ := h.written w hw
    exact ⟨p, hp.concat e, hauthor⟩

/-- One more write in the name of a profile the database has had. -/
theorem Sourced.write (h : Sourced db₀ es s) {a : Authored} (hp : Had db₀ es p)
    (ha : a.author = p.uId) (hcalls : Signed p a.calls) :
    Sourced db₀ es { s with written := s.written ++ [a] } := by
  refine ⟨h.pending, h.current, h.sends, ?_⟩
  intro w hw
  rcases List.mem_append.mp hw with hw | hw
  · exact h.written w hw
  · rw [List.mem_singleton.mp hw]
    exact ⟨p, hp, ha, hcalls⟩

theorem sourced_step (hr : run step (init db₀) es = some s) (hs : Sourced db₀ es s)
    (h : step s e = some s') : Sourced db₀ (es ++ [e]) s' := by
  have hr' : run step (init db₀) (es ++ [e]) = some s' := run_concat.mpr ⟨s, hr, h⟩
  have hs := hs.concat e
  cases e with
  | authState user =>
    cases user with
    | none =>
      cases h
      exact ⟨hs.pending, fun p hp => (by cases hp), hs.sends, hs.written⟩
    | some uId =>
      cases h
      refine ⟨?_, hs.current, hs.sends, hs.written⟩
      intro l hl v hv p hp
      rcases List.mem_append.mp hl with hl | hl
      · exact hs.pending l hl v hv p hp
      · rw [List.mem_singleton.mp hl] at hv hp
        rw [List.mem_singleton.mp hv] at hp
        exact (had_now hr hp).concat _
  | change path value =>
    cases h
    refine ⟨?_, hs.current, hs.sends, hs.written⟩
    intro l hl v hv p hp
    obtain ⟨l', hl', rfl⟩ := List.mem_map.mp hl
    rcases Listener.mem_pending_notify hv with hv | rfl
    · exact hs.pending l' hl' v hv p hp
    · exact had_now hr' hp
  | valueEvent i =>
    simp only [step, Option.bind_eq_bind, Option.bind_eq_some_iff] at h
    obtain ⟨⟨uId, ℓ⟩, hi, ⟨v, ℓ'⟩, hf, hs'⟩ := h
    cases hs'
    have hmem := List.mem_of_getElem? hi
    obtain ⟨vs, hp, rfl⟩ := Listener.fire_eq.mp hf
    refine ⟨?_, ?_, hs.sends, hs.written⟩
    · intro l hl w hw p hprofile
      rcases List.mem_or_eq_of_mem_set hl with hl | rfl
      · exact hs.pending l hl w hw p hprofile
      · exact hs.pending _ hmem w (by rw [hp]; exact List.mem_cons_of_mem _ hw) p hprofile
    · intro p hprofile
      exact hs.pending _ hmem v (by rw [hp]; exact List.mem_cons_self ..) p hprofile
  | savePost key text =>
    simp only [step, savePost] at h
    cases hp : s.currentUserProfile with
    | none =>
      rw [hp] at h
      cases h
      exact hs
    | some p =>
      have hcurrent := hs.current p hp
      rw [hp] at h
      cases h
      have hsigned : Signed p [(postsRef ++ [key], postObject p text)] := Or.inl ⟨key, text, rfl⟩
      have hwrite := hs.write (a := ⟨p.uId, s.reported, _⟩) hcurrent rfl hsigned
      exact ⟨hwrite.pending, fun q hq => hs.current q (hp.trans hq), hwrite.sends, hwrite.written⟩
  | sendMessage σ =>
    simp only [step] at h
    cases hp : s.currentUserProfile with
    | none =>
      rw [hp] at h
      cases h
      exact hs
    | some p =>
      simp only [hp] at h
      split_ifs at h with hσ
      cases h
      refine ⟨hs.pending, fun q hq => hs.current q (hp.trans hq), ?_, hs.written⟩
      intro x hx
      rcases List.mem_append.mp hx with hx | hx
      · exact hs.sends x hx
      · have hsend : x.1 = σ := by
          simp only [List.mem_cons, List.not_mem_nil, or_false] at hx
          rcases hx with rfl | rfl <;> rfl
        rw [hsend, hσ]
        exact hs.current p hp
  | callback i snapshot key text =>
    simp only [step, Option.bind_eq_bind, Option.bind_eq_some_iff] at h
    obtain ⟨⟨σ, side⟩, hi, hs'⟩ := h
    cases hs'
    have hrest : Sourced db₀ (es ++ [.callback i snapshot key text])
        { s with pending := s.pending.eraseIdx i } :=
      ⟨hs.pending, hs.current, fun x hx => hs.sends x (List.mem_of_mem_eraseIdx hx), hs.written⟩
    exact hrest.write (hs.sends _ (List.mem_of_getElem? hi)) rfl
      (Or.inr ⟨σ, side, _, key, text, rfl, rfl⟩)

end Sourced

/-- In every run, what the device writes is signed with a profile that the database had for the author's
    uid at some moment: nothing is ever written in the name of an account without a profile. -/
theorem authors_had_profiles (db : Value) (es : List Event) (s : State)
    (hr : run step (init db) es = some s) :
    ∀ w ∈ s.written, ∃ p, Had db es p ∧ w.author = p.uId ∧ Signed p w.calls := by
  have hinit : Sourced db [] (init db) :=
    ⟨fun _ h => absurd h List.not_mem_nil, fun _ h => (by cases h), fun _ h => absurd h List.not_mem_nil,
      fun _ h => absurd h List.not_mem_nil⟩
  have hrun := run_history (I := fun es s => run step (init db) es = some s ∧ Sourced db es s)
    ⟨rfl, hinit⟩ ?_ hr
  · exact hrun.2.written
  · rintro pre s e s' ⟨hpre, hs⟩ h
    exact ⟨run_concat.mpr ⟨s, hpre, h⟩, sourced_step hpre hs h⟩

omit [URLSyntax] in
/-- Ann saves a post after her profile has been replaced, before the event that brings the new one. -/
theorem authors_had_profiles_replaced : ∃ (_ : URLSyntax) (db : Value) (es : List Event) (s : State)
    (w : Authored), run step (init db) es = some s ∧ w ∈ s.written ∧
      ∃ p, Had db es p ∧ w.author = p.uId ∧ Signed p w.calls := by
  let _ := nonEmptyURLs
  let db : Value := Node.null.set (profileRef "A") (userObject "Ann" "Lee" ann.photoURL)
  let es : List Event := [.authState (some "A"), .valueEvent 0,
    .change (profileRef "A") (userObject "Anna" "Lee" ann.photoURL), .savePost "-L1" "hi"]
  obtain ⟨s, hs, hp⟩ := exists_of_run_any step (init db) es (fun s => s.written.length = 1) (by decide)
  obtain ⟨w, hw⟩ := List.length_eq_one_iff.mp (decide_eq_true_iff.mp hp)
  have hmem : w ∈ s.written := by
    rw [hw]
    exact List.mem_singleton_self w
  exact ⟨nonEmptyURLs, db, es, s, w, hs, hmem, authors_had_profiles db es s hs w hmem⟩

/-! ### The loaded profile -/

/-- The listeners follow the database, and the loaded profile comes from the last event of one of them,
    unless an event is due or nobody is signed in. -/
structure Follows (es : List Event) (s : State) : Prop where
  tracks : ∀ l ∈ s.listeners, l.2.Tracks (s.db.get (profileRef l.1))
  signedIn : ∀ l ∈ s.listeners, .authState (some l.1) ∈ es
  loaded : (∃ l ∈ s.listeners, l.2.pending ≠ []) ∨
    (s.reported = none ∧ s.currentUserProfile = none) ∨
    ∃ l ∈ s.listeners, ∃ v, l.2.seen = some v ∧
      s.currentUserProfile = observeUserProfile l.1 ⟨profileRef l.1, v⟩

section Follows
variable {es : List Event} {s s' : State} {e : Event}

theorem Follows.concat (h : Follows es s) (e : Event) : Follows (es ++ [e]) s :=
  ⟨h.tracks, fun l hl => List.mem_append_left _ (h.signedIn l hl), h.loaded⟩

omit [URLSyntax] in
theorem pending_notify {ℓ : Listener Value} (h : ℓ.pending ≠ []) (old new : Value) :
    (ℓ.notify old new).pending ≠ [] := by
  unfold Listener.notify
  split_ifs
  · exact h
  · simp

theorem follows_step (hs : Follows es s) (h : step s e = some s') : Follows (es ++ [e]) s' := by
  have hs := hs.concat e
  cases e with
  | authState user =>
    cases user with
    | none =>
      cases h
      exact ⟨hs.tracks, hs.signedIn, Or.inr (Or.inl ⟨rfl, rfl⟩)⟩
    | some uId =>
      cases h
      refine ⟨?_, ?_, Or.inl ⟨_, List.mem_append_right _ (List.mem_singleton_self _), by
        simp [Listener.attach]⟩⟩
      · intro l hl
        rcases List.mem_append.mp hl with hl | hl
        · exact hs.tracks l hl
        · rw [List.mem_singleton.mp hl]
          exact Listener.tracks_attach _
      · intro l hl
        rcases List.mem_append.mp hl with hl | hl
        · exact hs.signedIn l hl
        · rw [List.mem_singleton.mp hl]
          exact List.mem_append_right _ (List.mem_singleton_self _)
  | change path value =>
    cases h
    refine ⟨?_, ?_, ?_⟩
    · intro l hl
      obtain ⟨l', hl', rfl⟩ := List.mem_map.mp hl
      exact (hs.tracks l' hl').notify _
    · intro l hl
      obtain ⟨l', hl', rfl⟩ := List.mem_map.mp hl
      exact hs.signedIn l' hl'
    · rcases hs.loaded with ⟨l, hl, hp⟩ | hnone | ⟨l, hl, v, hseen, hcurrent⟩
      · exact Or.inl ⟨_, List.mem_map.mpr ⟨l, hl, rfl⟩, pending_notify hp _ _⟩
      · exact Or.inr (Or.inl hnone)
      · exact Or.inr (Or.inr ⟨_, List.mem_map.mpr ⟨l, hl, rfl⟩, v,
          (Listener.notify_seen ..).trans hseen, hcurrent⟩)
  | valueEvent i =>
    simp only [step, Option.bind_eq_bind, Option.bind_eq_some_iff] at h
    obtain ⟨⟨uId, ℓ⟩, hi, ⟨v, ℓ'⟩, hf, hs'⟩ := h
    cases hs'
    have hmem := List.mem_of_getElem? hi
    obtain ⟨hlt, -⟩ := List.getElem?_eq_some_iff.mp hi
    have hseen : ℓ'.seen = some v := by
      obtain ⟨vs, -, rfl⟩ := Listener.fire_eq.mp hf
      rfl
    refine ⟨?_, ?_, Or.inr (Or.inr ⟨(uId, ℓ'), List.mem_set hlt _, v, hseen, rfl⟩)⟩
    · intro l hl
      rcases List.mem_or_eq_of_mem_set hl with hl | rfl
      · exact hs.tracks l hl
      · exact (hs.tracks _ hmem).fire hf
    · intro l hl
      rcases List.mem_or_eq_of_mem_set hl with hl | rfl
      · exact hs.signedIn l hl
      · exact hs.signedIn (uId, ℓ) hmem
  | savePost key text =>
    simp only [step] at h
    split at h <;> cases h <;> exact ⟨hs.tracks, hs.signedIn, hs.loaded⟩
  | sendMessage σ =>
    simp only [step] at h
    split at h
    · cases h
      exact hs
    · split_ifs at h
      cases h
      exact ⟨hs.tracks, hs.signedIn, hs.loaded⟩
  | callback i snapshot key text =>
    simp only [step, Option.bind_eq_bind, Option.bind_eq_some_iff] at h
    obtain ⟨⟨σ, side⟩, -, hs'⟩ := h
    cases hs'
    exact ⟨hs.tracks, hs.signedIn, hs.loaded⟩

end Follows

/-- In every run, once the profile listeners have delivered their events: nobody is signed in and no
    profile is loaded, or the loaded profile is what the database has for an account that has signed in
    on the device. -/
theorem loaded_is_stored (db : Value) (es : List Event) (s : State)
    (hr : run step (init db) es = some s) (hdelivered : ∀ l ∈ s.listeners, l.2.pending = []) :
    (s.reported = none ∧ s.currentUserProfile = none) ∨ ∃ uId, .authState (some uId) ∈ es ∧
      s.currentUserProfile = observeUserProfile uId (snapshotAt (profileRef uId) s.db) := by
  have hs : Follows es s := by
    refine run_history (I := Follows) ?_ (fun _ _ _ _ hs h => follows_step hs h) hr
    exact ⟨fun _ h => absurd h List.not_mem_nil, fun _ h => absurd h List.not_mem_nil,
      Or.inr (Or.inl ⟨rfl, rfl⟩)⟩
  rcases hs.loaded with ⟨l, hl, hp⟩ | hnone | ⟨l, hl, v, hseen, hcurrent⟩
  · exact absurd (hdelivered l hl) hp
  · exact Or.inl hnone
  · have hnow := (hs.tracks l hl).seen (hdelivered l hl)
    rw [hseen] at hnow
    cases hnow
    exact Or.inr ⟨l.1, hs.signedIn l hl, hcurrent⟩

omit [URLSyntax] in
/-- Ann signs in twice, and her profile is replaced in between. -/
theorem loaded_is_stored_again : ∃ (_ : URLSyntax) (db : Value) (es : List Event) (s : State),
    run step (init db) es = some s ∧ s.listeners.length = 2 ∧ s.reported = some "A" ∧
      ((s.reported = none ∧ s.currentUserProfile = none) ∨ ∃ uId, .authState (some uId) ∈ es ∧
        s.currentUserProfile = observeUserProfile uId (snapshotAt (profileRef uId) s.db)) := by
  let _ := nonEmptyURLs
  let db : Value := Node.null.set (profileRef "A") (userObject "Ann" "Lee" ann.photoURL)
  let es : List Event := [.authState (some "A"), .valueEvent 0, .authState none,
    .change (profileRef "A") (userObject "Anna" "Lee" ann.photoURL), .authState (some "A"),
    .valueEvent 1, .valueEvent 0]
  obtain ⟨s, hs, hp⟩ := exists_of_run_any step (init db) es (fun s => s.listeners.length = 2 ∧
    s.reported = some "A" ∧ ∀ l ∈ s.listeners, l.2.pending = []) (by decide)
  obtain ⟨hlen, hreported, hdelivered⟩ := decide_eq_true_iff.mp hp
  exact ⟨nonEmptyURLs, db, es, s, hs, hlen, hreported, loaded_is_stored db es s hs hdelivered⟩

end PostApp.Session
