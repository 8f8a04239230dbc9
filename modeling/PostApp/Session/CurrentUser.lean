import PostApp.Chat.SendMessage
import PostApp.Schemes.Run
import PostApp.Schemes.Listener

/-! The signed-in user on one device.

    The auth-state listener of `AppDelegate` adds a profile listener at every sign-in and clears
    `UserService.currentUserProfile` at every sign-out; no profile listener is ever removed, and each
    of them assigns the shared static whenever it fires. `savePost` and `sendMessage` take the author
    of what they write from that static. A run is any sequence of auth reports, database changes,
    listener events, saves, sends and snapshot callbacks. -/

namespace PostApp.Session
open Schemes
variable [URLSyntax]

/-- What was written, under whose identity, and who was the reported user then. -/
structure Authored where
  author : String
  signedIn : Option String
  calls : List (Path × Value)
  deriving DecidableEq

structure State where
  db : Value
  /-- the user most recently reported by the auth-state listener -/
  reported : Option String
  /-- the profile listeners, one for every reported sign-in -/
  listeners : List (String × Listener Value)
  currentUserProfile : Option UserProfile
  /-- legs of sends whose snapshot callback is still to come -/
  pending : List (Send × Side)
  written : List Authored

inductive Event where
  | authState (user : Option String)
  | change (path : Path) (value : Value)
  | valueEvent (i : ℕ)
  | savePost (key text : String)
  | sendMessage (σ : Send)
  | callback (i : ℕ) (snapshot : Value) (key text : String)

def init (db : Value) : State := ⟨db, none, [], none, [], []⟩

def step (s : State) : Event → Option State
  | .authState (some uId) => some { s with
      reported := some uId
      listeners := s.listeners ++ [(uId, .attach (s.db.get (profileRef uId)))] }
  | .authState none => some { s with reported := none, currentUserProfile := none }
  | .change path value =>
    let db := s.db.set path value
    some { s with
      db
      listeners := s.listeners.map (fun l =>
        (l.1, l.2.notify (s.db.get (profileRef l.1)) (db.get (profileRef l.1)))) }
  | .valueEvent i => do
    let (uId, ℓ) ← s.listeners[i]?
    let (v, ℓ') ← ℓ.fire
    some { s with
      listeners := s.listeners.set i (uId, ℓ')
      currentUserProfile := observeUserProfile uId ⟨profileRef uId, v⟩ }
  | .savePost key text =>
    match savePost s.currentUserProfile key text with
    | none => some s
    | some (author, call) => some { s with
        written := s.written ++ [⟨author.uId, s.reported, [call]⟩] }
  | .sendMessage σ =>
    match s.currentUserProfile with
    | none => some s
    | some curentUser =>
      if σ.curentUser = curentUser then
        some { s with pending := s.pending ++ [(σ, .receiver), (σ, .sender)] }
      else none
  | .callback i snapshot key text => do
    let (σ, side) ← s.pending[i]?
    let writes := leg side σ ⟨chatRef (side.owner σ), snapshot⟩ key text
    some { s with
      pending := s.pending.eraseIdx i
      written := s.written ++
        [⟨σ.curentUser.uId, s.reported, writes.map (fun w => (w.path, w.value))⟩] }

/-- The loaded profile is the reported user's, and so was every author at the time of writing. -/
structure Current (s : State) : Prop where
  profile : ∀ p, s.currentUserProfile = some p → s.reported = some p.uId
  authors : ∀ w ∈ s.written, w.signedIn = some w.author

/-- The step does not mix two accounts: no user is reported while another account's profile is
    loaded, no listener of an account that is not the reported one delivers a profile, and no
    callback of a send comes after its author has ceased to be the reported user. -/
def Unmixed (s : State) : Event → Prop
  | .authState user => ∀ p uId, s.currentUserProfile = some p → user = some uId → uId = p.uId
  | .valueEvent i => ∀ uId ℓ v ℓ' p, s.listeners[i]? = some (uId, ℓ) → ℓ.fire = some (v, ℓ') →
      observeUserProfile uId ⟨profileRef uId, v⟩ = some p → s.reported = some uId
  | .callback i _ _ _ => ∀ σ side, s.pending[i]? = some (σ, side) →
      s.reported = some σ.curentUser.uId
  | _ => True

theorem observeUserProfile_uId {uId : String} {snapshot : DataSnapshot} {p : UserProfile}
    (h : observeUserProfile uId snapshot = some p) : p.uId = uId :=
  (decodeProfile_fields.mp (observeUserProfile_iff.mp h)).1

omit [URLSyntax] in
/-- One more write keeps the authors right exactly when its own author is. -/
theorem authors_concat {ws : List Authored} {w : Authored}
    (h : ∀ x ∈ ws, x.signedIn = some x.author) :
    (∀ x ∈ ws ++ [w], x.signedIn = some x.author) ↔ w.signedIn = some w.author := by
  simp only [List.mem_append, List.mem_singleton]
  constructor
  · intro hx; exact hx w (Or.inr rfl)
  · rintro hw x (hx | rfl)
    · exact h x hx
    · exact hw

/-- From a state that is current, a step leads to one exactly when it mixes no accounts. -/
theorem current_step {s s' : State} {e : Event} (hs : Current s) (h : step s e = some s') :
    Current s' ↔ Unmixed s e := by
  cases e with
  | authState user =>
    cases user with
    | none =>
      cases h
      exact ⟨fun _ p uId _ hu => (by cases hu), fun _ => ⟨fun p hp => (by cases hp), hs.authors⟩⟩
    | some uId =>
      cases h
      constructor
      · rintro h p uId' hp hu
        have hrep := h.profile p hp
        cases hu; exact Option.some.inj hrep
      · intro h
        exact ⟨fun p hp => congrArg some (h p uId hp rfl), hs.authors⟩
  | change path value => cases h; exact ⟨fun _ => trivial, fun _ => ⟨hs.profile, hs.authors⟩⟩
  | valueEvent i =>
    simp only [step, Option.bind_eq_bind, Option.bind_eq_some_iff] at h
    obtain ⟨⟨uId, ℓ⟩, hi, ⟨v, ℓ'⟩, hf, hs'⟩ := h
    cases hs'
    constructor
    · rintro h uId₁ ℓ₁ v₁ ℓ₁' p hi₁ hf₁ hp
      rw [hi] at hi₁; cases hi₁
      rw [hf] at hf₁; cases hf₁
      have hrep := h.profile p hp
      rwa [observeUserProfile_uId hp] at hrep
    · intro h
      refine ⟨fun p hp => ?_, hs.authors⟩
      rw [observeUserProfile_uId hp]
      exact h uId ℓ v ℓ' p hi hf hp
  | savePost key text =>
    simp only [step, savePost] at h
    cases hp : s.currentUserProfile with
    | none => rw [hp] at h; cases h; exact ⟨fun _ => trivial, fun _ => hs⟩
    | some p =>
      rw [hp] at h; cases h
      exact ⟨fun _ => trivial, fun _ => ⟨fun q hq => hs.profile q (hp.trans hq),
        (authors_concat hs.authors).mpr (hs.profile p hp)⟩⟩
  | sendMessage σ =>
    simp only [step] at h
    cases hp : s.currentUserProfile with
    | none => rw [hp] at h; cases h; exact ⟨fun _ => trivial, fun _ => hs⟩
    | some p =>
      simp only [hp] at h
      split_ifs at h
      cases h
      exact ⟨fun _ => trivial, fun _ => ⟨fun q hq => hs.profile q (hp.trans hq), hs.authors⟩⟩
  | callback i snapshot key text =>
    simp only [step, Option.bind_eq_bind, Option.bind_eq_some_iff] at h
    obtain ⟨⟨σ, side⟩, hi, hs'⟩ := h
    cases hs'
    constructor
    · rintro h σ₁ side₁ hi₁
      rw [hi] at hi₁; cases hi₁
      exact (authors_concat hs.authors).mp h.authors
    · intro h
      exact ⟨hs.profile, (authors_concat hs.authors).mpr (h σ side hi)⟩

/-- Along a run, the loaded profile and all authors stay those of the reported user exactly when no
    step of the run mixes two accounts. -/
theorem current_iff_unmixed (db : Value) (es : List Event) :
    Along step (fun _ _ _ s' => Current s') (init db) es ↔
      Along step (fun _ s e _ => Unmixed s e) (init db) es := by
  refine along_congr (I := fun _ s => Current s) ?_ ?_ ?_
  · exact ⟨fun p hp => (by cases hp), fun w hw => (by cases hw)⟩
  · intro pre s e s' hs h; exact current_step hs h
  · intro pre s e s' _ _ h; exact h

omit [URLSyntax] in
/-- A signs in and out; a message for A arrives, and A's listener loads A's profile again. -/
theorem stale_profile_after_sign_out : ¬ ∀ [URLSyntax] (db : Value) (es : List Event),
    Along step (fun _ _ _ s' => Current s') (init db) es := by
  intro h
  let _ := nonEmptyURLs
  let db : Value := Node.null.set (profileRef "A") (userObject "Ann" "Lee" ⟨"a.jpg", by decide⟩)
  let es : List Event := [.authState (some "A"), .valueEvent 0, .authState none,
    .change (messageRef "A" "B" "-L1") (messageObject true "hi")]
  obtain ⟨s, hs, hp⟩ := exists_of_run_any step (init db) (es ++ [.valueEvent 0])
    (fun s => s.currentUserProfile.isSome && s.reported.isNone) (by decide)
  simp only [Bool.and_eq_true, Option.isSome_iff_exists, Option.isNone_iff_eq_none] at hp
  obtain ⟨⟨p, hprofile⟩, hreported⟩ := hp
  have halong := h db (es ++ [.valueEvent 0])
  obtain ⟨_, hcurrent⟩ := halong.last hs
  rw [hcurrent.profile p hprofile] at hreported
  cases hreported

end PostApp.Session
