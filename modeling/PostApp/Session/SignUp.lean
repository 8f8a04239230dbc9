import PostApp.Model.Records
import PostApp.Schemes.Run

/-! Registrations on one device.

    `registrate` captures the form and creates an account; then come the image upload, the profile
    change request and the write of the profile, each from the completion of the one before. None of
    these steps is handed the new account's uid: each asks `Auth.auth().currentUser` again. Between
    two steps the user may sign out, sign in as someone else or start another registration. All
    requests of a registration go to its own account exactly when, at every step that makes one,
    nobody else is signed in (`on_target_iff_own`). -/

namespace PostApp.SignUp
open Schemes

/-- A picked image, by what `UIImageJPEGRepresentation(image, 0.5)` makes of it. -/
structure Image where
  jpegRepresentation : Option (List UInt8)

/-- The form; a text field's `text` and the view's `image` are optional. -/
structure Form where
  nameTextField : Option String
  surnameTextField : Option String
  emailTextField : Option String
  passwordTextField : Option String
  userImage : Option Image

/-- What `registrate` captures. -/
structure Registration where
  userName : String
  userSurname : String
  email : String
  password : String
  image : Image

def registrate (form : Form) : Option Registration := do
  let userName ← form.nameTextField
  let userSurname ← form.surnameTextField
  let email ← form.emailTextField
  let password ← form.passwordTextField
  let image ← form.userImage
  return ⟨userName, userSurname, email, password, image⟩

variable [URLSyntax]

structure ProfileChangeRequest where
  uId : String
  displayName : Option String
  photoURL : Option URL

/-- The asynchronous calls made after the account has been created. -/
inductive Request where
  | putData (path : Path) (imageData : List UInt8)
  | commitChanges (changeRequest : ProfileChangeRequest)
  | setValue (path : Path) (value : Value)

/-- `currentUser` is `Auth.auth().currentUser?.uid` at the moment of the call. -/
def uploadProfileImage (currentUser : Option String) (image : Image) : Option Request := do
  let uId ← currentUser
  let imageData ← image.jpegRepresentation
  return .putData ["users", uId] imageData

/-- The change request in the completion of the upload; `displayName` is assigned twice. -/
def changeRequest (currentUser : Option String) (userName userSurname : String) (url : URL) :
    Option Request := do
  let uId ← currentUser
  let changeRequest : ProfileChangeRequest := ⟨uId, none, none⟩
  let changeRequest := { changeRequest with displayName := some userName }
  let changeRequest := { changeRequest with displayName := some userSurname }
  return .commitChanges { changeRequest with photoURL := some url }

def saveProfile (currentUser : Option String) (userName userSurname : String)
    (profileImageURL : URL) : Option Request := do
  let uId ← currentUser
  return .setValue (profileRef uId) (userObject userName userSurname profileImageURL)

/-- A request with the registration it is made for, the uid that `createUser` produced for it and
    the URL that its upload returned. -/
structure Asked where
  registration : Registration
  uId : String
  url : Option URL
  request : Request

/-- The request targets the registration's own account and carries what was captured for it. -/
def Asked.OnTarget (a : Asked) : Prop :=
  match a.request with
  | .putData path imageData =>
    path = ["users", a.uId] ∧ a.registration.image.jpegRepresentation = some imageData
  | .commitChanges changeRequest => changeRequest.uId = a.uId ∧
    changeRequest.displayName = some a.registration.userSurname ∧
    changeRequest.photoURL = a.url
  | .setValue path value => path = profileRef a.uId ∧ ∃ url, a.url = some url ∧
    value = userObject a.registration.userName a.registration.userSurname url

inductive Phase where
  | idle
  | creating (r : Registration)
  | created (r : Registration) (uId : String)
  /-- the completion of this request is to come -/
  | waiting (a : Asked)
  | ended

/-- The account whose request is waiting for its completion. -/
def Phase.account : Phase → Option String
  | .waiting a => some a.uId
  | _ => none

structure State where
  db : Value
  currentUser : Option String
  accounts : List String
  phase : ℕ → Phase
  /-- all requests so far -/
  requests : List Asked

inductive Event where
  | registrate (n : ℕ) (form : Form)
  /-- the server creates the account and signs it in, or fails -/
  | createUser (n : ℕ) (uId : Option String)
  | createUserCallback (n : ℕ)
  /-- the completion of the upload, with the download URL if there is one -/
  | putDataCallback (n : ℕ) (url : Option URL)
  | commitCallback (n : ℕ) (succeeded : Bool)
  | setValueCallback (n : ℕ) (succeeded : Bool)
  | signIn (uId : String)
  | signOut
  /-- any other write to the database -/
  | change (path : Path) (value : Value)

def init (db : Value) (accounts : List String) : State := ⟨db, none, accounts, fun _ => .idle, []⟩

def State.put (s : State) (n : ℕ) (ph : Phase) : State :=
  { s with phase := fun m => if m = n then ph else s.phase m }

/-- Make the next request of a registration, or give it up. -/
def State.proceed (s : State) (n : ℕ) (r : Registration) (uId : String) (url : Option URL) :
    Option Request → State
  | none => s.put n .ended
  | some q => { s.put n (.waiting ⟨r, uId, url, q⟩) with
      requests := s.requests ++ [⟨r, uId, url, q⟩] }

def step (s : State) : Event → Option State
  | .registrate n form =>
    match s.phase n, registrate form with
    | .idle, some r => some (s.put n (.creating r))
    | .idle, none => some s
    | _, _ => none
  | .createUser n result =>
    match s.phase n, result with
    | .creating _, none => some (s.put n .ended)
    | .creating r, some uId =>
      if uId ∈ s.accounts then none
      else some { s.put n (.created r uId) with
        currentUser := some uId
        accounts := uId :: s.accounts }
    | _, _ => none
  | .createUserCallback n =>
    match s.phase n with
    | .created r uId =>
      some (s.proceed n r uId none (uploadProfileImage s.currentUser r.image))
    | _ => none
  | .putDataCallback n url =>
    match s.phase n with
    | .waiting ⟨r, uId, _, .putData _ _⟩ => some (s.proceed n r uId url
        (url.bind (changeRequest s.currentUser r.userName r.userSurname)))
    | _ => none
  | .commitCallback n succeeded =>
    match s.phase n with
    | .waiting ⟨r, uId, some url, .commitChanges _⟩ => some (s.proceed n r uId url
        (if succeeded then saveProfile s.currentUser r.userName r.userSurname url else none))
    | _ => none
  | .setValueCallback n succeeded =>
    match s.phase n with
    | .waiting ⟨_, _, _, .setValue path value⟩ => some { s.put n .ended with
        db := if succeeded then s.db.set path value else s.db }
    | _ => none
  | .signIn uId => if uId ∈ s.accounts then some { s with currentUser := some uId } else none
  | .signOut => some { s with currentUser := none }
  | .change path value => some { s with db := s.db.set path value }

/-- Every request is on target, and the write of a profile changes no other account's subtree. -/
structure OnTarget (s : State) (e : Event) (s' : State) : Prop where
  requests : ∀ a ∈ s'.requests, a.OnTarget
  others : ∀ n succeeded a uId, e = .setValueCallback n succeeded → s.phase n = .waiting a →
    uId ≠ a.uId → s'.db.get (profileRef uId) = s.db.get (profileRef uId)

/-- A step that makes a request finds nobody signed in but the account of its registration. -/
def Own (s : State) : Event → Prop
  | .createUserCallback n => ∀ r uId, s.phase n = .created r uId →
      r.image.jpegRepresentation ≠ none → ∀ user, s.currentUser = some user → user = uId
  | .putDataCallback n (some _) | .commitCallback n true => ∀ a, s.phase n = .waiting a →
      ∀ user, s.currentUser = some user → user = a.uId
  | _ => True

/-! ### What a step can do -/

section Inversion
variable {s s' : State} {n : ℕ}

theorem step_registrate {form : Form} (h : step s (.registrate n form) = some s') :
    s.phase n = .idle ∧ ((registrate form = none ∧ s' = s) ∨
      ∃ r, registrate form = some r ∧ s' = s.put n (.creating r)) := by
  simp only [step] at h
  split at h
  · next r hp hr =>
    cases h
    exact ⟨hp, Or.inr ⟨r, hr, rfl⟩⟩
  · next hp hr =>
    cases h
    exact ⟨hp, Or.inl ⟨hr, rfl⟩⟩
  · cases h

theorem step_createUser {result : Option String} (h : step s (.createUser n result) = some s') :
    ∃ r, s.phase n = .creating r ∧ ((result = none ∧ s' = s.put n .ended) ∨
      ∃ uId, result = some uId ∧ uId ∉ s.accounts ∧ s' = { s.put n (.created r uId) with
        currentUser := some uId
        accounts := uId :: s.accounts }) := by
  simp only [step] at h
  split at h
  · next r hp =>
    cases h
    exact ⟨r, hp, Or.inl ⟨rfl, rfl⟩⟩
  · next r uId hp =>
    split_ifs at h with hfresh
    cases h
    exact ⟨r, hp, Or.inr ⟨uId, rfl, hfresh, rfl⟩⟩
  · cases h

theorem step_createUserCallback (h : step s (.createUserCallback n) = some s') :
    ∃ r uId, s.phase n = .created r uId ∧
      s' = s.proceed n r uId none (uploadProfileImage s.currentUser r.image) := by
  simp only [step] at h
  split at h
  · next r uId hp =>
    cases h
    exact ⟨r, uId, hp, rfl⟩
  · cases h

theorem step_putDataCallback {url : Option URL} (h : step s (.putDataCallback n url) = some s') :
    ∃ r uId old path imageData, s.phase n = .waiting ⟨r, uId, old, .putData path imageData⟩ ∧
      s' = s.proceed n r uId url
        (url.bind (changeRequest s.currentUser r.userName r.userSurname)) := by
  simp only [step] at h
  split at h
  · next r uId old path imageData hp =>
    cases h
    exact ⟨r, uId, old, path, imageData, hp, rfl⟩
  · cases h

theorem step_commitCallback {succeeded : Bool}
    (h : step s (.commitCallback n succeeded) = some s') :
    ∃ r uId url changes, s.phase n = .waiting ⟨r, uId, some url, .commitChanges changes⟩ ∧
      s' = s.proceed n r uId url
        (if succeeded then saveProfile s.currentUser r.userName r.userSurname url else none) := by
  simp only [step] at h
  split at h
  · next r uId url changes hp =>
    cases h
    exact ⟨r, uId, url, changes, hp, rfl⟩
  · cases h

theorem step_setValueCallback {succeeded : Bool}
    (h : step s (.setValueCallback n succeeded) = some s') :
    ∃ r uId url path value, s.phase n = .waiting ⟨r, uId, url, .setValue path value⟩ ∧
      s' = { s.put n .ended with db := if succeeded then s.db.set path value else s.db } := by
  simp only [step] at h
  split at h
  · next r uId url path value hp =>
    cases h
    exact ⟨r, uId, url, path, value, hp, rfl⟩
  · cases h

theorem step_signIn {uId : String} (h : step s (.signIn uId) = some s') :
    uId ∈ s.accounts ∧ s' = { s with currentUser := some uId } := by
  simp only [step] at h
  split_ifs at h with hmem
  cases h
  exact ⟨hmem, rfl⟩

end Inversion

/-! ### One step -/

/-- The requests so far are on target, and whoever waits for a completion has asked. -/
structure Faithful (s : State) : Prop where
  requests : ∀ a ∈ s.requests, a.OnTarget
  asked : ∀ n a, s.phase n = .waiting a → a ∈ s.requests

section Step
variable {s s' : State} {n : ℕ}

theorem proceed_requests {r : Registration} {uId : String} {url : Option URL} {q : Option Request}
    (hs : ∀ a ∈ s.requests, a.OnTarget) :
    (∀ a ∈ (s.proceed n r uId url q).requests, a.OnTarget) ↔
      ∀ q', q = some q' → Asked.OnTarget ⟨r, uId, url, q'⟩ := by
  cases q with
  | none => exact iff_of_true hs (by simp)
  | some q =>
    simp only [State.proceed, List.mem_append, List.mem_singleton, Option.some.injEq, forall_eq']
    constructor
    · intro h; exact h _ (Or.inr rfl)
    · rintro h a (ha | rfl)
      · exact hs a ha
      · exact h

theorem proceed_asked {r : Registration} {uId : String} {url : Option URL} {q : Option Request}
    (hs : ∀ n a, s.phase n = .waiting a → a ∈ s.requests) (m : ℕ) (a : Asked)
    (h : (s.proceed n r uId url q).phase m = .waiting a) :
    a ∈ (s.proceed n r uId url q).requests := by
  cases q with
  | none =>
    simp only [State.proceed, State.put] at h
    split_ifs at h
    exact hs m a h
  | some q =>
    simp only [State.proceed, State.put] at h ⊢
    split_ifs at h with hm
    · cases h; exact List.mem_append_right _ (List.mem_singleton_self _)
    · exact List.mem_append_left _ (hs m a h)

theorem put_asked {ph : Phase} (hs : ∀ n a, s.phase n = .waiting a → a ∈ s.requests)
    (hph : ∀ a, ph ≠ .waiting a) (m : ℕ) (a : Asked) (h : (s.put n ph).phase m = .waiting a) :
    a ∈ s.requests := by
  simp only [State.put] at h
  split_ifs at h
  · exact absurd h (hph a)
  · exact hs m a h

theorem upload_on_target (user : Option String) (r : Registration) (uId : String) :
    (∀ q, uploadProfileImage user r.image = some q → Asked.OnTarget ⟨r, uId, none, q⟩) ↔
      (r.image.jpegRepresentation ≠ none → ∀ u, user = some u → u = uId) := by
  cases user with
  | none => simp [uploadProfileImage]
  | some u =>
    cases h : r.image.jpegRepresentation with
    | none => simp [uploadProfileImage, h]
    | some data => simp [uploadProfileImage, h, Asked.OnTarget]

theorem change_on_target (user : Option String) (r : Registration) (uId : String) (url : URL) :
    (∀ q, changeRequest user r.userName r.userSurname url = some q →
        Asked.OnTarget ⟨r, uId, some url, q⟩) ↔ ∀ u, user = some u → u = uId := by
  cases user <;> simp [changeRequest, Asked.OnTarget]

theorem save_on_target (user : Option String) (r : Registration) (uId : String) (url : URL) :
    (∀ q, saveProfile user r.userName r.userSurname url = some q →
        Asked.OnTarget ⟨r, uId, some url, q⟩) ↔ ∀ u, user = some u → u = uId := by
  cases user <;> simp [saveProfile, Asked.OnTarget, profileRef]

/-- Only the completion of a `setValue` writes; every other step has nothing to change. -/
theorem on_target_iff_requests {e : Event} (he : ∀ n succeeded, e ≠ .setValueCallback n succeeded) :
    OnTarget s e s' ↔ ∀ a ∈ s'.requests, a.OnTarget :=
  ⟨fun h => h.requests, fun h => ⟨h, fun n b _ _ hn => absurd hn (he n b)⟩⟩

end Step

/-- While all requests are on target, the next step keeps them so exactly when it finds nobody else
    signed in. -/
theorem on_target_step {s s' : State} {e : Event} (hs : Faithful s) (h : step s e = some s') :
    OnTarget s e s' ↔ Own s e := by
  cases e with
  | registrate n form =>
    rw [on_target_iff_requests (by simp)]
    refine iff_of_true ?_ trivial
    rcases step_registrate h with ⟨-, ⟨-, rfl⟩ | ⟨r, -, rfl⟩⟩
    · exact hs.requests
    · exact hs.requests
  | createUser n result =>
    rw [on_target_iff_requests (by simp)]
    refine iff_of_true ?_ trivial
    rcases step_createUser h with ⟨r, -, ⟨-, rfl⟩ | ⟨uId, -, -, rfl⟩⟩
    · exact hs.requests
    · exact hs.requests
  | createUserCallback n =>
    rw [on_target_iff_requests (by simp)]
    obtain ⟨r, uId, hp, rfl⟩ := step_createUserCallback h
    rw [proceed_requests hs.requests, upload_on_target]
    simp [Own, hp]
  | putDataCallback n url =>
    rw [on_target_iff_requests (by simp)]
    obtain ⟨r, uId, _, path, imageData, hp, rfl⟩ := step_putDataCallback h
    rw [proceed_requests hs.requests]
    cases url with
    | none => simp [Own]
    | some url =>
      rw [Option.bind_some, change_on_target]
      simp [Own, hp]
  | commitCallback n succeeded =>
    rw [on_target_iff_requests (by simp)]
    obtain ⟨r, uId, url, _, hp, rfl⟩ := step_commitCallback h
    rw [proceed_requests hs.requests]
    cases succeeded with
    | false => simp [Own]
    | true =>
      rw [if_pos rfl, save_on_target]
      simp [Own, hp]
  | setValueCallback n succeeded =>
    refine iff_of_true ?_ trivial
    obtain ⟨r, uId, url, path, value, hp, rfl⟩ := step_setValueCallback h
    obtain rfl : path = profileRef uId := (hs.requests _ (hs.asked n _ hp)).1
    refine ⟨hs.requests, ?_⟩
    rintro m b a u he ha hu
    cases he
    rw [hp] at ha
    cases ha
    simp only
    split_ifs
    · exact Node.get_set_apart (by simpa [profileRef, Apart] using Ne.symm hu) _ _
    · rfl
  | signIn uId =>
    rw [on_target_iff_requests (by simp)]
    obtain ⟨-, rfl⟩ := step_signIn h
    exact iff_of_true hs.requests trivial
  | signOut =>
    rw [on_target_iff_requests (by simp)]
    cases h; exact iff_of_true hs.requests trivial
  | change path value =>
    rw [on_target_iff_requests (by simp)]
    cases h; exact iff_of_true hs.requests trivial

theorem asked_step {s s' : State} {e : Event} (h : step s e = some s')
    (hs : ∀ n a, s.phase n = .waiting a → a ∈ s.requests) :
    ∀ n a, s'.phase n = .waiting a → a ∈ s'.requests := by
  cases e with
  | registrate n form =>
    rcases step_registrate h with ⟨-, ⟨-, rfl⟩ | ⟨r, -, rfl⟩⟩
    · exact hs
    · exact put_asked hs (by simp)
  | createUser n result =>
    rcases step_createUser h with ⟨r, -, ⟨-, rfl⟩ | ⟨uId, -, -, rfl⟩⟩
    · exact put_asked hs (by simp)
    · exact put_asked hs (by simp)
  | createUserCallback n =>
    obtain ⟨_, _, -, rfl⟩ := step_createUserCallback h
    exact proceed_asked hs
  | putDataCallback n url =>
    obtain ⟨_, _, _, _, _, -, rfl⟩ := step_putDataCallback h
    exact proceed_asked hs
  | commitCallback n succeeded =>
    obtain ⟨_, _, _, _, -, rfl⟩ := step_commitCallback h
    exact proceed_asked hs
  | setValueCallback n succeeded =>
    obtain ⟨_, _, _, _, _, -, rfl⟩ := step_setValueCallback h
    exact put_asked hs (by simp)
  | signIn uId =>
    obtain ⟨-, rfl⟩ := step_signIn h
    exact hs
  | signOut | change path value => cases h; exact hs

/-- Along a run, every request of every registration is on target, and no profile write touches
    another account, exactly when no step that makes a request finds another account signed in. -/
theorem on_target_iff_own (db : Value) (accounts : List String) (es : List Event) :
    Along step (fun _ => OnTarget) (init db accounts) es ↔
      Along step (fun _ s e _ => Own s e) (init db accounts) es := by
  refine along_congr (I := fun _ => Faithful) ?_ ?_ ?_
  · exact ⟨fun a ha => (List.not_mem_nil ha).elim, fun n a h => (by cases h)⟩
  · intro pre s e s' hs h; exact on_target_step hs h
  · intro pre s e s' hs h hR; exact ⟨hR.requests, asked_step h hs.asked⟩

omit [URLSyntax] in
/-- While the image of the new account U is uploading, V signs in on the device: V's profile and
    chats are replaced by U's data. -/
theorem other_account_overwritten : ¬ ∀ [URLSyntax] (db : Value) (accounts : List String)
    (es : List Event), Along step (fun _ => OnTarget) (init db accounts) es := by
  intro h
  let _ := nonEmptyURLs
  let u : URL := ⟨"u.jpg", by decide⟩
  let db : Value := Node.null.set (profileRef "V" ++ ["userName"]) (Value.string "Vic")
  let es : List Event := [
    .registrate 0 ⟨some "Una", some "Poe", some "u@x", some "secret", some ⟨some [1]⟩⟩,
    .createUser 0 (some "U"), .createUserCallback 0, .signOut, .signIn "V",
    .putDataCallback 0 (some u), .commitCallback 0 true]
  let e : Event := .setValueCallback 0 true
  obtain ⟨s', hs', hp'⟩ := exists_of_run_any step (init db ["V"]) (es ++ [e])
    (fun s => (s.db.get (profileRef "V")).child "userName" = Value.string "Una") (by decide)
  obtain ⟨s, hs, hp⟩ := exists_of_run_any step (init db ["V"]) es
    (fun s => (s.db.get (profileRef "V")).child "userName" = Value.string "Vic" ∧
      (s.phase 0).account = some "U") (by decide)
  obtain ⟨m, hm, hstep⟩ := run_concat.mp hs'
  rw [hs] at hm; cases hm
  rw [decide_eq_true_iff] at hp hp'
  obtain ⟨hname, haccount⟩ := hp
  cases ha : s.phase 0 with
  | waiting a =>
    rw [ha] at haccount
    have hu : a.uId = "U" := Option.some.inj haccount
    have htarget := h db ["V"] _ es e [] rfl s s' hs hstep
    have hsame := htarget.others 0 true a "V" rfl ha (by rw [hu]; decide)
    rw [hsame, hname] at hp'
    exact absurd hp' (by decide)
  | idle | creating | created | ended => rw [ha] at haccount; cases haccount

end PostApp.SignUp
