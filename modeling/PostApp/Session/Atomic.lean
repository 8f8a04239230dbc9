import PostApp.Session.SignUp

/-! What a registration leaves behind when it has ended.

    The account is created first, and no later step takes it back: an image that does not encode, a
    failed upload or change request, nobody signed in, or a failed write of the profile each end the
    registration with an account that has no profile. Its profile node decodes exactly when the last
    step has stored it (`ended_by_outcome`). -/

namespace PostApp.SignUp
open Schemes
variable [URLSyntax]

/-- The node of the account is one that `observeUserProfile` decodes. -/
def HasProfile (db : Value) (uId : String) : Prop :=
  (observeUserProfile uId (snapshotAt (profileRef uId) db)).isSome = true

/-- Each account created since has a profile. -/
def Atomic (accounts : List String) (s : State) : Prop :=
  ∀ uId ∈ s.accounts, uId ∉ accounts → HasProfile s.db uId

def Phase.hasEnded : Phase → Bool
  | .ended => true
  | _ => false

theorem Phase.hasEnded_iff {ph : Phase} : ph.hasEnded = true ↔ ph = .ended := by
  cases ph <;> simp [Phase.hasEnded]

/-- The path of a request to write the profile. -/
def Asked.savesAt (a : Asked) : Option Path :=
  match a.request with
  | .setValue path _ => some path
  | _ => none

/-- The write of the account's profile was requested, and its completion reported success. -/
def Saves (n : ℕ) (es : List Event) (s : State) (uId : String) : Prop :=
  (∃ a ∈ s.requests, a.savesAt = some (profileRef uId)) ∧ .setValueCallback n true ∈ es

/-- The events of one registration; meanwhile the user may sign in and out. -/
def Event.Of (n : ℕ) : Event → Prop
  | .registrate m _ | .createUser m _ | .createUserCallback m | .putDataCallback m _
  | .commitCallback m _ | .setValueCallback m _ => m = n
  | .signIn _ | .signOut => True
  | .change _ _ => False

/-- No account was created and nothing stored; or one account was, and its profile decodes exactly when
    the last step has stored it, or the node was there before. -/
def Outcome (db : Value) (accounts : List String) (n : ℕ) (es : List Event) (s : State) : Prop :=
  (s.accounts = accounts ∧ s.db = db) ∨ ∃ uId, uId ∉ accounts ∧ s.accounts = uId :: accounts ∧
    (HasProfile s.db uId ↔ Saves n es s uId ∨ HasProfile db uId)

/-! ### One step -/

/-- The account exists, and nothing is stored yet. -/
structure Created (db : Value) (accounts : List String) (n : ℕ) (es : List Event) (s : State)
    (uId : String) : Prop where
  fresh : uId ∉ accounts
  accounts : s.accounts = uId :: accounts
  db : s.db = db
  unsaved : .setValueCallback n true ∉ es

/-- What the phase of the registration says about the state. -/
def Progress (db : Value) (accounts : List String) (n : ℕ) (es : List Event) (s : State) : Prop :=
  match s.phase n with
  | .idle | .creating _ =>
    s.accounts = accounts ∧ s.db = db ∧ s.requests = [] ∧ .setValueCallback n true ∉ es
  | .created _ uId => Created db accounts n es s uId ∧ s.requests = []
  | .waiting a => Created db accounts n es s a.uId ∧ a ∈ s.requests ∧
    (∀ b ∈ s.requests, b.savesAt ≠ none → b = a) ∧
    ∀ path value, a.request = .setValue path value → ∃ uId userName userSurname url,
      path = profileRef uId ∧ value = userObject userName userSurname url
  | .ended => Outcome db accounts n es s

section Step
variable {db : Value} {accounts : List String} {n : ℕ} {es : List Event} {s s' : State}

@[simp] theorem put_phase (s : State) (n : ℕ) (ph : Phase) : (s.put n ph).phase n = ph :=
  if_pos rfl

theorem Created.outcome {uId : String} (h : Created db accounts n es s uId) :
    Outcome db accounts n es s := by
  refine Or.inr ⟨uId, h.fresh, h.accounts, ?_⟩
  rw [h.db]
  exact (or_iff_right (fun hsaves => h.unsaved hsaves.2)).symm

theorem Created.concat {uId : String} {e : Event} (h : Created db accounts n es s uId)
    (he : e ≠ .setValueCallback n true) : Created db accounts n (es ++ [e]) s uId where
  fresh := h.fresh
  accounts := h.accounts
  db := h.db
  unsaved := by simp [h.unsaved, Ne.symm he]

/-- The next request, if there is one, is the only one that may write the profile. -/
theorem progress_proceed {r : Registration} {uId : String} {url : Option URL} {q : Option Request}
    (h : Created db accounts n es s uId) (hnone : ∀ b ∈ s.requests, b.savesAt = none)
    (hq : ∀ path value, q = some (.setValue path value) → ∃ uId userName userSurname url,
      path = profileRef uId ∧ value = userObject userName userSurname url) :
    Progress db accounts n es (s.proceed n r uId url q) := by
  cases q with
  | none =>
    simp only [Progress, State.proceed, put_phase]
    have hcreated : Created db accounts n es (s.proceed n r uId url none) uId :=
      ⟨h.fresh, h.accounts, h.db, h.unsaved⟩
    exact hcreated.outcome
  | some q =>
    simp only [Progress, State.proceed, put_phase]
    refine ⟨⟨h.fresh, h.accounts, h.db, h.unsaved⟩, by simp, ?_, ?_⟩
    · intro b hb hsaves
      rcases List.mem_append.mp hb with hb | hb
      · exact absurd (hnone b hb) hsaves
      · exact List.mem_singleton.mp hb
    · intro path value hreq
      exact hq path value (congrArg some hreq)

/-- While the only request that could write the profile is another one, none does. -/
theorem savesAt_of_only {requests : List Asked} {a : Asked}
    (honly : ∀ b ∈ requests, b.savesAt ≠ none → b = a) (ha : a.savesAt = none) :
    ∀ b ∈ requests, b.savesAt = none := by
  intro b hb
  by_contra hsaves
  rw [honly b hb hsaves] at hsaves
  exact hsaves ha

theorem setValue_of_uploadProfileImage {user : Option String} {image : Image} {path : Path}
    {value : Value} : uploadProfileImage user image ≠ some (.setValue path value) := by
  cases user with
  | none => simp [uploadProfileImage]
  | some u => cases h : image.jpegRepresentation <;> simp [uploadProfileImage, h]

theorem setValue_of_changeRequest {user : Option String} {userName userSurname : String} {url : URL}
    {path : Path} {value : Value} :
    changeRequest user userName userSurname url ≠ some (.setValue path value) := by
  cases user <;> simp [changeRequest]

theorem setValue_of_saveProfile {user : Option String} {userName userSurname : String} {url : URL}
    {path : Path} {value : Value}
    (h : saveProfile user userName userSurname url = some (.setValue path value)) :
    ∃ uId userName userSurname url, path = profileRef uId ∧
      value = userObject userName userSurname url := by
  obtain ⟨uId, -, heq⟩ := Option.bind_eq_some_iff.mp h
  cases heq
  exact ⟨uId, userName, userSurname, url, rfl, rfl⟩

/-- The stored object is a profile, and leaves other accounts' nodes as they were. -/
theorem hasProfile_set (db : Value) (uId user userName userSurname : String) (url : URL) :
    HasProfile (db.set (profileRef user) (userObject userName userSurname url)) uId ↔
      user = uId ∨ HasProfile db uId := by
  by_cases hu : user = uId
  · refine iff_of_true ?_ (Or.inl hu)
    refine Option.isSome_iff_exists.mpr ⟨⟨uId, userName, userSurname, url⟩, ?_⟩
    rw [observeUserProfile_iff, snapshotAt, hu, Node.get_set_self]
    exact decodeProfile_userObject uId userName userSurname url
  · have hap : Apart (profileRef user) (profileRef uId) := by simpa [profileRef, Apart] using hu
    rw [HasProfile, snapshotAt, Node.get_set_apart hap, or_iff_right hu]
    rfl

/-- The completion of the last step: the profile decodes exactly when it was stored at the account's
    own node. -/
theorem outcome_setValueCallback {a : Asked} {path : Path} {value : Value} {succeeded : Bool}
    (hs : Progress db accounts n es s) (hp : s.phase n = .waiting a)
    (hreq : a.request = .setValue path value) :
    Outcome db accounts n (es ++ [.setValueCallback n succeeded])
      { s.put n .ended with db := if succeeded then s.db.set path value else s.db } := by
  simp only [Progress, hp] at hs
  obtain ⟨hcreated, hmem, honly, hwrites⟩ := hs
  cases succeeded with
  | false => exact (hcreated.concat (by simp)).outcome
  | true =>
    refine Or.inr ⟨a.uId, hcreated.fresh, hcreated.accounts, ?_⟩
    obtain ⟨user, userName, userSurname, url, rfl, rfl⟩ := hwrites path value hreq
    have hsaves : Saves n (es ++ [.setValueCallback n true])
        { s.put n .ended with db := s.db.set (profileRef user) (userObject userName userSurname url) }
        a.uId ↔ user = a.uId := by
      have hat : a.savesAt = some (profileRef user) := by rw [Asked.savesAt, hreq]
      constructor
      · rintro ⟨⟨b, hb, hbat⟩, -⟩
        rw [honly b hb (by rw [hbat]; simp), hat] at hbat
        simpa [profileRef] using hbat
      · intro hu
        exact ⟨⟨a, hmem, by rw [hat, hu]⟩, by simp⟩
    simp only [↓reduceIte]
    rw [hsaves, ← hcreated.db]
    exact hasProfile_set s.db a.uId user userName userSurname url

theorem progress_sign {user : Option String} {e : Event} (he : e ≠ .setValueCallback n true)
    (hs : Progress db accounts n es s) :
    Progress db accounts n (es ++ [e]) { s with currentUser := user } := by
  cases hp : s.phase n with
  | idle | creating r =>
    simp only [Progress, hp] at hs ⊢
    simpa [Ne.symm he] using hs
  | created r uId =>
    simp only [Progress, hp] at hs ⊢
    have hc := hs.1.concat he
    exact ⟨⟨hc.fresh, hc.accounts, hc.db, hc.unsaved⟩, hs.2⟩
  | waiting a =>
    simp only [Progress, hp] at hs ⊢
    have hc := hs.1.concat he
    exact ⟨⟨hc.fresh, hc.accounts, hc.db, hc.unsaved⟩, hs.2⟩
  | ended =>
    simp only [Progress, hp, Outcome, Saves] at hs ⊢
    simpa [Ne.symm he] using hs

theorem progress_step {e : Event} (he : e.Of n) (hs : Progress db accounts n es s)
    (h : step s e = some s') : Progress db accounts n (es ++ [e]) s' := by
  cases e with
  | registrate m form =>
    obtain rfl : m = n := he
    rcases step_registrate h with ⟨hp, ⟨-, rfl⟩ | ⟨r, -, rfl⟩⟩
    · simp only [Progress, hp] at hs ⊢
      simpa using hs
    · simp only [Progress, hp] at hs
      simpa [Progress, State.put] using hs
  | createUser m result =>
    obtain rfl : m = n := he
    obtain ⟨r, hp, hs'⟩ := step_createUser h
    simp only [Progress, hp] at hs
    obtain ⟨haccounts, hdb, hrequests, hunsaved⟩ := hs
    rcases hs' with ⟨-, rfl⟩ | ⟨uId, -, hfresh, rfl⟩
    · simp only [Progress, put_phase]
      exact Or.inl ⟨haccounts, hdb⟩
    · rw [haccounts] at hfresh
      simp only [Progress, put_phase]
      exact ⟨⟨hfresh, congrArg (uId :: ·) haccounts, hdb, by simp [hunsaved]⟩, hrequests⟩
  | createUserCallback m =>
    obtain rfl : m = n := he
    obtain ⟨r, uId, hp, rfl⟩ := step_createUserCallback h
    simp only [Progress, hp] at hs
    refine progress_proceed (hs.1.concat (by simp)) (by simp [hs.2]) ?_
    intro path value hq
    exact absurd hq setValue_of_uploadProfileImage
  | putDataCallback m url =>
    obtain rfl : m = n := he
    obtain ⟨r, uId, _, _, _, hp, rfl⟩ := step_putDataCallback h
    simp only [Progress, hp] at hs
    obtain ⟨hcreated, -, honly, -⟩ := hs
    refine progress_proceed (hcreated.concat (by simp)) (savesAt_of_only honly rfl) ?_
    intro path value hq
    obtain ⟨url, -, hq⟩ := Option.bind_eq_some_iff.mp hq
    exact absurd hq setValue_of_changeRequest
  | commitCallback m succeeded =>
    obtain rfl : m = n := he
    obtain ⟨r, uId, url, _, hp, rfl⟩ := step_commitCallback h
    simp only [Progress, hp] at hs
    obtain ⟨hcreated, -, honly, -⟩ := hs
    refine progress_proceed (hcreated.concat (by simp)) (savesAt_of_only honly rfl) ?_
    intro path value hq
    split_ifs at hq
    exact setValue_of_saveProfile hq
  | setValueCallback m succeeded =>
    obtain rfl : m = n := he
    obtain ⟨r, uId, url, path, value, hp, rfl⟩ := step_setValueCallback h
    simp only [Progress, put_phase]
    exact outcome_setValueCallback hs hp rfl
  | signIn uId =>
    obtain ⟨-, rfl⟩ := step_signIn h
    exact progress_sign (by simp) hs
  | signOut => cases h; exact progress_sign (by simp) hs
  | change path value => exact he.elim

end Step

theorem progress_run {db : Value} {accounts : List String} {n : ℕ} {es : List Event} {s : State}
    (hes : ∀ e ∈ es, e.Of n) (hr : run step (init db accounts) es = some s) :
    Progress db accounts n es s := by
  suffices h : (∀ e ∈ es, e.Of n) → Progress db accounts n es s from h hes
  refine run_history (I := fun pre s => (∀ e ∈ pre, e.Of n) → Progress db accounts n pre s)
    ?_ ?_ hr
  · intro _
    exact ⟨rfl, rfl, rfl, List.not_mem_nil⟩
  · intro pre s e s' hs h hpre
    obtain ⟨hpre, he⟩ := List.forall_mem_append.mp hpre
    exact progress_step (he e (List.mem_singleton_self e)) (hs hpre) h

/-- However the steps of a registration succeed, fail or return early: when it has ended, or was never
    begun, no account was created and nothing stored, or one account was, whose profile decodes exactly
    when the last step has stored it. So the registration was atomic exactly when that step was reached
    and succeeded for the account it has created, if any. -/
theorem ended_by_outcome (db : Value) (accounts : List String) (n : ℕ) (es : List Event) (s : State)
    (hes : ∀ e ∈ es, e.Of n) (hr : run step (init db accounts) es = some s)
    (hend : s.phase n = .ended ∨ s.phase n = .idle) :
    Outcome db accounts n es s ∧
    (Atomic accounts s ↔
      ∀ uId ∈ s.accounts, uId ∉ accounts → Saves n es s uId ∨ HasProfile db uId) := by
  have hs := progress_run hes hr
  have houtcome : Outcome db accounts n es s := by
    rcases hend with hp | hp
    · simpa only [Progress, hp] using hs
    · simp only [Progress, hp] at hs
      exact Or.inl ⟨hs.1, hs.2.1⟩
  refine ⟨houtcome, forall₂_congr fun uId hu => forall_congr' fun hnew => ?_⟩
  rcases houtcome with ⟨haccounts, -⟩ | ⟨own, -, haccounts, hprofile⟩
  · exact absurd (haccounts ▸ hu) hnew
  · rw [haccounts] at hu
    obtain rfl : uId = own := (List.mem_cons.mp hu).resolve_right hnew
    exact hprofile

omit [URLSyntax] in
/-- The upload of the image fails: the account exists, and has no profile. -/
theorem account_without_profile : ¬ ∀ [URLSyntax] (db : Value) (accounts : List String) (n : ℕ)
    (es : List Event) (s : State), (∀ e ∈ es, e.Of n) → run step (init db accounts) es = some s →
    s.phase n = .ended ∨ s.phase n = .idle → Atomic accounts s := by
  intro h
  let _ := nonEmptyURLs
  let es : List Event := [
    .registrate 0 ⟨some "Una", some "Poe", some "u@x", some "secret", some ⟨some [1]⟩⟩,
    .createUser 0 (some "U"), .createUserCallback 0, .putDataCallback 0 none]
  have hes : ∀ e ∈ es, e.Of 0 := by simp [es, Event.Of]
  obtain ⟨s, hs, hp⟩ := exists_of_run_any step (init .null []) es
    (fun s => s.accounts = ["U"] ∧ s.db = .null ∧ (s.phase 0).hasEnded = true) (by decide)
  obtain ⟨haccounts, hdb, hended⟩ := decide_eq_true_iff.mp hp
  have hend : s.phase 0 = .ended := Phase.hasEnded_iff.mp hended
  have hprofile := h .null [] 0 es s hes hs (Or.inl hend) "U" (by simp [haccounts]) (by simp)
  rw [HasProfile, hdb] at hprofile
  exact absurd hprofile (by decide)

omit [URLSyntax] in
/-- Every step succeeds: the account has its profile. -/
theorem ended_by_outcome_saved : ∃ (_ : URLSyntax) (es : List Event) (s : State),
    run step (init .null []) es = some s ∧ s.accounts = ["U"] ∧ Atomic [] s := by
  let _ := nonEmptyURLs
  let es : List Event := [
    .registrate 0 ⟨some "Una", some "Poe", some "u@x", some "secret", some ⟨some [1]⟩⟩,
    .createUser 0 (some "U"), .createUserCallback 0, .putDataCallback 0 (some ⟨"u.jpg", by decide⟩),
    .commitCallback 0 true, .setValueCallback 0 true]
  have hes : ∀ e ∈ es, e.Of 0 := by simp [es, Event.Of]
  obtain ⟨s, hs, hp⟩ := exists_of_run_any step (init .null []) es
    (fun s => s.accounts = ["U"] ∧ (∃ a ∈ s.requests, a.savesAt = some (profileRef "U")) ∧
      (s.phase 0).hasEnded = true) (by decide)
  obtain ⟨haccounts, hrequest, hended⟩ := decide_eq_true_iff.mp hp
  have hend : s.phase 0 = .ended := Phase.hasEnded_iff.mp hended
  obtain ⟨-, hatomic⟩ := ended_by_outcome .null [] 0 es s hes hs (Or.inl hend)
  refine ⟨nonEmptyURLs, es, s, hs, haccounts, hatomic.mpr ?_⟩
  intro uId hu _
  rw [haccounts, List.mem_singleton] at hu
  exact Or.inl ⟨hu ▸ hrequest, by simp [es]⟩

end PostApp.SignUp
