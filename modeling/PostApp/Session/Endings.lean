import PostApp.Schemes.Settle
import PostApp.Session.Completion

/-! How registrations end.

    A registration receives five answers at most, and whatever the user and the other registrations do
    meanwhile, it is never stuck: as long as it has not ended, an answer can come
    (`registrations_end`). Until then its account can still get a profile, even after signing out; from
    then on, or if its image does not encode, it cannot (`obtainable_iff`). -/

namespace PostApp.SignUp
open Schemes
variable [URLSyntax]

/-- The answers that registration `n` waits for. -/
def Event.answers (n : ℕ) : Event → Bool
  | .createUser m _ | .createUserCallback m | .putDataCallback m _ | .commitCallback m _
  | .setValueCallback m _ => m == n
  | .registrate _ _ | .signIn _ | .signOut | .change _ _ => false

/-- The answers still to come, at most, once this request has been made. -/
def Request.left : Request → ℕ
  | .putData _ _ => 3
  | .commitChanges _ => 2
  | .setValue _ _ => 1

/-- The answers that a registration may still receive, at most. -/
def Phase.left : Phase → ℕ
  | .idle | .creating _ => 5
  | .created _ _ => 4
  | .waiting a => a.request.left
  | .ended => 0

/-- A change request has the URL of its upload: the save after it needs one. -/
def Located (s : State) : Prop :=
  ∀ n a changes, s.phase n = .waiting a → a.request = .commitChanges changes → a.url ≠ none

/-! ### Answers -/

section Answers
variable {s s' : State} {e : Event} {n : ℕ} {user : Option String} {q : Request}

theorem left_uploadProfileImage {image : Image} (h : uploadProfileImage user image = some q) :
    q.left = 3 := by
  obtain ⟨u, -, h⟩ := Option.bind_eq_some_iff.mp h
  obtain ⟨imageData, -, h⟩ := Option.bind_eq_some_iff.mp h
  cases h
  rfl

theorem left_changeRequest {userName userSurname : String} {url : URL}
    (h : changeRequest user userName userSurname url = some q) : q.left = 2 := by
  obtain ⟨u, -, h⟩ := Option.bind_eq_some_iff.mp h
  cases h
  rfl

theorem left_saveProfile {userName userSurname : String} {url : URL}
    (h : saveProfile user userName userSurname url = some q) : q.left = 1 := by
  obtain ⟨u, -, h⟩ := Option.bind_eq_some_iff.mp h
  cases h
  rfl

/-- A registration that goes on has as many answers to come as its next request. -/
theorem left_proceed {r : Registration} {uId : String} {url : Option URL} {oq : Option Request}
    {k : ℕ} (h : ∀ q, oq = some q → q.left = k) :
    ((s.proceed n r uId url oq).phase n).left ≤ k := by
  cases oq with
  | none =>
    simp only [State.proceed, put_phase]
    exact Nat.zero_le k
  | some q =>
    simp only [State.proceed, put_phase]
    exact (h q rfl).le

/-- Each answer is one that the registration was waiting for, and uses up one of those to come. -/
theorem answer_step (h : step s e = some s') (he : e.answers n = true) :
    s.phase n ≠ .idle ∧ (s'.phase n).left < (s.phase n).left := by
  cases e with
  | registrate | signIn | signOut | change => cases he
  | createUser m result =>
    obtain rfl : m = n := beq_iff_eq.mp he
    obtain ⟨r, hp, ⟨-, rfl⟩ | ⟨uId, -, -, rfl⟩⟩ := step_createUser h
    · simp [hp, Phase.left]
    · simp [hp, Phase.left]
  | createUserCallback m =>
    obtain rfl : m = n := beq_iff_eq.mp he
    obtain ⟨r, uId, hp, rfl⟩ := step_createUserCallback h
    refine ⟨by simp [hp], ?_⟩
    rw [hp]
    exact Nat.lt_succ_of_le (left_proceed fun q hq => left_uploadProfileImage hq)
  | putDataCallback m url =>
    obtain rfl : m = n := beq_iff_eq.mp he
    obtain ⟨r, uId, _, path, imageData, hp, rfl⟩ := step_putDataCallback h
    refine ⟨by simp [hp], ?_⟩
    rw [hp]
    refine Nat.lt_succ_of_le (left_proceed fun q hq => ?_)
    obtain ⟨url, -, hq⟩ := Option.bind_eq_some_iff.mp hq
    exact left_changeRequest hq
  | commitCallback m succeeded =>
    obtain rfl : m = n := beq_iff_eq.mp he
    obtain ⟨r, uId, url, changes, hp, rfl⟩ := step_commitCallback h
    refine ⟨by simp [hp], ?_⟩
    rw [hp]
    refine Nat.lt_succ_of_le (left_proceed fun q hq => ?_)
    split_ifs at hq
    exact left_saveProfile hq
  | setValueCallback m succeeded =>
    obtain rfl : m = n := beq_iff_eq.mp he
    obtain ⟨r, uId, url, path, value, hp, rfl⟩ := step_setValueCallback h
    simp [hp, Phase.left, Request.left]

/-- Nothing else uses up an answer. -/
theorem left_step (h : step s e = some s') (he : e.answers n = false) :
    (s'.phase n).left = (s.phase n).left := by
  by_cases hm : e.about = some n
  · cases e with
    | registrate m form =>
      cases hm
      rcases step_registrate h with ⟨hp, ⟨-, rfl⟩ | ⟨r, -, rfl⟩⟩
      · rfl
      · simp [hp, Phase.left]
    | createUser | createUserCallback | putDataCallback | commitCallback | setValueCallback =>
      cases hm
      simp [Event.answers] at he
    | signIn | signOut | change => cases hm
  · rw [phase_of_ne h hm]

/-- What has been answered and what is to come. -/
theorem answers_run {db : Value} {accounts : List String} {es : List Event} (n : ℕ)
    (hr : run step (init db accounts) es = some s) :
    (es.filter (Event.answers n)).length + (s.phase n).left ≤ 5 := by
  refine run_history (I := fun pre s => (pre.filter (Event.answers n)).length + (s.phase n).left ≤ 5)
    (Nat.le_refl 5) ?_ hr
  intro pre s e s' hs h
  rw [List.filter_append, List.length_append]
  cases he : e.answers n with
  | true =>
    have hlt := (answer_step h he).2
    rw [List.filter_cons_of_pos he, List.filter_nil, List.length_singleton]
    omega
  | false =>
    rw [left_step h he, List.filter_cons_of_neg (by simp [he])]
    simpa using hs

/-! ### No registration is stuck -/

theorem located_put {ph : Phase} (hs : Located s)
    (hph : ∀ a changes, ph = .waiting a → a.request = .commitChanges changes → a.url ≠ none) :
    Located (s.put n ph) := by
  intro m a changes hm
  simp only [State.put] at hm
  split_ifs at hm
  · exact hph a changes hm
  · exact hs m a changes hm

theorem located_proceed {r : Registration} {uId : String} {url : Option URL} {oq : Option Request}
    (hs : Located s) (h : ∀ q, oq = some q → q.left = 2 → url ≠ none) :
    Located (s.proceed n r uId url oq) := by
  cases oq with
  | none => exact located_put hs (by simp)
  | some q =>
    refine located_put hs ?_
    rintro a changes ha hreq
    cases ha
    exact h q rfl (by rw [show q = .commitChanges changes from hreq]; rfl)

theorem located_step (hs : Located s) (h : step s e = some s') : Located s' := by
  cases e with
  | registrate m form =>
    rcases step_registrate h with ⟨-, ⟨-, rfl⟩ | ⟨r, -, rfl⟩⟩
    · exact hs
    · exact located_put hs (by simp)
  | createUser m result =>
    obtain ⟨r, -, ⟨-, rfl⟩ | ⟨uId, -, -, rfl⟩⟩ := step_createUser h
    · exact located_put hs (by simp)
    · exact located_put hs (by simp)
  | createUserCallback m =>
    obtain ⟨r, uId, -, rfl⟩ := step_createUserCallback h
    refine located_proceed hs ?_
    intro q hq hleft
    exact absurd ((left_uploadProfileImage hq).symm.trans hleft) (by decide)
  | putDataCallback m url =>
    obtain ⟨r, uId, _, _, _, -, rfl⟩ := step_putDataCallback h
    refine located_proceed hs ?_
    -- without a URL there is no change request
    rintro q hq - rfl
    cases hq
  | commitCallback m succeeded =>
    obtain ⟨r, uId, url, _, -, rfl⟩ := step_commitCallback h
    exact located_proceed hs (by simp)
  | setValueCallback m succeeded =>
    obtain ⟨_, _, _, _, _, -, rfl⟩ := step_setValueCallback h
    exact located_put hs (by simp)
  | signIn uId =>
    obtain ⟨-, rfl⟩ := step_signIn h
    exact hs
  | signOut | change path value => cases h; exact hs

theorem located_run {db : Value} {accounts : List String} {es : List Event}
    (hr : run step (init db accounts) es = some s) : Located s :=
  run_invariant (fun _ _ _ h => (by cases h)) (fun _ _ _ => located_step) hr

/-- A registration under way can be answered: at worst the call has failed. -/
theorem answer_enabled (hs : Located s) (hidle : s.phase n ≠ .idle) (hended : s.phase n ≠ .ended) :
    ∃ e s', e.answers n = true ∧ step s e = some s' := by
  cases hp : s.phase n with
  | idle => exact absurd hp hidle
  | creating r => exact ⟨.createUser n none, _, by simp [Event.answers], by simp [step, hp]; rfl⟩
  | created r uId => exact ⟨.createUserCallback n, _, by simp [Event.answers], by simp [step, hp]; rfl⟩
  | waiting a =>
    obtain ⟨r, uId, url, q⟩ := a
    cases q with
    | putData path imageData =>
      exact ⟨.putDataCallback n none, _, by simp [Event.answers], by simp [step, hp]; rfl⟩
    | commitChanges changes =>
      obtain ⟨url, rfl⟩ := Option.ne_none_iff_exists'.mp (hs n _ changes hp rfl)
      exact ⟨.commitCallback n false, _, by simp [Event.answers], by simp [step, hp]; rfl⟩
    | setValue path value =>
      exact ⟨.setValueCallback n false, _, by simp [Event.answers], by simp [step, hp]; rfl⟩
  | ended => exact absurd hp hended

theorem answers_lower (n : ℕ) : Lowers step Located (fun e => e.answers n = true)
    (fun s => (s.phase n).left) where
  keeps := fun _ _ _ hs _ h => located_step hs h
  lower := fun _ _ _ _ he h => (answer_step h he).2

end Answers

/-- In every run, whatever happens between its steps, a registration receives five answers at most: the
    four completions of the source, and before the first of them the server's creation of the account. No
    answer can come to it exactly when it was not begun or has ended; and its own answers alone can bring it
    to its end. -/
theorem registrations_end (db : Value) (accounts : List String) (es : List Event) (s : State)
    (hr : run step (init db accounts) es = some s) (n : ℕ) :
    (es.filter (Event.answers n)).length ≤ 5 ∧
    ((∀ e, e.answers n = true → step s e = none) ↔ s.phase n = .idle ∨ s.phase n = .ended) ∧
    ∃ es' s', (∀ e ∈ es', e.answers n = true) ∧ run step s es' = some s' ∧
      (s'.phase n = .idle ∨ s'.phase n = .ended) := by
  have hlocated := located_run hr
  have hprogress : ∀ s, Located s → ¬ (s.phase n = .idle ∨ s.phase n = .ended) →
      ∃ e s', e.answers n = true ∧ step s e = some s' := by
    intro s hs hno
    obtain ⟨hidle, hended⟩ := not_or.mp hno
    exact answer_enabled hs hidle hended
  refine ⟨?_, ⟨?_, ?_⟩, (answers_lower n).exists_rest hprogress s hlocated⟩
  · have hle := answers_run n hr
    omega
  · intro hstuck
    by_contra hno
    obtain ⟨e, s', he, h⟩ := hprogress s hlocated hno
    rw [hstuck e he] at h
    cases h
  · intro hover e he
    by_contra hsome
    obtain ⟨s', h⟩ := Option.ne_none_iff_exists'.mp hsome
    obtain ⟨hidle, hlt⟩ := answer_step h he
    have hended := hover.resolve_left hidle
    rw [hended] at hlt
    exact absurd hlt (Nat.not_lt_zero _)

omit [URLSyntax] in
/-- U signs out during the upload and a second registration begins: both can be brought to their end. -/
theorem registrations_end_two : ∃ (_ : URLSyntax) (es : List Event) (s : State),
    run step (init .null []) es = some s ∧ s.currentUser = none ∧ ∀ n,
      ∃ es' s', (∀ e ∈ es', e.answers n = true) ∧ run step s es' = some s' ∧
        (s'.phase n = .idle ∨ s'.phase n = .ended) := by
  let _ := nonEmptyURLs
  let una : Form := ⟨some "Una", some "Poe", some "u@x", some "secret", some ⟨some [1]⟩⟩
  let wim : Form := ⟨some "Wim", some "Roe", some "w@x", some "secret", some ⟨some [2]⟩⟩
  let es : List Event := [.registrate 0 una, .createUser 0 (some "U"), .createUserCallback 0, .signOut,
    .registrate 1 wim]
  obtain ⟨s, hs, hp⟩ := exists_of_run_any step (init .null []) es
    (fun s => s.currentUser = none) (by decide)
  exact ⟨nonEmptyURLs, es, s, hs, decide_eq_true_iff.mp hp,
    fun n => (registrations_end .null [] es s hs n).2.2⟩

/-! ### Which accounts can still get a profile -/

/-- A continuation in which nobody else is signed in when a request is made and other writes stay
    elsewhere leads to a profile of the account. -/
def Obtainable (uId : String) (s : State) : Prop :=
  ∃ es s', Along step (fun _ s e _ => Own s e) s es ∧ (∀ e ∈ es, Elsewhere uId e) ∧
    run step s es = some s' ∧ HasProfile s'.db uId

section Obtain
variable {s s' : State} {e : Event} {n : ℕ} {uId : String} {r : Registration}

theorem Obtainable.cons (h : Obtainable uId s') (hs : step s e = some s') (hown : Own s e)
    (hels : Elsewhere uId e) : Obtainable uId s := by
  obtain ⟨es, t, halong, helses, hr, hprofile⟩ := h
  have hone : run step s [e] = some s' := by simp [run, hs]
  have hfirst : Along step (fun _ s e _ => Own s e) s [e] := by
    intro pre e' post hes m m' hm _
    cases pre with
    | nil =>
      obtain ⟨rfl, -⟩ := List.cons.inj hes
      cases hm
      exact hown
    | cons x pre => simp at hes
  refine ⟨e :: es, t, along_append hfirst hone halong, ?_, ?_, hprofile⟩
  · exact List.forall_mem_cons.mpr ⟨hels, helses⟩
  · rw [run, hs]
    exact hr

/-- The write of the profile succeeds. -/
theorem obtainable_setValue {a : Asked} {path : Path} {value : Value} (hp : s.phase n = .waiting a)
    (hreq : a.request = .setValue path value) (ha : a.OnTarget) : Obtainable a.uId s := by
  obtain ⟨r, uId, url, q⟩ := a
  obtain rfl : q = .setValue path value := hreq
  obtain ⟨hpath, url', -, hvalue⟩ := ha
  obtain rfl : path = profileRef uId := hpath
  obtain rfl : value = userObject r.userName r.userSurname url' := hvalue
  have hsaved : HasProfile (s.db.set (profileRef uId) (userObject r.userName r.userSurname url')) uId :=
    (hasProfile_set ..).mpr (Or.inl rfl)
  have hnothing : Obtainable uId { s.put n .ended with
      db := s.db.set (profileRef uId) (userObject r.userName r.userSurname url') } :=
    ⟨[], _, fun _ _ _ hes => (by simp at hes), by simp, rfl, hsaved⟩
  exact hnothing.cons (e := .setValueCallback n true) (by simp [step, hp]) trivial trivial

/-- The change request succeeds, and the profile is written. -/
theorem obtainable_commit {url : URL} {changes : ProfileChangeRequest}
    (hp : s.phase n = .waiting ⟨r, uId, some url, .commitChanges changes⟩)
    (huser : s.currentUser = some uId) : Obtainable uId s := by
  have hnext : Obtainable uId (s.proceed n r uId (some url)
      (saveProfile s.currentUser r.userName r.userSurname url)) := by
    rw [huser]
    refine obtainable_setValue (n := n) (a := ⟨r, uId, some url, _⟩) (put_phase ..) rfl ?_
    exact ⟨rfl, url, rfl, rfl⟩
  refine hnext.cons (e := .commitCallback n true) (by simp [step, hp]) ?_ trivial
  intro a ha user hu
  cases hp.symm.trans ha
  exact Option.some.inj (hu.symm.trans huser)

/-- The upload succeeds, and the registration goes on. -/
theorem obtainable_putData {old : Option URL} {path : Path} {imageData : List UInt8} (url : URL)
    (hp : s.phase n = .waiting ⟨r, uId, old, .putData path imageData⟩)
    (huser : s.currentUser = some uId) : Obtainable uId s := by
  have hnext : Obtainable uId (s.proceed n r uId (some url)
      (changeRequest s.currentUser r.userName r.userSurname url)) := by
    rw [huser]
    exact obtainable_commit (put_phase ..) huser
  refine hnext.cons (e := .putDataCallback n (some url)) (by simp [step, hp]) ?_ trivial
  intro a ha user hu
  cases hp.symm.trans ha
  exact Option.some.inj (hu.symm.trans huser)

/-- The account has been created, and the image encodes. -/
theorem obtainable_created (url : URL) (hp : s.phase n = .created r uId)
    (himage : r.image.jpegRepresentation ≠ none) (huser : s.currentUser = some uId) :
    Obtainable uId s := by
  obtain ⟨imageData, himage⟩ := Option.ne_none_iff_exists'.mp himage
  have hnext : Obtainable uId (s.proceed n r uId none
      (uploadProfileImage s.currentUser r.image)) := by
    rw [huser, uploadProfileImage, himage]
    exact obtainable_putData url (put_phase ..) huser
  refine hnext.cons (e := .createUserCallback n) (by simp [step, hp]) ?_ trivial
  intro r' u ha _ user hu
  cases hp.symm.trans ha
  exact Option.some.inj (hu.symm.trans huser)

end Obtain

/-- In every run in which each step of a registration finds nobody else signed in and everybody else
    writes elsewhere: an account that the run has created, and that has no profile, can still get one
    exactly as long as its registration is not over. -/
theorem obtainable_iff (db : Value) (accounts : List String) (es : List Event) (s : State)
    (uId : String) (n : ℕ) (url : URL) (hdb : ¬ HasProfile db uId)
    (hown : Along step (fun _ s e _ => Own s e) (init db accounts) es)
    (hels : ∀ e ∈ es, Elsewhere uId e) (hr : run step (init db accounts) es = some s)
    (hcreated : .createUser n (some uId) ∈ es) (hno : ¬ HasProfile s.db uId) :
    Obtainable uId s ↔ ¬ (s.phase n).Over := by
  have ht := tracked_run hdb hown hels hr
  constructor
  · rintro ⟨es', s', hown', hels', hr', hprofile⟩ hover
    have hall : run step (init db accounts) (es ++ es') = some s' := by
      rw [run_append, hr]
      exact hr'
    have helsall : ∀ e ∈ es ++ es', Elsewhere uId e := List.forall_mem_append.mpr ⟨hels, hels'⟩
    have ht' := tracked_run hdb (along_append hown hr hown') helsall hall
    exact never_profile ht ht' hr' hcreated hover hno hprofile
  · intro hover
    have htraced := ht.traced n
    have hlocated := located_run hr
    have haccount := ht.known n uId hcreated
    suffices h : Obtainable uId { s with currentUser := some uId } from
      h.cons (e := .signIn uId) (by simp [step, haccount]) trivial trivial
    cases hp : s.phase n with
    | idle =>
      rw [hp] at htraced
      exact absurd hcreated (htraced.1 uId)
    | creating r =>
      rw [hp] at htraced
      exact absurd ((htraced.created uId).mp hcreated) (by simp)
    | created r u =>
      rw [hp] at htraced hover
      obtain rfl := Option.some.inj ((htraced.created uId).mp hcreated)
      exact obtainable_created url hp hover rfl
    | waiting a =>
      rw [hp] at htraced
      obtain ⟨r, u, old, q⟩ := a
      obtain rfl : u = uId := Option.some.inj ((htraced.1.created uId).mp hcreated)
      have htarget := ht.faithful.requests _ (ht.faithful.asked n _ hp)
      cases q with
      | putData path imageData => exact obtainable_putData url hp rfl
      | commitChanges changes =>
        obtain ⟨url', rfl⟩ := Option.ne_none_iff_exists'.mp (hlocated n _ changes hp rfl)
        exact obtainable_commit hp rfl
      | setValue path value =>
        exact obtainable_setValue (s := { s with currentUser := some u }) hp rfl htarget
    | ended =>
      rw [hp] at hover
      exact absurd trivial hover

omit [URLSyntax] in
/-- U signs out during the upload: after signing in again the registration can be completed. -/
theorem obtainable_iff_signed_out : ∃ (_ : URLSyntax) (es : List Event) (s : State),
    run step (init .null []) es = some s ∧ s.currentUser = none ∧ ¬ HasProfile s.db "U" ∧
      Obtainable "U" s := by
  let _ := nonEmptyURLs
  let u : URL := ⟨"u.jpg", by decide⟩
  let una : Form := ⟨some "Una", some "Poe", some "u@x", some "secret", some ⟨some [1]⟩⟩
  let es : List Event := [.registrate 0 una, .createUser 0 (some "U"), .createUserCallback 0, .signOut]
  obtain ⟨s, hs, hp⟩ := exists_of_run_any step (init .null []) es
    (fun s => s.currentUser = none ∧ (s.phase 0).account = some "U" ∧
      (profileOf s.db "U").isSome = false) (by decide)
  obtain ⟨huser, haccount, hprofile⟩ := decide_eq_true_iff.mp hp
  have hown : Along step (fun _ s e _ => Own s e) (init .null []) es :=
    along_of_checks own_of_ownCheck (by decide)
  have hels : ∀ e ∈ es, Elsewhere "U" e := by simp [es, Elsewhere]
  have hdb : ¬ HasProfile .null "U" := by
    rw [HasProfile]
    decide
  have hno : ¬ HasProfile s.db "U" := by
    rw [HasProfile]
    simpa [profileOf] using hprofile
  have hover : ¬ (s.phase 0).Over := by
    cases hphase : s.phase 0 with
    | waiting a => exact id
    | idle | creating | created | ended => rw [hphase] at haccount; cases haccount
  exact ⟨nonEmptyURLs, es, s, hs, huser, hno,
    (obtainable_iff .null [] es s "U" 0 u hdb hown hels hs (by simp [es]) hno).mpr hover⟩

end PostApp.SignUp
