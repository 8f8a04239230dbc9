import PostApp.Model.Records
import PostApp.Schemes.Run
import PostApp.Schemes.Timeline

/-! The people lists of `AllPersonVC` and `MessageVC`.

    Both view controllers rebuild `users` at every value event and schedule a layout pass; both give
    a cell a button closure that keeps the row and looks the user up in whatever array is there at
    the tap. `users` is sorted by uid, so that lookup finds the person of the cell exactly when the
    person is still listed and as many smaller uids are listed as when the cell was set
    (`opens_shown_iff`). After a layout pass and before the next value event this is so
    (`taps_after_layout`). -/

namespace PostApp.PersonList
open Schemes
variable [URLSyntax]

inductive ViewController where
  | allPersonVC
  | messageVC
  deriving DecidableEq

/-- The array that `observeUsers` builds at an event. `MessageVC` gets events only if a profile is
    loaded; its snapshots are those of that user's chats. -/
def ViewController.observeUsers : ViewController → DataSnapshot → List UserProfile
  | allPersonVC => observePersons
  | messageVC => observePartners

/-- A visible cell: the user it was set to, and the row that its button closure keeps. -/
structure Cell where
  row : ℕ
  user : UserProfile
  deriving DecidableEq

structure State where
  users : List UserProfile
  cells : List Cell
  /-- the users whose private chat has been presented -/
  chats : List UserProfile
  /-- an index was out of range -/
  crashed : Bool
  deriving DecidableEq

inductive Event where
  | valueEvent (snapshot : DataSnapshot)
  | layout (rows : List ℕ)
  | chatButton (i : ℕ)
  deriving DecidableEq

def init : State := ⟨[], [], [], false⟩

def numberOfRowsInSection (s : State) : ℕ := s.users.length

def cellForRowAt (users : List UserProfile) (row : ℕ) : Option Cell :=
  users[row]?.map (fun user => ⟨row, user⟩)

/-- The button closure: it looks up its row in the present array. -/
def onButtonTap (s : State) (row : ℕ) : State :=
  match s.users[row]? with
  | some user => { s with chats := s.chats ++ [user] }
  | none => { s with crashed := true }

/-- A layout pass asks for the rows that are visible then, among those there are. -/
def step (vc : ViewController) (s : State) (e : Event) : Option State :=
  if s.crashed then none
  else
    match e with
    | .valueEvent snapshot => some { s with users := vc.observeUsers snapshot }
    | .layout rows =>
      if ∀ row ∈ rows, row < numberOfRowsInSection s then
        some { s with cells := rows.filterMap (cellForRowAt s.users) }
      else none
    | .chatButton i => s.cells[i]?.map (fun cell => onButtonTap s cell.row)

/-! ### What a step can do -/

section
variable {vc : ViewController} {s s' : State}

theorem step_valueEvent {snapshot : DataSnapshot} (h : step vc s (.valueEvent snapshot) = some s') :
    s.crashed = false ∧ s' = { s with users := vc.observeUsers snapshot } := by
  simp only [step] at h
  split_ifs at h with hc
  cases h
  exact ⟨Bool.eq_false_of_not_eq_true hc, rfl⟩

theorem step_layout {rows : List ℕ} (h : step vc s (.layout rows) = some s') :
    s.crashed = false ∧ s' = { s with cells := rows.filterMap (cellForRowAt s.users) } := by
  simp only [step] at h
  split_ifs at h with hc
  cases h
  exact ⟨Bool.eq_false_of_not_eq_true hc, rfl⟩

theorem step_chatButton {i : ℕ} (h : step vc s (.chatButton i) = some s') :
    s.crashed = false ∧ ∃ cell, s.cells[i]? = some cell ∧ s' = onButtonTap s cell.row := by
  simp only [step] at h
  split_ifs at h with hc
  obtain ⟨cell, hcell, rfl⟩ := Option.map_eq_some_iff.mp h
  exact ⟨Bool.eq_false_of_not_eq_true hc, cell, hcell, rfl⟩

theorem cellForRowAt_eq {users : List UserProfile} {row : ℕ} {cell : Cell} :
    cellForRowAt users row = some cell ↔ cell.row = row ∧ users[row]? = some cell.user := by
  rw [cellForRowAt, Option.map_eq_some_iff]
  constructor
  · rintro ⟨user, hu, rfl⟩
    exact ⟨rfl, hu⟩
  · rintro ⟨rfl, hu⟩
    exact ⟨cell.user, hu, rfl⟩

/-- A tap changes neither the array nor the cells. -/
theorem onButtonTap_users (s : State) (row : ℕ) :
    (onButtonTap s row).users = s.users ∧ (onButtonTap s row).cells = s.cells := by
  unfold onButtonTap
  split <;> exact ⟨rfl, rfl⟩

/-! ### The array -/

/-- Both readers take the key of the child as the uid. -/
theorem uIds_sorted {decode : DataSnapshot → Option UserProfile}
    (hkey : ∀ c p, decode c = some p → p.uId = c.key) (snapshot : DataSnapshot) :
    ((collect decode snapshot.children).map UserProfile.uId).Pairwise (· < ·) := by
  rw [collect_eq_filterMap, List.pairwise_map]
  refine List.Pairwise.filterMap _ ?_ snapshot.children_sorted
  intro c c' hlt p hp p' hp'
  rwa [hkey c p hp, hkey c' p' hp']

theorem observeUsers_sorted (vc : ViewController) (snapshot : DataSnapshot) :
    ((vc.observeUsers snapshot).map UserProfile.uId).Pairwise (· < ·) := by
  cases vc with
  | allPersonVC =>
    refine uIds_sorted ?_ snapshot
    intro c p hp
    rw [personOf_eq, observeUserProfile_iff] at hp
    exact (decodeProfile_fields.mp hp).1
  | messageVC =>
    refine uIds_sorted ?_ snapshot
    intro c p hp
    exact (decodeProfile_fields.mp (partnerOf_iff.mp hp)).1

/-- The array is in the order of the uids, each of them once. -/
def Sorted (s : State) : Prop := (s.users.map UserProfile.uId).Pairwise (· < ·)

theorem sorted_init : Sorted init := List.Pairwise.nil

theorem sorted_step {e : Event} (hs : Sorted s) (h : step vc s e = some s') : Sorted s' := by
  cases e with
  | valueEvent snapshot =>
    obtain ⟨-, rfl⟩ := step_valueEvent h
    exact observeUsers_sorted vc snapshot
  | layout rows =>
    obtain ⟨-, rfl⟩ := step_layout h
    exact hs
  | chatButton i =>
    obtain ⟨-, cell, -, rfl⟩ := step_chatButton h
    rw [Sorted, (onButtonTap_users s cell.row).1]
    exact hs

/-! ### The taps -/

/-- A tap opens the chat with the person whom the cell shows, at an index inside the array. -/
def OpensShown (_ : List Event) (s : State) : Event → State → Prop
  | .chatButton i, s' => ∀ cell, s.cells[i]? = some cell → cell.row < s.users.length ∧
      s'.crashed = false ∧ ∃ user, s'.chats = s.chats ++ [user] ∧ user.uId = cell.user.uId
  | _, _ => True

/-- At a tap the person whom the cell shows is listed, after as many others as when it was set. -/
def StillInPlace (_ : List Event) (s : State) : Event → State → Prop
  | .chatButton i, _ => ∀ cell, s.cells[i]? = some cell →
      cell.user.uId ∈ s.users.map UserProfile.uId ∧
        rank (s.users.map UserProfile.uId) cell.user.uId = cell.row
  | _, _ => True

/-- What a tap does when the array has the row, and when it has not. -/
theorem onButtonTap_opens {row : ℕ} {uId : String} (hc : s.crashed = false) :
    (row < s.users.length ∧ (onButtonTap s row).crashed = false ∧
      ∃ user, (onButtonTap s row).chats = s.chats ++ [user] ∧ user.uId = uId) ↔
      (s.users.map UserProfile.uId)[row]? = some uId := by
  rw [List.getElem?_map, Option.map_eq_some_iff]
  constructor
  · rintro ⟨hlt, -, user, hchats, rfl⟩
    rw [onButtonTap, List.getElem?_eq_getElem hlt] at hchats
    have hlast := List.append_cancel_left hchats
    rw [← List.singleton_inj.mp hlast]
    exact ⟨_, List.getElem?_eq_getElem hlt, rfl⟩
  · rintro ⟨user, huser, rfl⟩
    rw [onButtonTap, huser]
    exact ⟨(List.getElem?_eq_some_iff.mp huser).1, hc, user, rfl, rfl⟩

theorem opens_step {pre : List Event} {e : Event} (hs : Sorted s) (h : step vc s e = some s') :
    OpensShown pre s e s' ↔ StillInPlace pre s e s' := by
  cases e with
  | valueEvent snapshot => exact Iff.rfl
  | layout rows => exact Iff.rfl
  | chatButton i =>
    obtain ⟨hc, cell, hcell, rfl⟩ := step_chatButton h
    refine forall₂_congr ?_
    intro cell' hcell'
    rw [hcell] at hcell'
    cases hcell'
    rw [onButtonTap_opens hc, getElem?_iff_rank hs]

/-- In every run of value events, layout passes and taps, in both view controllers: every tap opens
    the chat with the person whom the cell shows, and no index is out of range, exactly when at every
    tap this person is still listed and has as many persons listed before as when the cell was set. -/
theorem opens_shown_iff (vc : ViewController) (es : List Event) :
    Along (step vc) OpensShown init es ↔ Along (step vc) StillInPlace init es := by
  refine along_congr (I := fun _ => Sorted) sorted_init ?_ ?_
  · intro pre s e s' hs h
    exact opens_step hs h
  · intro pre s e s' hs h _
    exact sorted_step hs h

/-- Every cell shows the user who stands in its row now. -/
def Fresh (s : State) : Prop := ∀ cell ∈ s.cells, s.users[cell.row]? = some cell.user

theorem fresh_layout {rows : List ℕ} (h : step vc s (.layout rows) = some s') : Fresh s' := by
  obtain ⟨-, rfl⟩ := step_layout h
  intro cell hcell
  obtain ⟨row, -, hrow⟩ := List.mem_filterMap.mp hcell
  obtain ⟨rfl, huser⟩ := cellForRowAt_eq.mp hrow
  exact huser

/-- Only a value event leaves cells behind. -/
theorem fresh_step {e : Event} (hs : Fresh s) (h : step vc s e = some s')
    (he : ∀ snapshot, e ≠ .valueEvent snapshot) : Fresh s' := by
  cases e with
  | valueEvent snapshot => exact absurd rfl (he snapshot)
  | layout rows => exact fresh_layout h
  | chatButton i =>
    obtain ⟨-, cell, -, rfl⟩ := step_chatButton h
    obtain ⟨husers, hcells⟩ := onButtonTap_users s cell.row
    rw [Fresh, husers, hcells]
    exact hs

theorem fresh_run {es : List Event} (hs : Fresh s) (hr : run (step vc) s es = some s')
    (hes : ∀ snapshot, .valueEvent snapshot ∉ es) : Fresh s' := by
  induction es generalizing s with
  | nil =>
    cases hr
    exact hs
  | cons e es ih =>
    obtain ⟨m, hm, hr⟩ := Option.bind_eq_some_iff.mp hr
    have he : ∀ snapshot, e ≠ .valueEvent snapshot := by
      rintro snapshot rfl
      exact hes snapshot (List.mem_cons_self ..)
    refine ih (fresh_step hs hm he) hr ?_
    intro snapshot hmem
    exact hes snapshot (List.mem_cons_of_mem _ hmem)

/-- A cell that has just been set keeps the number of persons listed before its own. -/
theorem stillInPlace_of_fresh {pre : List Event} {e : Event} (hs : Sorted s) (hf : Fresh s) :
    StillInPlace pre s e s' := by
  cases e with
  | valueEvent snapshot => trivial
  | layout rows => trivial
  | chatButton i =>
    intro cell hcell
    refine (getElem?_iff_rank hs).mp ?_
    rw [List.getElem?_map, hf cell (List.mem_of_getElem? hcell)]
    rfl

/-- Between a layout pass and the next value event every tap is right. -/
theorem taps_after_layout {pre mid : List Event} {rows : List ℕ} {e : Event}
    (hr : run (step vc) init (pre ++ .layout rows :: mid) = some s)
    (hmid : ∀ snapshot, .valueEvent snapshot ∉ mid) (h : step vc s e = some s') :
    OpensShown (pre ++ .layout rows :: mid) s e s' := by
  have hs : Sorted s := run_invariant sorted_init (fun _ _ _ hs h => sorted_step hs h) hr
  rw [run_append] at hr
  obtain ⟨m, -, hr⟩ := Option.bind_eq_some_iff.mp hr
  obtain ⟨m', hm', hr⟩ := Option.bind_eq_some_iff.mp hr
  exact (opens_step hs h).mpr (stillInPlace_of_fresh hs (fresh_run (fresh_layout hm') hr hmid))

omit [URLSyntax] in
/-- Ann registers while the list shows Bob; the tap on Bob's cell comes before the layout pass. -/
theorem chat_with_another : ¬ ∀ [URLSyntax] (vc : ViewController) (es : List Event),
    Along (step vc) OpensShown init es := by
  intro h
  let _ := nonEmptyURLs
  let profiles : Value := Node.null.insert "B" (userObject "Bob" "Ray" bob.photoURL)
  let registered : Value := profiles.insert "A" (userObject "Ann" "Lee" ann.photoURL)
  let es : List Event := [.valueEvent ⟨["users", "profile"], profiles⟩, .layout [0],
    .valueEvent ⟨["users", "profile"], registered⟩]
  obtain ⟨s', hs', hp⟩ := exists_of_run_any (step .allPersonVC) init (es ++ [.chatButton 0])
    (fun s => s.cells = [⟨0, bob⟩] ∧ s.chats = [ann]) (by decide)
  obtain ⟨hcells, hchats⟩ := of_decide_eq_true hp
  obtain ⟨s, hs, htap⟩ := run_concat.mp hs'
  have hopens := h .allPersonVC (es ++ [.chatButton 0]) es (.chatButton 0) [] rfl s s' hs htap
  obtain ⟨-, cell, -, rfl⟩ := step_chatButton htap
  rw [(onButtonTap_users s cell.row).2] at hcells
  obtain ⟨-, -, user, hlast, huser⟩ := hopens ⟨0, bob⟩ (by rw [hcells]; rfl)
  rw [hchats] at hlast
  have hann : [user] <:+ [ann] := ⟨_, hlast.symm⟩
  rw [List.mem_singleton.mp (hann.subset (List.mem_singleton_self user))] at huser
  exact absurd huser (by decide)

end

end PostApp.PersonList
