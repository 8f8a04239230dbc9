import PostApp.Images.ImageService

/-! The views that show a user's photo.

    A cell is set to one user after another, and the completion of each `getImage` writes the photo
    into its image view. `ProfileVC` keeps the image in a field that `viewDidLoad` reads, once. No
    completion looks at the user the view shows by now, so the photo is the right one exactly when the
    completions of the view run in the order of its set calls, and for `ProfileVC` before
    `viewDidLoad` (`photo_current_iff`). -/

namespace PostApp.Photo
open Schemes PostApp.ImageService
variable [URLSyntax]

inductive View where
  | postTableViewCell
  | personCell
  | profileVC
  deriving DecidableEq

/-- The methods that set a view to a user. -/
inductive SetCall where
  | setPost (post : Post)
  | setUser (user : UserProfile)
  | currentUser (currentUserProfile : Option UserProfile)

/-- The URL the method asks `ImageService` for; `currentUser` needs a profile. -/
def SetCall.photoURL : SetCall → Option URL
  | .setPost post => some post.author.photoURL
  | .setUser user => some user.photoURL
  | .currentUser currentUserProfile => currentUserProfile.map UserProfile.photoURL

/-- Images stand with the call whose completion has set them. -/
structure State (Image : Type) where
  service : ImageService.State Image
  /-- the requests of the view's own set calls, oldest first -/
  sets : List Call
  /-- `ProfileVC.image` -/
  image : Option (Call × Option Image)
  /-- the image of the image view on the screen -/
  shown : Option (Call × Option Image)
  loaded : Bool

inductive Event (Data : Type) where
  | set (c : SetCall)
  | viewDidLoad
  /-- a handler, a block of the main queue, an eviction or a request made elsewhere -/
  | service (e : ImageService.Event Data)

variable {Data Image : Type}

def init : State Image := ⟨ImageService.init, [], none, none, false⟩

/-- A set call makes the view's next request. -/
def State.ask (s : State Image) (call : Call) : State Image := { s with sets := s.sets ++ [call] }

@[simp] theorem ask_sets (s : State Image) (call : Call) : (s.ask call).sets = s.sets ++ [call] := rfl
@[simp] theorem ask_service (s : State Image) (call : Call) : (s.ask call).service = s.service := rfl

/-- The completions that the set calls pass to `getImage`. -/
def State.complete (view : View) (s : State Image) (c : Call × Option Image) : State Image :=
  match view with
  | .postTableViewCell | .personCell => { s with shown := some c }
  | .profileVC => { s with image := some c }

/-- The service moves on; completions of the view's own requests reach the view. -/
def State.serve (view : View) (s : State Image) (service : ImageService.State Image) :
    State Image :=
  ((service.completed.drop s.service.completed.length).filter (fun c => c.1 ∈ s.sets)).foldl
    (State.complete view) { s with service := service }

def step (view : View) (imageOfData : Data → Option Image) (s : State Image) :
    Event Data → Option (State Image)
  | .set c =>
    match c.photoURL with
    | none => some s
    | some url =>
      let call := s.service.next url
      some ((s.ask call).serve view (s.service.getImage call))
  | .viewDidLoad =>
    if view = .profileVC ∧ s.loaded = false then
      some { s with shown := s.image, loaded := true }
    else
      none
  | .service e => (ImageService.step imageOfData s.service e).map (s.serve view)

/-! ### Specification -/

/-- Where the completions of the view write. -/
def State.field (view : View) (s : State Image) : Option (Call × Option Image) :=
  match view with
  | .postTableViewCell | .personCell => s.shown
  | .profileVC => s.image

/-- No completion of an earlier set call replaces the image of a later one. -/
def Keeps (view : View) (s s' : State Image) : Prop :=
  ∀ c ∈ s.field view, ∀ c' ∈ s'.field view, c.1.id ≤ c'.1.id

/-- When no request of the view is pending, the image shown was obtained for the URL of the last set
    call. -/
def Current (view : View) (s : State Image) : Prop :=
  ∀ last ∈ s.sets.getLast?, (∀ d ∈ s.sets, d ∉ s.service.pending) →
    (view = .profileVC → s.loaded = true) →
    ∃ c ∈ s.shown, c.1.url = last.url ∧ c ∈ s.service.completed

/-- The set call whose completion runs in this step. -/
def completing (s : State Image) : Event Data → Option Call
  | .set c => c.photoURL.bind (fun url => (s.service.cache url.absoluteString).map
      (fun _ => s.service.next url))
  | .service .main => s.service.main.head?.bind (fun c => if c.1 ∈ s.sets then some c.1 else none)
  | _ => none

/-- No later set call has completed yet. -/
def InOrder (s : State Image) (c : Call) : Prop :=
  ∀ d ∈ s.sets, c.id < d.id → d ∉ s.service.completed.map Prod.fst

/-- The last completion after `viewDidLoad` finds an image of its own URL already shown. -/
def InTime (view : View) (s : State Image) (c : Call) : Prop :=
  view = .profileVC → s.loaded = true → (∀ d ∈ s.sets, d ∈ s.service.pending → d = c) →
    ∃ shown ∈ s.shown, shown.1.url = c.url

def CompletesRight (view : View) (s : State Image) (e : Event Data) : Prop :=
  ∀ c ∈ completing s e, InOrder s c ∧ InTime view s c

/-! ### One step -/

structure Inv (view : View) (s : State Image) : Prop where
  counted : Counted s.service
  sets : s.sets.Sublist s.service.calls
  own : ∀ c ∈ s.field view, c.1 ∈ s.sets ∧ c ∈ s.service.completed
  newest : ∀ d ∈ s.sets, d ∈ s.service.completed.map Prod.fst → ∃ c ∈ s.field view, d.id ≤ c.1.id
  shown : ∀ c ∈ s.shown, c ∈ s.service.completed
  current : Current view s

theorem inv_init (view : View) : Inv view (init : State Image) where
  counted := counted_init
  sets := List.Sublist.refl _
  own := by cases view <;> exact nofun
  newest := fun _ h => (List.not_mem_nil h).elim
  shown := nofun
  current := nofun

/-- The view's last set call is its newest. -/
theorem Inv.le_last {view : View} {s : State Image} (hs : Inv view s) {last : Call}
    (hlast : last ∈ s.sets.getLast?) {d : Call} (hd : d ∈ s.sets) : d.id ≤ last.id := by
  obtain ⟨pre, hsets⟩ := List.getLast?_eq_some_iff.mp hlast
  have hordered := hs.counted.ordered.sublist hs.sets
  rw [hsets] at hd hordered
  rcases List.mem_append.mp hd with hd | hd
  · exact le_of_lt ((List.pairwise_append.mp hordered).2.2 d hd last (List.mem_singleton_self _))
  · rw [List.mem_singleton.mp hd]

theorem Inv.id_lt {view : View} {s : State Image} (hs : Inv view s) {d : Call} (hd : d ∈ s.sets) :
    d.id < s.service.calls.length :=
  hs.counted.id_lt (hs.sets.subset hd)

theorem Inv.completed_iff {view : View} {s : State Image} (hs : Inv view s) {d : Call}
    (hd : d ∈ s.sets) : d ∈ s.service.completed.map Prod.fst ↔ d ∉ s.service.pending :=
  hs.counted.completed_iff (hs.sets.subset hd)

/-- The step runs the completion of the set call `c.1`. -/
structure Completes (view : View) (s s' : State Image) (c : Call × Option Image) : Prop where
  counted : Counted s'.service
  sets : s'.sets = s.sets ∧ c.1 ∈ s.sets ∨
    s'.sets = s.sets ++ [c.1] ∧ c.1.id = s.service.calls.length
  calls : s'.sets.Sublist s'.service.calls
  completed : s'.service.completed = s.service.completed ++ [c]
  pending : ∀ d ∈ s.sets, d ∈ s'.service.pending ↔ d ∈ s.service.pending ∧ d ≠ c.1
  field : s'.field view = some c
  shown : view = .profileVC → s'.shown = s.shown ∧ s'.loaded = s.loaded

theorem Completes.mem_sets {view : View} {s s' : State Image} {c : Call × Option Image}
    (h : Completes view s s' c) {d : Call} : d ∈ s'.sets ↔ d ∈ s.sets ∨ d = c.1 := by
  rcases h.sets with ⟨hsets, hc⟩ | ⟨hsets, -⟩
  · rw [hsets]
    refine ⟨Or.inl, ?_⟩
    rintro (hd | rfl)
    · exact hd
    · exact hc
  · simp [hsets]

/-- The completion of a cell writes what is shown. -/
theorem Completes.shown_eq {view : View} {s s' : State Image} {c : Call × Option Image}
    (h : Completes view s s' c) (hview : view ≠ .profileVC) : s'.shown = some c := by
  have hfield := h.field
  cases view with
  | profileVC => exact absurd rfl hview
  | postTableViewCell | personCell => exact hfield

/-- A completion keeps the images of later set calls exactly when it runs in order. -/
theorem keeps_iff {view : View} {s s' : State Image} {c : Call × Option Image} (hs : Inv view s)
    (h : Completes view s s' c) : Keeps view s s' ↔ InOrder s c.1 := by
  simp only [Keeps, h.field, Option.mem_some_iff]
  constructor
  · intro hkeep d hd hlt hdone
    obtain ⟨m, hm, hle⟩ := hs.newest d hd hdone
    have := hkeep m hm c rfl
    omega
  · rintro horder m hm _ rfl
    obtain ⟨hmem, hdone⟩ := hs.own m hm
    by_contra hlt
    exact horder m.1 hmem (by omega) (List.mem_map_of_mem hdone)

/-- In order, and nothing left to come: the completion was that of the last set call. -/
theorem eq_last {view : View} {s s' : State Image} {c : Call × Option Image} (hs : Inv view s)
    (h : Completes view s s' c) (horder : InOrder s c.1) {last : Call}
    (hlast : last ∈ s'.sets.getLast?) (hquiet : ∀ d ∈ s'.sets, d ∉ s'.service.pending) :
    last = c.1 := by
  obtain ⟨pre, hsets⟩ := List.getLast?_eq_some_iff.mp hlast
  have hmem : last ∈ s'.sets := by simp [hsets]
  by_contra hne
  have hold : last ∈ s.sets := (h.mem_sets.mp hmem).resolve_right hne
  have hdone : last ∈ s.service.completed.map Prod.fst :=
    (hs.completed_iff hold).mpr (fun hp => hquiet last hmem ((h.pending last hold).mpr ⟨hp, hne⟩))
  have hnot : ¬ c.1.id < last.id := fun hlt => horder last hold hlt hdone
  have hordered := h.counted.ordered.sublist h.calls
  rw [hsets] at hordered
  have hc : c.1 ∈ pre := by
    have hc := h.mem_sets.mpr (Or.inr rfl)
    rw [hsets] at hc
    exact (List.mem_append.mp hc).resolve_right (fun hc => hne (List.mem_singleton.mp hc).symm)
  exact hnot ((List.pairwise_append.mp hordered).2.2 c.1 hc last (List.mem_singleton_self _))

/-- A completion in order leaves the right image exactly when it runs in time. -/
theorem current_iff {view : View} {s s' : State Image} {c : Call × Option Image} (hs : Inv view s)
    (h : Completes view s s' c) (horder : InOrder s c.1) : Current view s' ↔ InTime view s c.1 := by
  have hdone : c ∈ s'.service.completed := by simp [h.completed]
  have hown : c.1 ∉ s'.service.pending :=
    (h.counted.completed_iff (h.calls.subset (h.mem_sets.mpr (Or.inr rfl)))).mp
      (List.mem_map_of_mem hdone)
  have hquiet : (∀ d ∈ s'.sets, d ∉ s'.service.pending) ↔
      ∀ d ∈ s.sets, d ∈ s.service.pending → d = c.1 := by
    constructor
    · intro hq d hd hp
      by_contra hne
      exact hq d (h.mem_sets.mpr (Or.inl hd)) ((h.pending d hd).mpr ⟨hp, hne⟩)
    · intro hq d hd hp
      rcases h.mem_sets.mp hd with hd | rfl
      · obtain ⟨hp, hne⟩ := (h.pending d hd).mp hp
        exact hne (hq d hd hp)
      · exact hown hp
  by_cases hview : view = .profileVC
  · obtain ⟨hshown, hloaded⟩ := h.shown hview
    constructor
    · intro hcur _ hl hq
      obtain ⟨last, hlast⟩ : ∃ last, s'.sets.getLast? = some last := by
        refine Option.isSome_iff_exists.mp (List.getLast?_isSome.mpr ?_)
        exact List.ne_nil_of_mem (h.mem_sets.mpr (Or.inr rfl))
      obtain ⟨m, hm, hurl, -⟩ := hcur last hlast (hquiet.mpr hq) (fun _ => hloaded.trans hl)
      rw [hshown] at hm
      rw [eq_last hs h horder hlast (hquiet.mpr hq)] at hurl
      exact ⟨m, hm, hurl⟩
    · intro htime last hlast hq hl
      obtain ⟨m, hm, hurl⟩ := htime hview (hloaded ▸ hl hview) (hquiet.mp hq)
      rw [eq_last hs h horder hlast hq, hshown, h.completed]
      exact ⟨m, hm, hurl, List.mem_append_left _ (hs.shown m hm)⟩
  · refine iff_of_true ?_ (fun hv => absurd hv hview)
    intro last hlast hq _
    have hurl := congrArg Call.url (eq_last hs h horder hlast hq).symm
    exact ⟨c, h.shown_eq hview, hurl, hdone⟩

theorem Completes.inv {view : View} {s s' : State Image} {c : Call × Option Image}
    (hs : Inv view s) (h : Completes view s s' c) (hkeep : Keeps view s s')
    (hcur : Current view s') : Inv view s' where
  counted := h.counted
  sets := h.calls
  own := by
    intro d hd
    rw [h.field] at hd
    obtain rfl : c = d := Option.mem_some_iff.mp hd
    exact ⟨h.mem_sets.mpr (Or.inr rfl), by simp [h.completed]⟩
  newest := by
    intro d hd hdone
    refine ⟨c, h.field, ?_⟩
    by_contra hlt
    rw [h.completed, List.map_append, List.mem_append] at hdone
    rcases hdone with hdone | hdone
    · rcases h.mem_sets.mp hd with hd | rfl
      · exact (keeps_iff hs h).mp hkeep d hd (by omega) hdone
      · exact hlt le_rfl
    · obtain rfl : d = c.1 := List.mem_singleton.mp hdone
      exact hlt le_rfl
  shown := by
    intro d hd
    rw [h.completed]
    by_cases hview : view = .profileVC
    · rw [(h.shown hview).1] at hd
      exact List.mem_append_left _ (hs.shown d hd)
    · rw [h.shown_eq hview] at hd
      obtain rfl : c = d := Option.mem_some_iff.mp hd
      simp
  current := hcur

@[simp] theorem complete_service (view : View) (s : State Image) (c : Call × Option Image) :
    (s.complete view c).service = s.service := by cases view <;> rfl

@[simp] theorem complete_sets (view : View) (s : State Image) (c : Call × Option Image) :
    (s.complete view c).sets = s.sets := by cases view <;> rfl

@[simp] theorem complete_loaded (view : View) (s : State Image) (c : Call × Option Image) :
    (s.complete view c).loaded = s.loaded := by cases view <;> rfl

@[simp] theorem complete_field (view : View) (s : State Image) (c : Call × Option Image) :
    (s.complete view c).field view = some c := by cases view <;> rfl

theorem complete_shown {view : View} (hview : view = .profileVC) (s : State Image)
    (c : Call × Option Image) : (s.complete view c).shown = s.shown := by rw [hview]; rfl

theorem serve_others (view : View) {s : State Image} {service : ImageService.State Image}
    {new : List (Call × Option Image)} (hcompleted : service.completed = s.service.completed ++ new)
    (hnew : ∀ c ∈ new, c.1 ∉ s.sets) : s.serve view service = { s with service := service } := by
  have hnone : new.filter (fun c => c.1 ∈ s.sets) = [] :=
    List.filter_eq_nil_iff.mpr (fun c hc => by simpa using hnew c hc)
  rw [State.serve, hcompleted, List.drop_left, hnone]
  rfl

theorem serve_own (view : View) {s : State Image} {service : ImageService.State Image}
    {c : Call × Option Image} (hcompleted : service.completed = s.service.completed ++ [c])
    (hc : c.1 ∈ s.sets) : s.serve view service = { s with service := service }.complete view c := by
  rw [State.serve, hcompleted, List.drop_left, List.filter_cons_of_pos (by simpa using hc)]
  rfl

/-- What the service does for others leaves the view alone. -/
theorem inv_others {view : View} {s : State Image} {service : ImageService.State Image}
    {new : List (Call × Option Image)} (hs : Inv view s) (hcount : Counted service)
    (hcalls : s.service.calls <+: service.calls)
    (hcompleted : service.completed = s.service.completed ++ new) (hnew : ∀ c ∈ new, c.1 ∉ s.sets)
    (hpending : ∀ d ∈ s.sets, d ∈ service.pending ↔ d ∈ s.service.pending) :
    Inv view { s with service := service } where
  counted := hcount
  sets := hs.sets.trans hcalls.sublist
  own := by
    intro c hc
    have hc : c ∈ s.field view := by cases view <;> exact hc
    obtain ⟨hmem, hdone⟩ := hs.own c hc
    exact ⟨hmem, hcompleted ▸ List.mem_append_left _ hdone⟩
  newest := by
    intro d hd hdone
    have hdone : d ∈ service.completed.map Prod.fst := hdone
    rw [hcompleted, List.map_append, List.mem_append] at hdone
    rcases hdone with hdone | hdone
    · obtain ⟨c, hc, hle⟩ := hs.newest d hd hdone
      exact ⟨c, by cases view <;> exact hc, hle⟩
    · obtain ⟨c, hc, rfl⟩ := List.mem_map.mp hdone
      exact absurd hd (hnew c hc)
  shown := fun c hc => hcompleted ▸ List.mem_append_left _ (hs.shown c hc)
  current := by
    intro last hlast hquiet hl
    obtain ⟨c, hc, hurl, hdone⟩ :=
      hs.current last hlast (fun d hd hp => hquiet d hd ((hpending d hd).mpr hp)) hl
    exact ⟨c, hc, hurl, hcompleted ▸ List.mem_append_left _ hdone⟩

/-- A set call that misses the cache leaves its request pending. -/
theorem inv_miss {view : View} {s : State Image} (hs : Inv view s) (url : URL) :
    Inv view { s.ask (s.service.next url) with
      service := s.service.downloadImage (s.service.next url) } := by
  have hcount := counted_downloadImage hs.counted url
  have hpending : s.service.next url
      ∈ (s.service.downloadImage (s.service.next url)).pending := by
    simp [State.pending, State.downloadImage]
  refine ⟨hcount, hs.sets.append (List.Sublist.refl _), ?_, ?_, hs.shown, ?_⟩
  · intro c hc
    have hc : c ∈ s.field view := by cases view <;> exact hc
    obtain ⟨hmem, hdone⟩ := hs.own c hc
    exact ⟨List.mem_append_left _ hmem, hdone⟩
  · intro d hd hdone
    rcases List.mem_append.mp hd with hd | hd
    · obtain ⟨c, hc, hle⟩ := hs.newest d hd hdone
      exact ⟨c, by cases view <;> exact hc, hle⟩
    · rw [List.mem_singleton.mp hd] at hdone
      exact absurd hpending ((hcount.completed_iff (by simp [State.downloadImage])).mp hdone)
  · intro last _ hquiet
    exact absurd hpending (hquiet _ (by simp))

/-- A set call that finds its image in the cache completes at once. -/
theorem completes_hit {view : View} {s : State Image} (hs : Inv view s) {url : URL} {image : Image}
    (hhit : s.service.cache url.absoluteString = some image) :
    Completes view s
      ({ s.ask (s.service.next url) with
        service := s.service.getImage (s.service.next url) }.complete view
        (s.service.next url, some image))
      (s.service.next url, some image) := by
  have hget : s.service.getImage (s.service.next url) = { s.service with
      completed := s.service.completed ++ [(s.service.next url, some image)]
      calls := s.service.calls ++ [s.service.next url] } := by
    simp [State.getImage, hhit]
  constructor
  · simpa using counted_getImage hs.counted url
  · simp
  · simpa [hget] using hs.sets.append (List.Sublist.refl [s.service.next url])
  · simp [hget]
  · intro d hd
    have hne : d ≠ s.service.next url := ne_of_apply_ne Call.id (ne_of_lt (hs.id_lt hd))
    simp [hget, State.pending, hne]
  · simp
  · exact fun hview => ⟨complete_shown hview _ _, complete_loaded _ _ _⟩

/-- The main queue runs the completion of one of the view's requests. -/
theorem completes_main {view : View} {s : State Image} {service : ImageService.State Image}
    {c : Call × Option Image} (hs : Inv view s) (hcount : Counted service) (hc : c.1 ∈ s.sets)
    (hcalls : service.calls = s.service.calls)
    (hcompleted : service.completed = s.service.completed ++ [c])
    (hpending : s.service.pending.Perm (c.1 :: service.pending)) :
    Completes view s ({ s with service := service }.complete view c) c := by
  have hnot : c.1 ∉ service.pending := by
    refine (hcount.completed_iff ?_).mp ?_
    · rw [hcalls]
      exact hs.sets.subset hc
    · simp [hcompleted]
  constructor
  · simpa using hcount
  · simp [hc]
  · simpa [hcalls] using hs.sets
  · simpa using hcompleted
  · intro d hd
    rw [complete_service, hpending.mem_iff, List.mem_cons]
    constructor
    · intro hp
      exact ⟨Or.inr hp, fun hdc => hnot (hdc ▸ hp)⟩
    · rintro ⟨hp, hne⟩
      exact hp.resolve_left hne
  · simp
  · exact fun hview => ⟨complete_shown hview _ _, complete_loaded _ _ _⟩

/-- `viewDidLoad` shows what the completions have brought so far. -/
theorem inv_viewDidLoad {s : State Image} (hs : Inv .profileVC s) :
    Inv .profileVC { s with shown := s.image, loaded := true } where
  counted := hs.counted
  sets := hs.sets
  own := hs.own
  newest := hs.newest
  shown := fun c hc => (hs.own c hc).2
  current := by
    intro last hlast hquiet _
    have hmem : last ∈ s.sets := List.mem_of_mem_getLast? hlast
    obtain ⟨c, hc, hle⟩ := hs.newest last hmem ((hs.completed_iff hmem).mpr (hquiet last hmem))
    obtain ⟨hown, hdone⟩ := hs.own c hc
    have hid : c.1.id = last.id := le_antisymm (hs.le_last hlast hown) hle
    have heq : c.1 = last :=
      hs.counted.id_inj (hs.sets.subset hown) (hs.sets.subset hmem) hid
    exact ⟨c, hc, congrArg Call.url heq, hdone⟩

/-- A step runs a completion of the view, or leaves its images as they are. -/
theorem moves_step {view : View} {imageOfData : Data → Option Image} {s s' : State Image}
    {e : Event Data} (hs : Inv view s) (h : step view imageOfData s e = some s') :
    (∃ c, completing s e = some c.1 ∧ Completes view s s' c) ∨
      (completing s e = none ∧ s'.field view = s.field view ∧ Inv view s') := by
  cases e with
  | set c =>
    simp only [step] at h
    split at h
    · next hnone =>
      cases h
      exact Or.inr ⟨by simp [completing, hnone], rfl, hs⟩
    · next url hurl =>
      cases h
      cases hhit : s.service.cache url.absoluteString with
      | none =>
        have hget : s.service.getImage (s.service.next url)
            = s.service.downloadImage (s.service.next url) := by
          simp [State.getImage, hhit]
        have hcompleted : (s.service.downloadImage (s.service.next url)).completed
            = (s.ask (s.service.next url)).service.completed ++ [] := (List.append_nil _).symm
        rw [hget, serve_others view hcompleted (fun _ hd => absurd hd List.not_mem_nil)]
        exact Or.inr ⟨by simp [completing, hurl, hhit], by cases view <;> rfl, inv_miss hs url⟩
      | some image =>
        rw [serve_own view (c := (s.service.next url, some image))
          (by simp [State.getImage, hhit]) (by simp)]
        exact Or.inl ⟨_, by simp [completing, hurl, hhit], completes_hit hs hhit⟩
  | viewDidLoad =>
    simp only [step] at h
    split_ifs at h with hload
    obtain ⟨rfl, -⟩ := hload
    cases h
    exact Or.inr ⟨rfl, rfl, inv_viewDidLoad hs⟩
  | service e =>
    obtain ⟨service, hservice, rfl⟩ := Option.map_eq_some_iff.mp h
    have hcount := counted_step hs.counted hservice
    rcases ImageService.step_cases hservice with ⟨c, rest, hmain, rfl, hcalls, hcompleted, hpending⟩ |
      ⟨hne, hcalls, new, hcompleted, hnew, hpending⟩
    · by_cases hc : c.1 ∈ s.sets
      · rw [serve_own view hcompleted hc]
        exact Or.inl ⟨c, by simp [completing, hmain, hc],
          completes_main hs hcount hc hcalls hcompleted hpending⟩
      · have hothers : ∀ d ∈ [c], d.1 ∉ s.sets := by simpa using hc
        rw [serve_others view hcompleted hothers]
        refine Or.inr ⟨by simp [completing, hmain, hc], by cases view <;> rfl, ?_⟩
        refine inv_others hs hcount (hcalls ▸ List.prefix_rfl) hcompleted hothers ?_
        intro d hd
        rw [hpending.mem_iff, List.mem_cons, or_iff_right (ne_of_mem_of_not_mem hd hc)]
    · have hothers : ∀ d ∈ new, d.1 ∉ s.sets := by
        intro d hd hmem
        have := hs.id_lt hmem
        have := hnew d hd
        omega
      have hcompleting : completing s (.service e) = none := by
        cases e <;> first | rfl | exact absurd rfl hne
      rw [serve_others view hcompleted hothers]
      exact Or.inr ⟨hcompleting, by cases view <;> rfl, inv_others hs hcount hcalls hcompleted hothers
        (fun d hd => hpending d (hs.id_lt hd))⟩

theorem photo_step {view : View} {imageOfData : Data → Option Image} {s s' : State Image}
    {e : Event Data} (hs : Inv view s) (h : step view imageOfData s e = some s') :
    Keeps view s s' ∧ Current view s' ↔ CompletesRight view s e := by
  rcases moves_step hs h with ⟨c, hc, hcompletes⟩ | ⟨hnone, hfield, hs'⟩
  · simp only [CompletesRight, hc, Option.mem_some_iff, forall_eq']
    rw [keeps_iff hs hcompletes]
    exact and_congr_right (current_iff hs hcompletes)
  · refine iff_of_true ⟨?_, hs'.current⟩ (by simp [CompletesRight, hnone])
    intro c hc c' hc'
    rw [hfield] at hc'
    rw [Option.mem_unique hc hc']

theorem inv_step {view : View} {imageOfData : Data → Option Image} {s s' : State Image}
    {e : Event Data} (hs : Inv view s) (h : step view imageOfData s e = some s')
    (hR : Keeps view s s' ∧ Current view s') : Inv view s' := by
  rcases moves_step hs h with ⟨c, -, hcompletes⟩ | ⟨-, -, hs'⟩
  · exact hcompletes.inv hs hR.1 hR.2
  · exact hs'

/-- Along a run, no completion replaces the image of a later set call and the image shown is that of
    the last set call whenever nothing is pending, exactly when the view's completions run in the
    order of its set calls and in time. -/
theorem photo_current_iff (view : View) (imageOfData : Data → Option Image)
    (es : List (Event Data)) :
    Along (step view imageOfData) (fun _ s _ s' => Keeps view s s' ∧ Current view s') init es ↔
      Along (step view imageOfData) (fun _ s e _ => CompletesRight view s e) init es :=
  along_congr (I := fun _ s => Inv view s) (inv_init view)
    (fun _ _ _ _ hs h => photo_step hs h) (fun _ _ _ _ hs h hR => inv_step hs h hR)

/-- Nothing is pending, and the image shown is not of the last set call's URL. -/
theorem not_current {view : View} {s : State Image} {last : Call}
    (h : s.sets.getLast? = some last ∧ s.service.pending = [] ∧ s.loaded = (view = .profileVC) ∧
      s.shown.map (fun c => c.1.url) ≠ some last.url) : ¬ Current view s := by
  obtain ⟨hlast, hpending, hloaded, hshown⟩ := h
  intro hcur
  obtain ⟨c, hc, hurl, -⟩ := hcur last hlast (by simp [hpending])
    (fun hview => by simpa [hview] using hloaded)
  refine hshown ?_
  rw [Option.mem_def.mp hc, Option.map_some, hurl]

omit [URLSyntax] in
/-- A cell is set to Ann and reused for Bob, and Ann's photo arrives last; a profile is set to Ann,
    and her photo arrives when the view has loaded. -/
theorem photo_of_another :
    (¬ ∀ [URLSyntax] (es : List (Event String)), Along (step .personCell some)
      (fun _ s _ s' => Keeps .personCell s s' ∧ Current .personCell s') init es) ∧
    ¬ ∀ [URLSyntax] (es : List (Event String)), Along (step .profileVC some)
      (fun _ s _ s' => Keeps .profileVC s s' ∧ Current .profileVC s') init es := by
  let _ := nonEmptyURLs
  let e : Event String := .service .main
  constructor
  · intro h
    let es : List (Event String) := [.set (.setUser ann), .set (.setUser bob),
      .service (.handler ⟨1, bob.photoURL⟩ (some "b")), .service .main,
      .service (.handler ⟨0, ann.photoURL⟩ (some "a"))]
    obtain ⟨s', hs', hp⟩ := exists_of_run_any (step .personCell some) init (es ++ [e])
      (fun s => s.sets.getLast? = some ⟨1, bob.photoURL⟩ ∧ s.service.pending = [] ∧
        s.loaded = (View.personCell = .profileVC) ∧
        s.shown.map (fun c => c.1.url) ≠ some bob.photoURL) (by decide)
    obtain ⟨s, hs, hstep⟩ := run_concat.mp hs'
    exact not_current (decide_eq_true_iff.mp hp) (h (es ++ [e]) es e [] rfl s s' hs hstep).2
  · intro h
    let es : List (Event String) := [.set (.setUser ann), .viewDidLoad,
      .service (.handler ⟨0, ann.photoURL⟩ (some "a"))]
    obtain ⟨s', hs', hp⟩ := exists_of_run_any (step .profileVC some) init (es ++ [e])
      (fun s => s.sets.getLast? = some ⟨0, ann.photoURL⟩ ∧ s.service.pending = [] ∧
        s.loaded = (View.profileVC = .profileVC) ∧
        s.shown.map (fun c => c.1.url) ≠ some ann.photoURL) (by decide)
    obtain ⟨s, hs, hstep⟩ := run_concat.mp hs'
    exact not_current (decide_eq_true_iff.mp hp) (h (es ++ [e]) es e [] rfl s s' hs hstep).2

end PostApp.Photo
