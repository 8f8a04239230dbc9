import PostApp.Model.Records
import PostApp.Schemes.Listener
import PostApp.Schemes.Replica

/-! The feed on every device.

    Each device is a replica of the database: it shows its own writes at once, the server judges them
    later and sends every write it applies to all devices. A `HomeVC` saves posts, deletes them through
    the actions of a row, and rebuilds `posts` at every value event of the `posts` node; a device can
    have several, each with its own listener, and the answer to a save goes to the one that made it. A
    device steps by itself (`Client.step`) or together with the server (`step`). What a step can do to
    a replica and to one `HomeVC` is said once (`moves_local`, `turn_step`). -/

namespace PostApp.Feed
open Schemes
variable [URLSyntax]

/-- What identifies a post to its readers. -/
structure Entry where
  key : String
  author : UserProfile
  text : String
  deriving DecidableEq

def entryOf (post : Post) : Entry := ⟨post.id, post.author, post.text⟩

/-- A write as it waits on the device: `estimate` is the local guess of the server time, `origin` the
    post being saved, `completion` the number of the `HomeVC` that waits for the answer; a removal has
    neither. -/
structure Write where
  path : Path
  value : Value
  estimate : Rat
  origin : Option Entry
  completion : Option ℕ
  deriving DecidableEq

/-- `removeValue` at a location writes null and passes no completion. -/
def removeValue (ref : Path) : Write := ⟨ref, .null, 0, none, none⟩

/-- What the handler of a row's Delete action captures. -/
structure DeleteAction where
  curentUser : Option String
  postToDelete : Post
  deriving DecidableEq

/-- A `HomeVC` whose view has loaded. Its listener is never removed and keeps it alive. -/
structure HomeVC where
  /-- the text of `textView` -/
  textView : String
  posts : List Post
  /-- the actions handed to the table so far -/
  actions : List DeleteAction
  /-- the rows passed to `scrollToRow`, each with `posts.count` at that moment -/
  scrolled : List (Int × ℕ)
  /-- the answers to its `savePost` whose completion has not run yet -/
  completions : List Bool
  /-- the value listener of `observePosts` -/
  listener : Listener Value

structure Client where
  /-- `UserService.currentUserProfile` -/
  currentUserProfile : Option UserProfile
  /-- `Auth.auth().currentUser?.uid` -/
  currentUser : Option String
  homes : List HomeVC
  replica : Replica Value (Path × Value) Write

def put (db : Value) (u : Path × Value) : Value := db.set u.1 u.2

/-- The device fills the timestamp placeholder with its own estimate. -/
def Write.guess (w : Write) : Path × Value := (w.path, resolve w.estimate w.value)

/-- There is no placeholder to estimate. -/
theorem guess_removeValue (ref : Path) : (removeValue ref).guess = (ref, .null) := rfl

/-- The `posts` node as the device sees it. -/
def feed (r : Replica Value (Path × Value) Write) : Value := (r.view put Write.guess).get postsRef

/-- `HomeVC.viewDidLoad`, with the feed of the device. -/
def HomeVC.viewDidLoad (v : Value) : HomeVC := ⟨"", [], [], [], [], .attach v⟩

/-- The listener is told when the `posts` node has changed. -/
def HomeVC.told (old new : Value) (vc : HomeVC) : HomeVC :=
  { vc with listener := vc.listener.notify old new }

/-- The answer to a save arrives. -/
def HomeVC.answered (ok : Bool) (vc : HomeVC) : HomeVC :=
  { vc with completions := vc.completions ++ [ok] }

/-- The replica of a device changes, and with it what its listeners report. -/
def Client.sync (c : Client) (r : Replica Value (Path × Value) Write) : Client :=
  { c with replica := r, homes := c.homes.map (HomeVC.told (feed c.replica) (feed r)) }

/-- `HomeVC.scrollPostsToLastOne` -/
def scrollPostsToLastOne (posts : List Post) : List (Int × ℕ) :=
  let last := if posts.length > 0 then posts.length - 1 else 0
  if last > 0 then [((last : Int), posts.length)] else []

/-- An answer goes to the `HomeVC` whose completion waits for it. -/
def deliver (homes : List HomeVC) : Option (Write × Bool) → List HomeVC
  | some (w, ok) =>
    match w.completion with
    | some n => homes.modify n (HomeVC.answered ok)
    | none => homes
  | none => homes

/-- What happens in one `HomeVC`. -/
inductive AtHome where
  | edit (text : String)
  | valueEvent
  | editActions (row : ℕ)
  | completion
  deriving DecidableEq

def HomeVC.step (currentUser : Option String) (vc : HomeVC) : AtHome → Option HomeVC
  | .edit text => some { vc with textView := text }
  | .valueEvent => do
    let (v, listener) ← vc.listener.fire
    let posts := observePosts ⟨postsRef, v⟩
    some { vc with listener, posts, scrolled := vc.scrolled ++ scrollPostsToLastOne posts }
  | .editActions row => do
    let postToDelete ← vc.posts[row]?
    some { vc with actions := vc.actions ++ [⟨currentUser, postToDelete⟩] }
  | .completion =>
    match vc.completions with
    | [] => none
    | ok :: rest =>
      if ok then
        some { vc with
          completions := rest
          scrolled := vc.scrolled ++ [((vc.posts.length : Int) - 1, vc.posts.length)]
          textView := "" }
      else some { vc with completions := rest }

/-- What happens on one device. -/
inductive Local where
  | profile (p : Option UserProfile)
  | auth (uId : Option String)
  | viewDidLoad
  | home (n : ℕ) (a : AtHome)
  | delete (n i : ℕ)
  | receive
  deriving DecidableEq

def Client.step (c : Client) : Local → Option Client
  | .profile p => some { c with currentUserProfile := p }
  | .auth uId => some { c with currentUser := uId }
  | .viewDidLoad => some { c with homes := c.homes ++ [.viewDidLoad (feed c.replica)] }
  | .home n a => do
    let vc ← c.homes[n]?
    let vc' ← vc.step c.currentUser a
    some { c with homes := c.homes.set n vc' }
  | .delete n i => do
    let vc ← c.homes[n]?
    let a ← vc.actions[i]?
    if a.curentUser = some a.postToDelete.author.uId then
      some (c.sync (c.replica.enqueue (removeValue a.postToDelete.ref)))
    else some c
  | .receive => do
    let (answer, r) ← c.replica.receive put
    some { c.sync r with homes := deliver (c.sync r).homes answer }

structure State where
  db : Value
  client : ℕ → Client
  /-- the posts whose save the server applied and whose removal it did not, in the order of saving -/
  stored : List Entry
  /-- every Save tap that issued a write: the device and the post as it was in the composer -/
  taps : List (ℕ × Entry)

inductive Event where
  | device (client : ℕ) (a : Local)
  | savePost (client n : ℕ) (key : String) (estimate : Rat)
  | store (client : ℕ) (now : Rat)
  | reject (client : ℕ)
  deriving DecidableEq

/-- The posts of a store. -/
def entries (db : Value) : List Entry := (observePosts (snapshotAt postsRef db)).map entryOf

def init (db : Value) : State where
  db := db
  client := fun _ => ⟨none, none, [], .start db⟩
  stored := entries db
  taps := []

/-- A save adds its post; a removal takes out the post at its location. -/
def record (stored : List Entry) (w : Write) : List Entry :=
  match w.origin with
  | some e => stored ++ [e]
  | none => stored.filter (fun e => postsRef ++ [e.key] ≠ w.path)

/-- `childByAutoId` makes a key that nobody has used. -/
def Fresh (s : State) (key : String) : Prop :=
  (∀ t ∈ s.taps, t.2.key ≠ key) ∧ s.db.get (postsRef ++ [key]) = .null

instance (s : State) (key : String) : Decidable (Fresh s key) :=
  inferInstanceAs (Decidable (_ ∧ _))

/-- The server applies the oldest write of a device, tells everybody and answers the device. -/
def State.accept (s : State) (client : ℕ) (now : Rat) (w : Write) : State :=
  let u := (w.path, resolve now w.value)
  { s with
    db := put s.db u
    client := fun k =>
      let r := (s.client k).replica.send u
      { s.client k with replica := if k = client then r.answer true else r }
    stored := record s.stored w }

def step (s : State) : Event → Option State
  | .device client a => do
    let c ← (s.client client).step a
    some { s with client := Function.update s.client client c }
  | .savePost client n key estimate => do
    let c := s.client client
    let vc ← c.homes[n]?
    match PostApp.savePost c.currentUserProfile key vc.textView with
    | none => some s
    | some (author, path, value) =>
      if Fresh s key then
        let e : Entry := ⟨key, author, vc.textView⟩
        some { s with
          client := Function.update s.client client
            (c.sync (c.replica.enqueue ⟨path, value, estimate, some e, some n⟩))
          taps := s.taps ++ [(client, e)] }
      else none
  | .store client now => do
    let w ← (s.client client).replica.queue.head?
    some (s.accept client now w)
  | .reject client =>
    let c := s.client client
    match c.replica.queue with
    | [] => none
    | _ :: _ => some { s with
        client := Function.update s.client client { c with replica := c.replica.answer false } }

/-! ### What a step can do -/

section Home
variable {currentUser : Option String} {vc vc' : HomeVC}

theorem home_valueEvent (h : vc.step currentUser .valueEvent = some vc') :
    ∃ v ℓ, vc.listener.fire = some (v, ℓ) ∧ vc' = { vc with
      listener := ℓ
      posts := observePosts ⟨postsRef, v⟩
      scrolled := vc.scrolled ++ scrollPostsToLastOne (observePosts ⟨postsRef, v⟩) } := by
  simp only [HomeVC.step, Option.bind_eq_bind, Option.bind_eq_some_iff, Prod.exists] at h
  obtain ⟨v, ℓ, hf, hvc'⟩ := h
  cases hvc'
  exact ⟨v, ℓ, hf, rfl⟩

theorem home_editActions {row : ℕ} (h : vc.step currentUser (.editActions row) = some vc') :
    ∃ post, vc.posts[row]? = some post ∧
      vc' = { vc with actions := vc.actions ++ [⟨currentUser, post⟩] } := by
  obtain ⟨post, hpost, hvc'⟩ := Option.bind_eq_some_iff.mp h
  cases hvc'
  exact ⟨post, hpost, rfl⟩

/-- The completion of a save scrolls and empties the text view if there was no error. -/
theorem home_completion (h : vc.step currentUser .completion = some vc') :
    ∃ ok rest, vc.completions = ok :: rest ∧
      ((ok = true ∧ vc' = { vc with
          completions := rest
          scrolled := vc.scrolled ++ [((vc.posts.length : Int) - 1, vc.posts.length)]
          textView := "" }) ∨
        (ok = false ∧ vc' = { vc with completions := rest })) := by
  simp only [HomeVC.step] at h
  split at h
  · cases h
  · next ok rest hcomp =>
    cases ok with
    | true =>
      cases h
      exact ⟨true, rest, hcomp, Or.inl ⟨rfl, rfl⟩⟩
    | false =>
      cases h
      exact ⟨false, rest, hcomp, Or.inr ⟨rfl, rfl⟩⟩

@[simp] theorem told_self (v : Value) (vc : HomeVC) : vc.told v v = vc := by simp [HomeVC.told]

end Home

section Device
variable {c c' : Client} {n : ℕ}

theorem client_home {a : AtHome} (h : c.step (.home n a) = some c') :
    ∃ vc vc', c.homes[n]? = some vc ∧ vc.step c.currentUser a = some vc' ∧
      c' = { c with homes := c.homes.set n vc' } := by
  obtain ⟨vc, hvc, h⟩ := Option.bind_eq_some_iff.mp h
  obtain ⟨vc', hvc', hc'⟩ := Option.bind_eq_some_iff.mp h
  cases hc'
  exact ⟨vc, vc', hvc, hvc', rfl⟩

/-- The Delete handler removes the captured post if its author was signed in, and does nothing else. -/
theorem client_delete {i : ℕ} (h : c.step (.delete n i) = some c') :
    ∃ vc a, c.homes[n]? = some vc ∧ vc.actions[i]? = some a ∧
      ((a.curentUser = some a.postToDelete.author.uId ∧
          c' = c.sync (c.replica.enqueue (removeValue a.postToDelete.ref))) ∨
        (a.curentUser ≠ some a.postToDelete.author.uId ∧ c' = c)) := by
  obtain ⟨vc, hvc, h⟩ := Option.bind_eq_some_iff.mp h
  obtain ⟨a, ha, hc'⟩ := Option.bind_eq_some_iff.mp h
  split_ifs at hc' with hown
  · cases hc'
    exact ⟨vc, a, hvc, ha, Or.inl ⟨hown, rfl⟩⟩
  · cases hc'
    exact ⟨vc, a, hvc, ha, Or.inr ⟨hown, rfl⟩⟩

theorem client_receive (h : c.step .receive = some c') :
    ∃ answer r, c.replica.receive put = some (answer, r) ∧
      c' = { c.sync r with homes := deliver (c.sync r).homes answer } := by
  simp only [Client.step, Option.bind_eq_bind, Option.bind_eq_some_iff, Prod.exists] at h
  obtain ⟨answer, r, hr, hc'⟩ := h
  cases hc'
  exact ⟨answer, r, hr, rfl⟩

@[simp] theorem length_deliver (homes : List HomeVC) (answer : Option (Write × Bool)) :
    (deliver homes answer).length = homes.length := by
  unfold deliver
  split
  · split
    · exact List.length_modify ..
    · rfl
  · rfl

/-- Only `viewDidLoad` adds a `HomeVC`, and none goes away. -/
theorem homes_local {a : Local} (h : c.step a = some c') :
    c'.homes.length = c.homes.length + if a = .viewDidLoad then 1 else 0 := by
  cases a with
  | profile | auth | viewDidLoad =>
    cases h
    simp
  | home n b =>
    obtain ⟨_, _, -, -, rfl⟩ := client_home h
    simp
  | delete n i =>
    obtain ⟨_, _, -, -, ⟨-, rfl⟩ | ⟨-, rfl⟩⟩ := client_delete h
    · simp [Client.sync]
    · simp
  | receive =>
    obtain ⟨_, _, -, rfl⟩ := client_receive h
    simp [Client.sync]

/-- What an event of the device does to its replica: a Delete handler may queue a removal, and a message
    may be taken. -/
inductive Moves (c : Client) : Local → Replica Value (Path × Value) Write → Prop
  | rest {a : Local} : a ≠ .receive → Moves c a c.replica
  | remove {n i : ℕ} {vc : HomeVC} {a : DeleteAction} : c.homes[n]? = some vc →
      vc.actions[i]? = some a → Moves c (.delete n i) (c.replica.enqueue (removeValue a.postToDelete.ref))
  | receive {answer : Option (Write × Bool)} {r : Replica Value (Path × Value) Write} :
      c.replica.receive put = some (answer, r) → Moves c .receive r

theorem moves_local {a : Local} (h : c.step a = some c') : Moves c a c'.replica := by
  cases a with
  | profile | auth | viewDidLoad =>
    cases h
    exact .rest (by simp)
  | home n b =>
    obtain ⟨_, _, -, -, rfl⟩ := client_home h
    exact .rest (by simp)
  | delete n i =>
    obtain ⟨_, _, hvc, ha, ⟨-, rfl⟩ | ⟨-, rfl⟩⟩ := client_delete h
    · exact .remove hvc ha
    · exact .rest (by simp)
  | receive =>
    obtain ⟨_, _, hr, rfl⟩ := client_receive h
    exact .receive hr

end Device

section Inversion
variable {s s' : State} {client n : ℕ}

theorem step_device {a : Local} (h : step s (.device client a) = some s') :
    ∃ c, (s.client client).step a = some c ∧
      s' = { s with client := Function.update s.client client c } := by
  obtain ⟨c, hc, hs'⟩ := Option.bind_eq_some_iff.mp h
  cases hs'
  exact ⟨c, hc, rfl⟩

/-- A `HomeVC` that takes a step itself keeps its number. -/
theorem step_home {a : AtHome} (h : step s (.device client (.home n a)) = some s') :
    ∃ vc vc', (s.client client).homes[n]? = some vc ∧
      vc.step (s.client client).currentUser a = some vc' ∧ (s'.client client).homes[n]? = some vc' := by
  obtain ⟨c, hc, rfl⟩ := step_device h
  obtain ⟨vc, vc', hvc, hstep, rfl⟩ := client_home hc
  refine ⟨vc, vc', hvc, hstep, ?_⟩
  simp only [Function.update_self]
  exact List.getElem?_set_self (List.getElem?_eq_some_iff.mp hvc).1

/-- A tap on Save does nothing without a profile, and queues the post under a new key with one. -/
theorem step_savePost {key : String} {estimate : Rat}
    (h : step s (.savePost client n key estimate) = some s') :
    ∃ vc, (s.client client).homes[n]? = some vc ∧
      (((s.client client).currentUserProfile = none ∧ s' = s) ∨
      ∃ author, (s.client client).currentUserProfile = some author ∧ Fresh s key ∧ s' = { s with
        client := Function.update s.client client ((s.client client).sync
          ((s.client client).replica.enqueue ⟨postsRef ++ [key],
            postObject author vc.textView, estimate, some ⟨key, author, vc.textView⟩, some n⟩))
        taps := s.taps ++ [(client, ⟨key, author, vc.textView⟩)] }) := by
  obtain ⟨vc, hvc, h⟩ := Option.bind_eq_some_iff.mp h
  refine ⟨vc, hvc, ?_⟩
  simp only [PostApp.savePost] at h
  cases hp : (s.client client).currentUserProfile with
  | none =>
    rw [hp] at h
    cases h
    exact Or.inl ⟨rfl, rfl⟩
  | some author =>
    rw [hp] at h
    simp only [Option.bind_eq_bind, Option.bind_some, Option.pure_def] at h
    split_ifs at h with hfresh
    cases h
    exact Or.inr ⟨author, rfl, hfresh, rfl⟩

theorem step_store {now : Rat} (h : step s (.store client now) = some s') :
    ∃ w ws, (s.client client).replica.queue = w :: ws ∧ s' = s.accept client now w := by
  obtain ⟨w, hw, hs'⟩ := Option.bind_eq_some_iff.mp h
  cases hs'
  obtain ⟨ws, hq⟩ := List.head?_eq_some_iff.mp hw
  exact ⟨w, ws, hq, rfl⟩

theorem step_reject (h : step s (.reject client) = some s') :
    s' = { s with
      client := Function.update s.client client
        { s.client client with replica := (s.client client).replica.answer false } } := by
  simp only [step] at h
  split at h
  · cases h
  · cases h
    rfl

theorem homes_step {e : Event} (h : step s e = some s') (k : ℕ) : (s'.client k).homes.length =
    (s.client k).homes.length + if e = .device k .viewDidLoad then 1 else 0 := by
  cases e with
  | device client a =>
    obtain ⟨c, hc, rfl⟩ := step_device h
    by_cases hk : client = k
    · subst hk
      simpa using homes_local hc
    · simp [Function.update_of_ne (Ne.symm hk), hk]
  | savePost client m key estimate =>
    obtain ⟨_, -, ⟨-, rfl⟩ | ⟨_, -, -, rfl⟩⟩ := step_savePost h
    · simp
    · by_cases hk : client = k
      · subst hk
        simp [Client.sync]
      · simp [Function.update_of_ne (Ne.symm hk)]
  | store client now =>
    obtain ⟨_, _, -, rfl⟩ := step_store h
    simp [State.accept]
  | reject client =>
    obtain rfl := step_reject h
    by_cases hk : client = k
    · subst hk
      simp
    · simp [Function.update_of_ne (Ne.symm hk)]

end Inversion

/-! ### What a step does to one `HomeVC` -/

/-- `HomeVC` number `n` of device `k` after a step: it has been loaded, it has taken a step itself, or
    it has been told what the feed is now and perhaps got the answer to a save. -/
inductive Turn (k n : ℕ) (c c' : Client) : Event → HomeVC → Prop
  | load : c.homes[n]? = none →
      Turn k n c c' (.device k .viewDidLoad) (.viewDidLoad (feed c'.replica))
  | own {a : AtHome} {vc vc' : HomeVC} : c.homes[n]? = some vc →
      vc.step c.currentUser a = some vc' → feed c'.replica = feed c.replica →
      Turn k n c c' (.device k (.home n a)) vc'
  | told {e : Event} {vc : HomeVC} : (∀ a, e ≠ .device k (.home n a)) → c.homes[n]? = some vc →
      Turn k n c c' e (vc.told (feed c.replica) (feed c'.replica))
  | answered {vc : HomeVC} (ok : Bool) : c.homes[n]? = some vc →
      Turn k n c c' (.device k .receive) ((vc.told (feed c.replica) (feed c'.replica)).answered ok)

section Turn
variable {k n : ℕ} {c c' : Client} {vc' : HomeVC}

theorem turn_kept {e : Event} (he : ∀ a, e ≠ .device k (.home n a)) (hvc : c.homes[n]? = some vc')
    (hfeed : feed c'.replica = feed c.replica) : Turn k n c c' e vc' := by
  have hturn : Turn k n c c' e (vc'.told (feed c.replica) (feed c'.replica)) := .told he hvc
  rwa [hfeed, told_self] at hturn

theorem getElem?_sync {r : Replica Value (Path × Value) Write}
    (h : (c.sync r).homes[n]? = some vc') :
    ∃ vc, c.homes[n]? = some vc ∧ vc' = vc.told (feed c.replica) (feed r) := by
  rw [Client.sync, List.getElem?_map] at h
  obtain ⟨vc, hvc, rfl⟩ := Option.map_eq_some_iff.mp h
  exact ⟨vc, hvc, rfl⟩

theorem turn_sync {e : Event} {r : Replica Value (Path × Value) Write}
    (he : ∀ a, e ≠ .device k (.home n a)) (h : (c.sync r).homes[n]? = some vc') :
    Turn k n c (c.sync r) e vc' := by
  obtain ⟨vc, hvc, rfl⟩ := getElem?_sync h
  exact .told he hvc

theorem getElem?_deliver {homes : List HomeVC} {answer : Option (Write × Bool)}
    (h : (deliver homes answer)[n]? = some vc') :
    homes[n]? = some vc' ∨ ∃ vc ok, homes[n]? = some vc ∧ vc' = vc.answered ok := by
  unfold deliver at h
  split at h
  · next w ok =>
    split at h
    · next m _ =>
      by_cases hm : m = n
      · subst hm
        rw [List.getElem?_modify_eq] at h
        obtain ⟨vc, hvc, rfl⟩ := Option.map_eq_some_iff.mp h
        exact Or.inr ⟨vc, ok, hvc, rfl⟩
      · rw [List.getElem?_modify_ne _ _ hm] at h
        exact Or.inl h
    · exact Or.inl h
  · exact Or.inl h

theorem turn_local {a : Local} (h : c.step a = some c') (hvc : c'.homes[n]? = some vc') :
    Turn k n c c' (.device k a) vc' := by
  cases a with
  | profile | auth =>
    cases h
    exact turn_kept (by simp) hvc rfl
  | viewDidLoad =>
    cases h
    rcases lt_or_ge n c.homes.length with hn | hn
    · rw [List.getElem?_append_left hn] at hvc
      exact turn_kept (by simp) hvc rfl
    · rw [List.getElem?_append_right hn, List.getElem?_singleton] at hvc
      split_ifs at hvc
      cases hvc
      exact .load (List.getElem?_eq_none hn)
  | home m a =>
    obtain ⟨vc, vc₁, hvc₁, hstep, rfl⟩ := client_home h
    by_cases hm : m = n
    · subst hm
      rw [List.getElem?_set_self (List.getElem?_eq_some_iff.mp hvc₁).1] at hvc
      cases hvc
      exact .own hvc₁ hstep rfl
    · rw [List.getElem?_set_ne hm] at hvc
      refine turn_kept ?_ hvc rfl
      rintro b heq
      cases heq
      exact hm rfl
  | delete m i =>
    obtain ⟨_, _, -, -, ⟨-, rfl⟩ | ⟨-, rfl⟩⟩ := client_delete h
    · exact turn_sync (by simp) hvc
    · exact turn_kept (by simp) hvc rfl
  | receive =>
    obtain ⟨answer, r, -, rfl⟩ := client_receive h
    rcases getElem?_deliver hvc with hsync | ⟨vc₁, ok, hsync, rfl⟩
    · obtain ⟨vc, hold, rfl⟩ := getElem?_sync hsync
      exact .told (by simp) hold
    · obtain ⟨vc, hold, rfl⟩ := getElem?_sync hsync
      exact .answered ok hold

theorem turn_step {s s' : State} {e : Event} (h : step s e = some s')
    (hvc : (s'.client k).homes[n]? = some vc') :
    Turn k n (s.client k) (s'.client k) e vc' := by
  cases e with
  | device client a =>
    obtain ⟨c, hc, rfl⟩ := step_device h
    by_cases hk : k = client
    · subst hk
      simp only [Function.update_self] at hvc ⊢
      exact turn_local hc hvc
    · simp only [Function.update_of_ne hk] at hvc ⊢
      refine turn_kept ?_ hvc rfl
      rintro b heq
      cases heq
      exact hk rfl
  | savePost client m key estimate =>
    obtain ⟨_, -, ⟨-, rfl⟩ | ⟨author, -, -, rfl⟩⟩ := step_savePost h
    · exact turn_kept (by simp) hvc rfl
    · by_cases hk : k = client
      · subst hk
        simp only [Function.update_self] at hvc ⊢
        exact turn_sync (by simp) hvc
      · simp only [Function.update_of_ne hk] at hvc ⊢
        exact turn_kept (by simp) hvc rfl
  | store client now =>
    obtain ⟨w, _, -, rfl⟩ := step_store h
    refine turn_kept (by simp) hvc ?_
    simp only [feed, State.accept]
    split_ifs
    · rw [Replica.view_answer, Replica.view_send]
    · rw [Replica.view_send]
  | reject client =>
    obtain rfl := step_reject h
    by_cases hk : k = client
    · subst hk
      simp only [Function.update_self] at hvc ⊢
      exact turn_kept (by simp) hvc (by rw [feed, Replica.view_answer, feed])
    · simp only [Function.update_of_ne hk] at hvc ⊢
      exact turn_kept (by simp) hvc rfl

end Turn

end PostApp.Feed
