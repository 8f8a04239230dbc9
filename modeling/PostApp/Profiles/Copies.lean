import PostApp.Chat.Invariant

/-! Copies of a profile.

    A profile is written by `saveProfile`, and from then on copied: readers decode it from its own node,
    from headers of conversations and from posts, and writers put what a reader yielded into new headers
    and posts. Nothing in the app keeps an account from saving its profile again. In the runs in which none
    does, every copy in the store, and every profile that a reader yields from any state a device has ever
    seen, is the one that was saved (`yielded_as_saved`). -/

namespace PostApp.Copies
open Schemes Chat
variable [URLSyntax]

/-- The readers of the app. -/
inductive Reader where
  /-- `UserService.observeUserProfile` -/
  | userProfile (uId : String)
  /-- `AllPersonVC.observeUsers` -/
  | persons
  /-- `MessageVC.observeUsers` -/
  | partners (owner : String)
  /-- `PrivateChatVC.observeMesseges` -/
  | autors (owner peer : String)
  /-- `HomeVC.observePosts` -/
  | posts
  deriving DecidableEq

/-- What a reader makes of a value event. -/
inductive Reading where
  | profiles (ps : List UserProfile)
  | feed (posts : List Post)

/-- The profiles in it; those of a feed are the authors of its posts. -/
def Reading.people : Reading → List UserProfile
  | .profiles ps => ps
  | .feed posts => posts.map Post.author

def Reader.read (view : Value) : Reader → Reading
  | .userProfile uId => .profiles (observeUserProfile uId (snapshotAt (profileRef uId) view)).toList
  | .persons => .profiles (observePersons (snapshotAt ["users", "profile"] view))
  | .partners owner => .profiles (observePartners (snapshotAt (chatRef owner) view))
  | .autors owner peer => .profiles (observeAutors (snapshotAt (conversationRef owner peer) view))
  | .posts => .feed (observePosts (snapshotAt postsRef view))

/-- The two kinds of writes that a device queues: those of its chats, and its profiles and posts. -/
inductive Lane where
  | chat
  | record
  deriving DecidableEq

structure State where
  chat : Chat.State
  /-- the profile and post writes of each device that have not reached the database -/
  pending : ℕ → List (Path × Value)
  /-- the order in which each device has issued all its writes that have not reached the database -/
  order : ℕ → List Lane
  /-- the states of the database that value events carry; they may be delivered at any later time -/
  raised : List Value
  currentUserProfile : ℕ → Option UserProfile
  /-- the entries that the lists of a device have shown; a chat is opened from one of them -/
  shown : ℕ → List UserProfile
  yielded : List UserProfile

inductive Event where
  | saveProfile (client : ℕ) (uId userName userSurname : String) (profileImageURL : URL)
  | savePost (client : ℕ) (key text : String)
  | commit (client : ℕ) (now : Rat)
  | reject (client : ℕ)
  | chat (e : Chat.Event)
  | raise (client : ℕ) (now : Rat)
  | value (client : ℕ) (reader : Reader) (n : ℕ)
  | signOut (client : ℕ)
  deriving DecidableEq

/-- The account whose profile an event saves. -/
def Event.account : Event → Option String
  | .saveProfile _ uId _ _ _ => some uId
  | _ => none

def init (db : Value) : State :=
  ⟨Chat.init db, fun _ => [], fun _ => [], [], fun _ => none, fun _ => [], []⟩

def store (now : Rat) (db : Value) (w : Path × Value) : Value := db.set w.1 (resolve now w.2)

/-- The writes of the two queues in the order in which they were issued. -/
def merge : List Lane → List (Path × Value) → List (Path × Value) → List (Path × Value)
  | .chat :: order, w :: chats, records => w :: merge order chats records
  | .record :: order, chats, w :: records => w :: merge order chats records
  | _ :: order, chats, records => merge order chats records
  | [], chats, records => chats ++ records

/-- The writes of a device that have not reached the database, in issue order. -/
def State.waiting (s : State) (client : ℕ) : List (Path × Value) :=
  merge (s.order client) ((s.chat.queue client).map (fun w => (w.path, w.value))) (s.pending client)

/-- What a device sees: the database with the device's own pending writes on top. -/
def State.view (s : State) (client : ℕ) (now : Rat) : Value :=
  (s.waiting client).foldl (store now) s.chat.db

def State.push (s : State) (client : ℕ) (w : Path × Value) : State := { s with
  pending := Function.update s.pending client (s.pending client ++ [w])
  order := Function.update s.order client (s.order client ++ [.record]) }

/-- The first profile or post write of a device leaves its queue, which is now `ws`. -/
def State.judge (s : State) (client : ℕ) (ws : List (Path × Value)) : State := { s with
  pending := Function.update s.pending client ws
  order := Function.update s.order client ((s.order client).erase .record) }

/-- A chat event that shortens a queue judges its first write, and one that extends it issues the rest. -/
def turn (order : List Lane) (queue queue' : List Write) : List Lane :=
  if queue'.length < queue.length then order.erase .chat
  else order ++ List.replicate (queue'.length - queue.length) .chat

/-- A send is made by the loaded user of the device, to an entry of one of its lists. -/
def Allowed (s : State) : Chat.Event → Prop
  | .tap σ => s.currentUserProfile σ.client = some σ.curentUser ∧ σ.user ∈ s.shown σ.client
  | _ => True

instance (s : State) (e : Chat.Event) : Decidable (Allowed s e) := by
  cases e <;> unfold Allowed <;> infer_instance

/-- What a reader does with what it yields. -/
def State.yield (s : State) (client : ℕ) (ps : List UserProfile) : Reader → State
  | .userProfile _ => { s with
      yielded := s.yielded ++ ps
      currentUserProfile := Function.update s.currentUserProfile client ps.head? }
  | .persons | .partners _ => { s with
      yielded := s.yielded ++ ps
      shown := Function.update s.shown client (s.shown client ++ ps) }
  | .autors _ _ | .posts => { s with yielded := s.yielded ++ ps }

def step (s : State) : Event → Option State
  | .saveProfile client uId userName userSurname profileImageURL =>
    some (s.push client (profileRef uId, userObject userName userSurname profileImageURL))
  | .savePost client key text =>
    match PostApp.savePost (s.currentUserProfile client) key text with
    | none => some s
    | some (_, w) => some (s.push client w)
  | .commit client now =>
    match s.pending client with
    | [] => none
    | w :: ws => some { s.judge client ws with chat := { s.chat with db := store now s.chat.db w } }
  | .reject client =>
    match s.pending client with
    | [] => none
    | _ :: ws => some (s.judge client ws)
  | .chat e => do
    let chat ← Chat.step s.chat e
    if Allowed s e then some { s with
      chat
      order := fun c => turn (s.order c) (s.chat.queue c) (chat.queue c) }
    else none
  | .raise client now => some { s with raised := s.raised ++ [s.view client now] }
  | .value client reader n => do
    let view ← s.raised[n]?
    some (s.yield client (reader.read view).people reader)
  | .signOut client => some { s with
      currentUserProfile := Function.update s.currentUserProfile client none }

/-! ### Stores whose profiles are saved ones -/

/-- Whatever decodes as a profile in the store has been saved. -/
structure Good (Saved : UserProfile → Prop) (db : Value) : Prop where
  profiles : ∀ uId p, decodeProfile uId (db.get (profileRef uId)) = some p → Saved p
  headers : ∀ owner peer k p,
    decodeProfile peer ((db.get (conversationRef owner peer)).child k) = some p → Saved p
  posts : ∀ k post, postOf (snapshotAt (postsRef ++ [k]) db) = some post → Saved post.author

/-- The profile and post writes of the app, with saved profiles in them. -/
inductive Record (Saved : UserProfile → Prop) : Path × Value → Prop
  | profile (p : UserProfile) : Saved p →
      Record Saved (profileRef p.uId, userObject p.name p.surname p.photoURL)
  | post (key : String) (a : UserProfile) (text : String) : Saved a →
      Record Saved (postsRef ++ [key], postObject a text)

/-- All writes of the app. -/
inductive Benign (Saved : UserProfile → Prop) : Path × Value → Prop
  | record {w : Path × Value} : Record Saved w → Benign Saved w
  | header (owner : String) (a : UserProfile) : Saved a →
      Benign Saved (conversationRef owner a.uId, headerObject a)
  | message (owner peer key : String) (isSender : Bool) (text : String) :
      Benign Saved (messageRef owner peer key, messageObject isSender text)

section Locations
omit [URLSyntax]

theorem apart_profile {u u' : String} (h : u ≠ u') (q q' : Path) :
    Apart (profileRef u ++ q) (profileRef u' ++ q') := by
  refine apart_append ?_ q q'
  simpa [profileRef, Apart] using h

theorem apart_profile_posts (u : String) (q q' : Path) :
    Apart (profileRef u ++ q) (postsRef ++ q') := by
  simp [profileRef, postsRef, Apart]

theorem conversationRef_eq (owner peer : String) :
    conversationRef owner peer = profileRef owner ++ ["chat", peer] := by
  simp [conversationRef, chatRef]

theorem messageRef_eq (owner peer key : String) :
    messageRef owner peer key = profileRef owner ++ ["chat", peer, "messages", key] := by
  simp [messageRef, conversationRef, chatRef]

end Locations

/-- A profile is read from its three fields. -/
theorem decodeProfile_congr {uId : String} {dict dict' : Value}
    (h : ∀ field, field ≠ "chat" → dict'.child field = dict.child field) :
    decodeProfile uId dict' = decodeProfile uId dict := by
  simp only [decodeProfile, h "userName" (by decide), h "userSurname" (by decide),
    h "photoURL" (by decide)]

theorem decodeProfile_null (uId : String) : decodeProfile uId .null = none := rfl

/-- A value that is no string does not complete a profile. -/
theorem decodeProfile_of_insert {uId k : String} {dict v : Value} {p : UserProfile}
    (hv : asString v = none) (h : decodeProfile uId (dict.insert k v) = some p) :
    decodeProfile uId dict = some p := by
  obtain ⟨hid, hname, hsurname, url, hurl, hu⟩ := decodeProfile_fields.mp h
  have hkeep : ∀ {f s : String}, asString ((dict.insert k v).child f) = some s →
      asString (dict.child f) = some s := by
    intro f s hf
    have hne : f ≠ k := by
      rintro rfl
      rw [Node.child_insert, hv] at hf; cases hf
    rwa [Node.child_insert_ne hne] at hf
  exact decodeProfile_fields.mpr ⟨hid, hkeep hname, hkeep hsurname, url, hkeep hurl, hu⟩

omit [URLSyntax] in
theorem asString_messageObject (isSender : Bool) (text : String) (now : Rat) :
    asString (resolve now (messageObject isSender text)) = none := by
  refine asString_of_child (k := "text") (ne_null_of_asString (s := text) ?_)
  rw [asString_child_resolve]
  simp [messageObject]

section Set
variable {Saved : UserProfile → Prop} {db : Value} {now : Rat}

/-- A chat write below another user's or one's own node leaves the profile fields alone. -/
theorem profile_below_chat {owner : String} (q : Path) (v : Value) (uId : String) :
    decodeProfile uId ((db.set (profileRef owner ++ "chat" :: q) v).get (profileRef uId)) =
      decodeProfile uId (db.get (profileRef uId)) := by
  refine decodeProfile_congr ?_
  intro field hf
  have hap : Apart (profileRef owner ++ "chat" :: q) (profileRef uId ++ [field]) := by
    simp [profileRef, Apart, Ne.symm hf]
  have hget := Node.get_set_apart hap v db
  rwa [Node.get_append, Node.get_append] at hget

theorem good_profile (hg : Good Saved db) {p : UserProfile} (hp : Saved p) :
    Good Saved (db.set (profileRef p.uId)
      (resolve now (userObject p.name p.surname p.photoURL))) := by
  refine ⟨?_, ?_, ?_⟩
  · intro uId q hq
    by_cases hu : p.uId = uId
    · subst hu
      rw [Node.get_set_self, decodeProfile_resolve, decodeProfile_userObject] at hq
      cases hq
      exact hp
    · have hap := apart_profile hu [] []
      simp only [List.append_nil] at hap
      rw [Node.get_set_apart hap] at hq
      exact hg.profiles uId q hq
  · intro owner peer k q hq
    by_cases hu : p.uId = owner
    · -- the new node has no chats
      subst hu
      have hchat : (resolve now (userObject p.name p.surname p.photoURL)).child "chat" = .null :=
        child_resolve_null (by simp [userObject])
      rw [conversationRef_eq, Node.get_set] at hq
      simp only [Node.get_cons, Node.get_nil, hchat, Node.child_null, decodeProfile_null] at hq
      cases hq
    · have hap := apart_profile hu [] ["chat", peer]
      rw [List.append_nil, ← conversationRef_eq] at hap
      rw [Node.get_set_apart hap] at hq
      exact hg.headers owner peer k q hq
  · intro k post hpost
    have hap := apart_profile_posts p.uId [] [k]
    rw [List.append_nil] at hap
    rw [snapshotAt, Node.get_set_apart hap] at hpost
    exact hg.posts k post hpost

theorem good_header (hg : Good Saved db) {a : UserProfile} (ha : Saved a)
    (owner : String) :
    Good Saved (db.set (conversationRef owner a.uId) (resolve now (headerObject a))) := by
  refine ⟨?_, ?_, ?_⟩
  · intro uId q hq
    rw [conversationRef_eq, profile_below_chat] at hq
    exact hg.profiles uId q hq
  · intro owner' peer k q hq
    by_cases hc : owner = owner' ∧ a.uId = peer
    · obtain ⟨rfl, rfl⟩ := hc
      rw [Node.get_set_self] at hq
      by_cases hk : k = "author"
      · subst hk
        rw [decodeProfile_header] at hq
        cases hq
        exact ha
      · have hnull : (resolve now (headerObject a)).child k = .null :=
          child_resolve_null (by simp [headerObject, hk])
        rw [hnull, decodeProfile_null] at hq
        cases hq
    · have hap := apart_conversation (not_and_or.mp hc)
      rw [Node.get_set_apart hap] at hq
      exact hg.headers owner' peer k q hq
  · intro k post hpost
    have hap := apart_posts owner a.uId [k]
    rw [snapshotAt, Node.get_set_apart hap] at hpost
    exact hg.posts k post hpost

theorem good_message (hg : Good Saved db) (owner peer key : String) (isSender : Bool)
    (text : String) :
    Good Saved (db.set (messageRef owner peer key) (resolve now (messageObject isSender text))) := by
  refine ⟨?_, ?_, ?_⟩
  · intro uId q hq
    rw [messageRef_eq, profile_below_chat] at hq
    exact hg.profiles uId q hq
  · intro owner' peer' k q hq
    by_cases hc : owner = owner' ∧ peer = peer'
    · obtain ⟨rfl, rfl⟩ := hc
      rw [messageRef, Node.get_set_append] at hq
      by_cases hk : k = "messages"
      · subst hk
        rw [Node.set, Node.child_insert] at hq
        have hold := decodeProfile_of_insert (asString_messageObject isSender text now) hq
        exact hg.headers owner peer "messages" q hold
      · rw [Node.set, Node.child_insert_ne hk] at hq
        exact hg.headers owner peer k q hq
    · have hap := apart_conversation_below (not_and_or.mp hc) ["messages", key] []
      rw [List.append_nil, ← messageRef] at hap
      rw [Node.get_set_apart hap] at hq
      exact hg.headers owner' peer' k q hq
  · intro k post hpost
    have hap := apart_append (apart_posts owner peer [k]) ["messages", key] []
    rw [List.append_nil, ← messageRef] at hap
    rw [snapshotAt, Node.get_set_apart hap] at hpost
    exact hg.posts k post hpost

theorem good_post (hg : Good Saved db) {a : UserProfile} (ha : Saved a)
    (key text : String) :
    Good Saved (db.set (postsRef ++ [key]) (resolve now (postObject a text))) := by
  refine ⟨?_, ?_, ?_⟩
  · intro uId q hq
    have hap := (apart_profile_posts uId [] [key]).symm
    rw [List.append_nil] at hap
    rw [Node.get_set_apart hap] at hq
    exact hg.profiles uId q hq
  · intro owner peer k q hq
    have hap := (apart_profile_posts owner ["chat", peer] [key]).symm
    rw [← conversationRef_eq] at hap
    rw [Node.get_set_apart hap] at hq
    exact hg.headers owner peer k q hq
  · intro k post hpost
    by_cases hk : key = k
    · subst hk
      rw [snapshotAt, Node.get_set_self, postOf_postObject] at hpost
      cases hpost
      exact ha
    · have hap : Apart (postsRef ++ [key]) (postsRef ++ [k]) := by simpa [postsRef, Apart] using hk
      rw [snapshotAt, Node.get_set_apart hap] at hpost
      exact hg.posts k post hpost

/-- The app's writes keep every profile in the store a saved one. -/
theorem good_store (hg : Good Saved db) {w : Path × Value} (hb : Benign Saved w) :
    Good Saved (store now db w) := by
  cases hb with
  | record hr =>
    cases hr with
    | profile p hp => exact good_profile hg hp
    | post key a text ha => exact good_post hg ha key text
  | header owner a ha => exact good_header hg ha owner
  | message owner peer key isSender text => exact good_message hg owner peer key isSender text

theorem good_foldl {ws : List (Path × Value)} (hws : ∀ w ∈ ws, Benign Saved w) :
    ∀ {db : Value}, Good Saved db → Good Saved (ws.foldl (store now) db) := by
  induction ws with
  | nil => intro db hg; exact hg
  | cons w ws ih =>
    intro db hg
    exact ih (fun w' hw' => hws w' (List.mem_cons_of_mem _ hw'))
      (good_store hg (hws w (List.mem_cons_self ..)))

/-- Profile and post writes store no message. -/
theorem record_stores_no_message {w : Path × Value} (hr : Record Saved w) (x y k : String)
    (h : db.get (messageRef x y k) = .null) :
    (store now db w).get (messageRef x y k) = .null := by
  cases hr with
  | profile p hp =>
    by_cases hu : p.uId = x
    · subst hu
      have hchat : (resolve now (userObject p.name p.surname p.photoURL)).child "chat" = .null :=
        child_resolve_null (by simp [userObject])
      rw [store, messageRef_eq, Node.get_set, Node.get_cons, hchat, Node.get_null]
    · have hap := apart_profile hu [] ["chat", y, "messages", k]
      rw [List.append_nil, ← messageRef_eq] at hap
      rw [store, Node.get_set_apart hap, h]
  | post key a text ha =>
    have hap := (apart_profile_posts x ["chat", y, "messages", k] [key]).symm
    rw [← messageRef_eq] at hap
    rw [store, Node.get_set_apart hap, h]

end Set

/-- Every reader yields saved profiles from a good store. -/
theorem read_saved {Saved : UserProfile → Prop} {view : Value} (hg : Good Saved view)
    {reader : Reader} {p : UserProfile} (h : p ∈ (reader.read view).people) : Saved p := by
  cases reader with
  | userProfile uId =>
    exact hg.profiles uId p (observeUserProfile_iff.mp (Option.mem_toList.mp h))
  | persons =>
    obtain ⟨uId, -, hp⟩ := mem_collect.mp h
    rw [personOf_eq, observeUserProfile_iff, key_concat] at hp
    exact hg.profiles uId p hp
  | partners owner =>
    obtain ⟨peer, -, hp⟩ := mem_collect.mp h
    rw [partnerOf_iff, key_concat] at hp
    have hhdr := hg.headers owner peer "author" p
    rw [conversationRef, Node.get_append] at hhdr
    exact hhdr hp
  | autors owner peer =>
    obtain ⟨k, -, hp⟩ := mem_collect.mp h
    rw [autorOf_iff, snapshotAt, conversationRef, key_concat] at hp
    exact hg.headers owner peer k p hp
  | posts =>
    obtain ⟨post, hpost, rfl⟩ := List.mem_map.mp h
    obtain ⟨k, -, hp⟩ := mem_collect.mp hpost
    refine hg.posts k post ?_
    rw [snapshotAt, Node.get_append]
    exact hp

/-! ### Writes in issue order -/

section Order
omit [URLSyntax]

theorem mem_merge {w : Path × Value} {order : List Lane} {chats records : List (Path × Value)}
    (h : w ∈ merge order chats records) : w ∈ chats ∨ w ∈ records := by
  fun_induction merge order chats records with
  | case1 order w' chats records ih =>
    rcases List.mem_cons.mp h with rfl | h
    · exact Or.inl (List.mem_cons_self ..)
    · exact (ih h).imp_left (List.mem_cons_of_mem _)
  | case2 order chats w' records ih =>
    rcases List.mem_cons.mp h with rfl | h
    · exact Or.inr (List.mem_cons_self ..)
    · exact (ih h).imp_right (List.mem_cons_of_mem _)
  | case3 lane order chats records _ _ ih => exact ih h
  | case4 chats records => exact List.mem_append.mp h

/-- With as many places as there are writes, each write stands at a place of its lane. -/
theorem merge_places (order : List Lane) (chats records : List (Path × Value))
    (hc : order.count .chat = chats.length) (hr : order.count .record = records.length) :
    ∃ ws : List (Lane × Path × Value), ws.map Prod.fst = order ∧
      ws.map Prod.snd = merge order chats records ∧
      (ws.filter (fun w => w.1 = .chat)).map Prod.snd = chats ∧
      (ws.filter (fun w => w.1 = .record)).map Prod.snd = records := by
  fun_induction merge order chats records with
  | case1 order w chats records ih =>
    obtain ⟨ws, horder, hmerge, hchats, hrecords⟩ := ih (by simpa using hc) (by simpa using hr)
    exact ⟨(.chat, w) :: ws, by simp [horder], by simp [hmerge], by simp [hchats], by simp [hrecords]⟩
  | case2 order chats w records ih =>
    obtain ⟨ws, horder, hmerge, hchats, hrecords⟩ := ih (by simpa using hc) (by simpa using hr)
    exact ⟨(.record, w) :: ws, by simp [horder], by simp [hmerge], by simp [hchats], by simp [hrecords]⟩
  | case3 lane order chats records hchat hrecord ih =>
    -- there is a write of the lane
    cases lane with
    | chat =>
      cases chats with
      | nil => simp at hc
      | cons w chats => exact absurd rfl (hchat w chats rfl)
    | record =>
      cases records with
      | nil => simp at hr
      | cons w records => exact absurd rfl (hrecord w records rfl)
  | case4 chats records =>
    obtain rfl := List.eq_nil_of_length_eq_zero hc.symm
    obtain rfl := List.eq_nil_of_length_eq_zero hr.symm
    exact ⟨[], rfl, rfl, rfl, rfl⟩

end Order

/-- A write that waits on a device is one of its chats, or a profile or a post. -/
theorem mem_waiting {s : State} {client : ℕ} {w : Path × Value} (h : w ∈ s.waiting client) :
    (∃ v ∈ s.chat.queue client, w = (v.path, v.value)) ∨ w ∈ s.pending client := by
  refine (mem_merge h).imp_left ?_
  intro hw
  obtain ⟨v, hv, rfl⟩ := List.mem_map.mp hw
  exact ⟨v, hv, rfl⟩

/-- Every write that waits on a device has its place in the order, and no other has. -/
def InOrder (s : State) : Prop :=
  ∀ c, (s.order c).count .chat = (s.chat.queue c).length ∧
    (s.order c).count .record = (s.pending c).length

section
variable {s s' : State} {e : Event}

theorem inOrder_push (hs : InOrder s) (client : ℕ) (w : Path × Value) : InOrder (s.push client w) := by
  intro c
  by_cases hc : c = client
  · subst hc
    simp [State.push, hs c]
  · simpa [State.push, Function.update_of_ne hc] using hs c

theorem inOrder_judge (hs : InOrder s) {client : ℕ} {w : Path × Value} {ws : List (Path × Value)}
    (hp : s.pending client = w :: ws) : InOrder (s.judge client ws) := by
  intro c
  by_cases hc : c = client
  · subst hc
    obtain ⟨hchat, hrecord⟩ := hs c
    rw [hp, List.length_cons] at hrecord
    simp only [State.judge, Function.update_self, List.count_erase, hchat, hrecord]
    exact ⟨rfl, rfl⟩
  · simpa [State.judge, Function.update_of_ne hc] using hs c

theorem inOrder_chat (hs : InOrder s) {e : Chat.Event} (h : step s (.chat e) = some s') :
    InOrder s' := by
  obtain ⟨chat, hc, hs'⟩ := Option.bind_eq_some_iff.mp h
  split_ifs at hs' with hallowed
  cases hs'
  intro c
  obtain ⟨hchat, hrecord⟩ := hs c
  rcases queue_step hc c with ⟨ws, hq⟩ | ⟨w, hq⟩
  · simp [turn, hq, List.count_replicate, hchat, hrecord]
  · simp only [turn, hq, List.length_cons, Nat.lt_add_one, if_true, List.count_erase]
    rw [hq, List.length_cons] at hchat
    simp [hchat, hrecord]

end

/-- In every run, the order of a device names each of its waiting writes once. -/
theorem inOrder (db : Value) {es : List Event} {s : State} (hr : run step (init db) es = some s) :
    InOrder s := by
  refine run_invariant (I := InOrder) (fun _ => ⟨rfl, rfl⟩) ?_ hr
  intro s e s' hs h
  cases e with
  | saveProfile client uId n sn url =>
    cases h
    exact inOrder_push hs client _
  | savePost client key text =>
    simp only [step] at h
    split at h
    · cases h
      exact hs
    · cases h
      exact inOrder_push hs client _
  | commit client now | reject client =>
    simp only [step] at h
    split at h
    · cases h
    · next w ws hp =>
      cases h
      exact inOrder_judge hs hp
  | chat e => exact inOrder_chat hs h
  | raise client now | signOut client =>
    cases h
    exact hs
  | value client reader n =>
    obtain ⟨view, -, hs'⟩ := Option.bind_eq_some_iff.mp h
    cases hs'
    cases reader <;> exact hs

/-- In every run, the writes that wait on a device are those of its two queues, each at its place in the
    order in which they were issued. -/
theorem waiting_places (db : Value) {es : List Event} {s : State}
    (hr : run step (init db) es = some s) (client : ℕ) :
    ∃ ws : List (Lane × Path × Value), ws.map Prod.fst = s.order client ∧
      ws.map Prod.snd = s.waiting client ∧
      (ws.filter (fun w => w.1 = .chat)).map Prod.snd =
        (s.chat.queue client).map (fun w => (w.path, w.value)) ∧
      (ws.filter (fun w => w.1 = .record)).map Prod.snd = s.pending client := by
  obtain ⟨hchat, hrecord⟩ := inOrder db hr client
  exact merge_places _ _ _ (by rw [hchat, List.length_map]) hrecord

/-! ### Runs -/

section Grow
variable {Saved Saved' : UserProfile → Prop}

theorem good_grow {db : Value} (h : ∀ p, Saved p → Saved' p) (hg : Good Saved db) : Good Saved' db :=
  ⟨fun uId p hp => h p (hg.profiles uId p hp),
    fun owner peer k p hp => h p (hg.headers owner peer k p hp),
    fun k post hp => h post.author (hg.posts k post hp)⟩

theorem record_grow {w : Path × Value} (h : ∀ p, Saved p → Saved' p) (hr : Record Saved w) :
    Record Saved' w := by
  cases hr with
  | profile p hp => exact .profile p (h p hp)
  | post key a text ha => exact .post key a text (h a ha)

/-- Everything in the app that holds a profile holds a saved one. -/
structure AsSaved (Saved : UserProfile → Prop) (s : State) : Prop where
  wf : Wf s.chat
  good : Good Saved s.chat.db
  raised : ∀ view ∈ s.raised, Good Saved view
  pending : ∀ client, ∀ w ∈ s.pending client, Record Saved w
  sends : ∀ σ side, s.chat.phase σ side ≠ .idle → Saved σ.curentUser ∧ Saved σ.user
  current : ∀ client p, s.currentUserProfile client = some p → Saved p
  shown : ∀ client, ∀ p ∈ s.shown client, Saved p
  yielded : ∀ p ∈ s.yielded, Saved p

theorem asSaved_init {db : Value} (hdb : Good Saved db) : AsSaved Saved (init db) where
  wf := wf_init db
  good := hdb
  raised := fun _ h => (List.not_mem_nil h).elim
  pending := fun _ _ h => (List.not_mem_nil h).elim
  sends := fun _ _ h => absurd rfl h
  current := fun _ _ h => (by cases h)
  shown := fun _ _ h => (List.not_mem_nil h).elim
  yielded := fun _ h => (List.not_mem_nil h).elim

theorem AsSaved.grow {s : State} (h : ∀ p, Saved p → Saved' p) (hs : AsSaved Saved s) :
    AsSaved Saved' s where
  wf := hs.wf
  good := good_grow h hs.good
  raised := fun view hview => good_grow h (hs.raised view hview)
  pending := fun client w hw => record_grow h (hs.pending client w hw)
  sends := fun σ side hσ => (hs.sends σ side hσ).imp (h _) (h _)
  current := fun client p hp => h p (hs.current client p hp)
  shown := fun client p hp => h p (hs.shown client p hp)
  yielded := fun p hp => h p (hs.yielded p hp)

end Grow

section Step
variable {Saved : UserProfile → Prop} {s s' : State} {e : Event}

/-- A queued chat write names a saved profile. -/
theorem queue_benign (hs : AsSaved Saved s) (client : ℕ) {w : Write} (hw : w ∈ s.chat.queue client) :
    Benign Saved (w.path, w.value) := by
  obtain ⟨-, i, hi, hwrite, -⟩ := hs.wf.queued client w hw
  obtain ⟨hcur, huser⟩ := hs.sends w.send w.side (by simp [hi])
  rw [hwrite]
  cases w.kind with
  | message => exact .message ..
  | header =>
    cases w.side with
    | receiver => exact .header w.send.user.uId w.send.curentUser hcur
    | sender => exact .header w.send.curentUser.uId w.send.user huser

theorem view_good (hs : AsSaved Saved s) (client : ℕ) (now : Rat) : Good Saved (s.view client now) := by
  refine good_foldl ?_ hs.good
  intro w hw
  rcases mem_waiting hw with ⟨v, hv, rfl⟩ | hw
  · exact queue_benign hs client hv
  · exact .record (hs.pending client w hw)

theorem push_records (client : ℕ) {w : Path × Value}
    (hs : ∀ c, ∀ w ∈ s.pending c, Record Saved w) (hw : Record Saved w) :
    ∀ c, ∀ w' ∈ (s.push client w).pending c, Record Saved w' := by
  refine (Function.forall_update_iff s.pending (fun _ ws => ∀ w' ∈ ws, Record Saved w')).mpr
    ⟨?_, fun c _ => hs c⟩
  intro w' hw'
  rcases List.mem_append.mp hw' with hw' | hw'
  · exact hs client w' hw'
  · rw [List.mem_singleton.mp hw']; exact hw

theorem pop_records {client : ℕ} {w : Path × Value} {ws : List (Path × Value)}
    (hs : ∀ c, ∀ w ∈ s.pending c, Record Saved w) (hp : s.pending client = w :: ws) :
    ∀ c, ∀ w' ∈ (s.judge client ws).pending c, Record Saved w' := by
  refine (Function.forall_update_iff s.pending (fun _ ws => ∀ w' ∈ ws, Record Saved w')).mpr
    ⟨?_, fun c _ => hs c⟩
  intro w' hw'
  exact hs client w' (by rw [hp]; exact List.mem_cons_of_mem _ hw')

theorem asSaved_value {client n : ℕ} {reader : Reader} (hs : AsSaved Saved s)
    (h : step s (.value client reader n) = some s') : AsSaved Saved s' := by
  obtain ⟨view, hn, hs'⟩ := Option.bind_eq_some_iff.mp h
  cases hs'
  have hview := hs.raised view (List.mem_of_getElem? hn)
  have hread : ∀ p ∈ (reader.read view).people, Saved p := fun p hp => read_saved hview hp
  have hyield : ∀ p ∈ s.yielded ++ (reader.read view).people, Saved p := by
    intro p hp
    rcases List.mem_append.mp hp with hp | hp
    · exact hs.yielded p hp
    · exact hread p hp
  have hshown : ∀ c,
      ∀ p ∈ Function.update s.shown client (s.shown client ++ (reader.read view).people) c, Saved p := by
    refine (Function.forall_update_iff s.shown
      (fun _ ps => ∀ p ∈ ps, Saved p)).mpr ⟨?_, fun c _ => hs.shown c⟩
    intro p hp
    rcases List.mem_append.mp hp with hp | hp
    · exact hs.shown client p hp
    · exact hread p hp
  cases reader with
  | userProfile uId =>
    refine { hs with current := ?_, yielded := hyield }
    exact (Function.forall_update_iff s.currentUserProfile
      (fun _ q => ∀ p, q = some p → Saved p)).mpr
      ⟨fun p hp => hread p (List.mem_of_mem_head? hp), fun c _ => hs.current c⟩
  | persons | partners owner => exact { hs with shown := hshown, yielded := hyield }
  | autors owner peer | posts => exact { hs with yielded := hyield }

theorem asSaved_chat {e : Chat.Event} (hs : AsSaved Saved s) (h : step s (.chat e) = some s') :
    AsSaved Saved s' := by
  obtain ⟨chat, hc, hs'⟩ := Option.bind_eq_some_iff.mp h
  split_ifs at hs' with hallowed
  cases hs'
  refine { hs with wf := wf_step hs.wf hc, good := ?_, sends := ?_ }
  · rcases db_step hs.wf hc with ⟨hdb, -⟩ | ⟨σ, side, kind, now, i, rfl, hp, hpend, -, hdb⟩
    · simp only [hdb]; exact hs.good
    · obtain ⟨w, s₁, hpop, -⟩ := step_store.mp hc
      obtain ⟨j, ws, hj, -, rfl, hq, -⟩ := pop_wf hs.wf hpop
      rw [hp] at hj; cases hj
      have hb := queue_benign hs σ.client (by rw [hq]; exact List.mem_cons_self ..)
      simp only [hdb]
      exact good_store hs.good hb
  · intro σ side hσ
    rcases phase_step hc σ side with ⟨-, heq⟩ | hadv
    · exact hs.sends σ side (by rwa [← heq])
    · generalize hph : s.chat.phase σ side = ph at hadv
      generalize chat.phase σ side = ph' at hadv
      cases hadv with
      | tap => exact ⟨hs.current _ _ hallowed.1, hs.shown _ _ hallowed.2⟩
      | snapshot | callback | store | reject | complete => exact hs.sends σ side (by simp [hph])

/-- A step spreads what has been saved; only `saveProfile` adds to it. -/
theorem asSaved_step (hs : AsSaved Saved s) (h : step s e = some s')
    (hsave : ∀ client uId n sn url, e = .saveProfile client uId n sn url → Saved ⟨uId, n, sn, url⟩) :
    AsSaved Saved s' := by
  cases e with
  | value client reader n => exact asSaved_value hs h
  | chat e => exact asSaved_chat hs h
  | saveProfile client uId n sn url =>
    cases h
    have hrecord := Record.profile ⟨uId, n, sn, url⟩ (hsave client uId n sn url rfl)
    exact { hs with pending := push_records client hs.pending hrecord }
  | savePost client key text =>
    simp only [step, PostApp.savePost] at h
    cases hp : s.currentUserProfile client with
    | none => rw [hp] at h; cases h; exact hs
    | some p =>
      rw [hp] at h; cases h
      have hrecord := Record.post key p text (hs.current client p hp)
      exact { hs with pending := push_records client hs.pending hrecord }
  | commit client now =>
    simp only [step] at h
    split at h
    · cases h
    · next w ws hp =>
      cases h
      have hr := hs.pending client w (by rw [hp]; exact List.mem_cons_self ..)
      exact { hs with
        wf := wf_db hs.wf (fun x y k => record_stores_no_message hr x y k)
        good := good_store hs.good (.record hr)
        pending := pop_records hs.pending hp }
  | reject client =>
    simp only [step] at h
    split at h
    · cases h
    · next w ws hp =>
      cases h
      exact { hs with pending := pop_records hs.pending hp }
  | raise client now =>
    cases h
    refine { hs with raised := ?_ }
    intro v hv
    rcases List.mem_append.mp hv with hv | hv
    · exact hs.raised v hv
    · rw [List.mem_singleton.mp hv]; exact view_good hs client now
  | signOut client =>
    cases h
    refine { hs with current := ?_ }
    exact (Function.forall_update_iff s.currentUserProfile
      (fun _ q => ∀ p, q = some p → Saved p)).mpr
      ⟨fun p hp => (by cases hp), fun c _ => hs.current c⟩

end Step

/-- Some `saveProfile` among the events was called with the profile. -/
def SavedIn (es : List Event) (p : UserProfile) : Prop :=
  ∃ client, .saveProfile client p.uId p.name p.surname p.photoURL ∈ es

/-- Whatever profile a reader yields has been saved, in every run from a store without profiles. -/
theorem yielded_savedIn {db : Value} {es : List Event} {s : State} (hdb : Good (fun _ => False) db)
    (hr : run step (init db) es = some s) : ∀ p ∈ s.yielded, SavedIn es p := by
  have hs : AsSaved (SavedIn es) s := by
    refine run_history (I := fun pre s => AsSaved (SavedIn pre) s)
      (asSaved_init (good_grow (fun _ h => h.elim) hdb)) ?_ hr
    intro pre s e s' hs h
    refine asSaved_step (hs.grow fun p ⟨client, hmem⟩ => ⟨client, List.mem_append_left _ hmem⟩) h ?_
    rintro client uId n sn url rfl
    exact ⟨client, List.mem_append_right _ (List.mem_singleton_self _)⟩
  exact hs.yielded

section Accounts

theorem mem_accounts {es : List Event} {uId : String} : uId ∈ es.filterMap Event.account ↔
    ∃ client n sn url, .saveProfile client uId n sn url ∈ es := by
  rw [List.mem_filterMap]
  constructor
  · rintro ⟨e, he, hacc⟩
    cases e with
    | saveProfile client u n sn url =>
      cases hacc
      exact ⟨client, n, sn, url, he⟩
    | savePost | commit | reject | chat | raise | value | signOut => cases hacc
  · rintro ⟨client, n, sn, url, he⟩
    exact ⟨_, he, rfl⟩

/-- Where each account saves its profile once, two saves for one uid are the same event. -/
theorem saved_once {es : List Event} (hone : (es.filterMap Event.account).Nodup) {e e' : Event}
    (uId : String) (he : e ∈ es) (he' : e' ∈ es) (hacc : e.account = some uId)
    (hacc' : e'.account = some uId) : e = e' := by
  by_contra hne
  have hpair : es.Pairwise fun e e' => ∀ u, e.account = some u → ∀ u', e'.account = some u' → u ≠ u' :=
    List.pairwise_filterMap.mp hone
  have hsymm : Std.Symm fun e e' : Event =>
      ∀ u, e.account = some u → ∀ u', e'.account = some u' → u ≠ u' :=
    ⟨fun _ _ h u hu u' hu' heq => h u' hu' u hu heq.symm⟩
  exact hpair.forall he he' hne uId hacc uId hacc' rfl

end Accounts

/-- In every run, from a store without profiles, in which each account's profile is saved once: a
    profile that any reader yields for a uid is what the account's `saveProfile` was called with. -/
theorem yielded_as_saved (db : Value) (es : List Event) (s : State)
    (hdb : Good (fun _ => False) db) (hone : (es.filterMap Event.account).Nodup)
    (hr : run step (init db) es = some s) :
    ∀ p ∈ s.yielded,
      (∃ client, .saveProfile client p.uId p.name p.surname p.photoURL ∈ es) ∧
      ∀ client n sn url, .saveProfile client p.uId n sn url ∈ es →
        n = p.name ∧ sn = p.surname ∧ url = p.photoURL := by
  intro p hp
  obtain ⟨client, hmem⟩ := yielded_savedIn hdb hr p hp
  refine ⟨⟨client, hmem⟩, ?_⟩
  intro client' n sn url hmem'
  have heq := saved_once hone p.uId hmem' hmem rfl rfl
  obtain ⟨-, -, hn, hsn, hurl⟩ := Event.saveProfile.inj heq
  exact ⟨hn, hsn, hurl⟩

theorem good_null : Good (fun _ => False) .null := by
  refine ⟨?_, ?_, ?_⟩
  · intro uId p hp
    rw [Node.get_null, decodeProfile_null] at hp
    cases hp
  · intro owner peer k p hp
    rw [Node.get_null, Node.child_null, decodeProfile_null] at hp
    cases hp
  · intro k post hp
    rw [snapshotAt, Node.get_null] at hp
    cases hp

omit [URLSyntax] in
/-- Ann's profile reaches Bob's conversation list through the header of her first message. -/
theorem yielded_as_saved_header : ∃ (_ : URLSyntax) (es : List Event) (s : State)
    (p : UserProfile), run step (init .null) es = some s ∧ p ∈ s.yielded ∧
      ∃ client, .saveProfile client p.uId p.name p.surname p.photoURL ∈ es := by
  let _ := nonEmptyURLs
  let σ : Send := ⟨0, 0, 0, ann, bob⟩
  let es : List Event := [.saveProfile 0 "A" "Ann" "Lee" ann.photoURL,
    .saveProfile 1 "B" "Bob" "Ray" bob.photoURL, .commit 0 1, .commit 1 2, .raise 0 3,
    .value 0 (.userProfile "A") 0, .value 0 .persons 0, .chat (.tap σ),
    .chat (.snapshot σ .receiver), .chat (.callback σ .receiver "-L1" "hi"),
    .chat (.store σ .receiver .header 4), .raise 1 5, .value 1 (.partners "B") 1]
  obtain ⟨s, hs, hp⟩ := exists_of_run_any step (init .null) es
    (fun s => s.yielded.getLast? = some ann) (by decide)
  have hmem : ann ∈ s.yielded := List.mem_of_getLast? (decide_eq_true_iff.mp hp)
  obtain ⟨hsaved, -⟩ := yielded_as_saved .null es s good_null (by decide) hs ann hmem
  exact ⟨nonEmptyURLs, es, s, ann, hs, hmem, hsaved⟩

end PostApp.Copies
