import PostApp.Model.Database

/-! The model classes and how they are written and read.

    `UserProfile`, `Message` and `Post` are encoded by hand at every writer (`saveProfile`,
    `savePost`, the header and the message of `sendMessage`) and decoded by hand at every reader. The
    encoders and the reader loops stand here side by side under the names of their functions; each
    round trip says that what a writer stores, the matching reader yields. -/

namespace PostApp
open Schemes

/-- Which strings `URL(string:)` accepts; the grammar is Foundation's. -/
class URLSyntax where
  valid : String → Bool

/-- Every non-empty string is a URL: the syntax of the concrete runs. -/
@[reducible] def nonEmptyURLs : URLSyntax := ⟨fun s => !s.isEmpty⟩

variable [URLSyntax]

/-- A URL is a string that `URL(string:)` accepts. -/
structure URL where
  absoluteString : String
  isValid : URLSyntax.valid absoluteString = true
  deriving DecidableEq

/-- `URL(string:)` -/
def URL.ofString (s : String) : Option URL :=
  if h : URLSyntax.valid s = true then some ⟨s, h⟩ else none

@[simp] theorem URL.ofString_absoluteString (u : URL) : URL.ofString u.absoluteString = some u := by
  simp [URL.ofString, u.isValid]

structure UserProfile where
  uId : String
  name : String
  surname : String
  photoURL : URL
  deriving DecidableEq

/-- The two users of the concrete runs. -/
@[reducible] def ann : @UserProfile nonEmptyURLs :=
  @UserProfile.mk nonEmptyURLs "A" "Ann" "Lee" (@URL.mk nonEmptyURLs "a.jpg" rfl)
@[reducible] def bob : @UserProfile nonEmptyURLs :=
  @UserProfile.mk nonEmptyURLs "B" "Bob" "Ray" (@URL.mk nonEmptyURLs "b.jpg" rfl)

structure Message where
  autor : UserProfile
  mId : String
  text : String
  timestamp : Rat
  isSender : Bool
  deriving DecidableEq

structure Post where
  ref : Path
  id : String
  author : UserProfile
  text : String
  timestamp : Rat
  deriving DecidableEq

/-! ### Locations -/

/-- `users/profile/<uId>` -/
def profileRef (uId : String) : Path := ["users", "profile", uId]

/-- `users/profile/<uId>/chat` -/
def chatRef (uId : String) : Path := profileRef uId ++ ["chat"]

/-- `users/profile/<owner>/chat/<peer>`: the copy of the conversation that `owner` keeps. -/
def conversationRef (owner peer : String) : Path := chatRef owner ++ [peer]

/-- `users/profile/<owner>/chat/<peer>/messages/<key>` -/
def messageRef (owner peer key : String) : Path := conversationRef owner peer ++ ["messages", key]

def postsRef : Path := ["posts"]

/-! ### Writers -/

/-- The object of `SignUpVC.saveProfile`. -/
def userObject (userName userSurname : String) (profileImageURL : URL) : Value :=
  Node.ofFields [("userName", Value.string userName), ("userSurname", Value.string userSurname),
    ("photoURL", Value.string profileImageURL.absoluteString)]

/-- The author header of `PrivateChatVC.sendMessage`. -/
def headerObject (author : UserProfile) : Value :=
  Node.ofFields [("author", Node.ofFields
    [("userName", Value.string author.name), ("userSurname", Value.string author.surname),
      ("photoURL", Value.string author.photoURL.absoluteString)])]

/-- The message of `PrivateChatVC.sendMessage`. -/
def messageObject (isSender : Bool) (text : String) : Value :=
  Node.ofFields [("isSender", Value.bool isSender), ("text", Value.string text),
    ("timestamp", serverTimestamp)]

/-- The post of `HomeVC.savePost`. -/
def postObject (userProfile : UserProfile) (text : String) : Value :=
  Node.ofFields [("author", Node.ofFields
      [("uId", Value.string userProfile.uId), ("userName", Value.string userProfile.name),
        ("userSurname", Value.string userProfile.surname),
        ("photoURL", Value.string userProfile.photoURL.absoluteString)]),
    ("text", Value.string text), ("timestamp", serverTimestamp)]

/-- `HomeVC.savePost`: the author, location and object of the post, if a profile is loaded. -/
def savePost (currentUserProfile : Option UserProfile) (key text : String) :
    Option (UserProfile × Path × Value) := do
  let userProfile ← currentUserProfile
  return (userProfile, postsRef ++ [key], postObject userProfile text)

/-! ### Readers -/

/-- The loop every reader runs over the children: append what decodes, skip what does not. -/
def collect {α : Type} (decode : DataSnapshot → Option α) (children : List DataSnapshot) : List α :=
  children.foldl (fun xs child =>
    match decode child with
    | some x => xs ++ [x]
    | none => xs) []

omit [URLSyntax] in
theorem collect_eq_filterMap {α : Type} (decode : DataSnapshot → Option α)
    (children : List DataSnapshot) : collect decode children = children.filterMap decode := by
  suffices h : ∀ xs : List α, children.foldl (fun xs child =>
      match decode child with
      | some x => xs ++ [x]
      | none => xs) xs = xs ++ children.filterMap decode by
    simpa [collect] using h []
  induction children with
  | nil => simp
  | cons c cs ih =>
    intro xs
    rw [List.foldl_cons, ih]
    cases h : decode c <;> simp [h]

omit [URLSyntax] in
/-- What a reader collects: the children, each under its key, that decode. -/
theorem mem_collect {α : Type} {decode : DataSnapshot → Option α} {snapshot : DataSnapshot} {x : α} :
    x ∈ collect decode snapshot.children ↔ ∃ k, snapshot.value.child k ≠ .null ∧
      decode ⟨snapshot.ref ++ [k], snapshot.value.child k⟩ = some x := by
  rw [collect_eq_filterMap, List.mem_filterMap]
  constructor
  · rintro ⟨c, hc, hx⟩
    obtain ⟨⟨k, v⟩, hmem, rfl⟩ := List.mem_map.mp hc
    obtain ⟨rfl, hne⟩ := Node.mem_children.mp hmem
    exact ⟨k, hne, hx⟩
  · rintro ⟨k, hne, hx⟩
    exact ⟨_, List.mem_map.mpr ⟨(k, _), Node.mem_children.mpr ⟨rfl, hne⟩, rfl⟩, hx⟩

/-- The three profile fields of a dictionary. -/
def decodeProfile (uId : String) (dict : Value) : Option UserProfile := do
  let userName ← asString (dict.child "userName")
  let userSurname ← asString (dict.child "userSurname")
  let photoURL ← asString (dict.child "photoURL")
  let url ← URL.ofString photoURL
  return ⟨uId, userName, userSurname, url⟩

/-- `UserService.observeUserProfile`: the profile handed to the completion. -/
def observeUserProfile (uId : String) (snapshot : DataSnapshot) : Option UserProfile := do
  let dict ← asDict snapshot.value
  decodeProfile uId dict

/-- One child in the loop of `AllPersonVC.observeUsers`. -/
def personOf (childSnapshot : DataSnapshot) : Option UserProfile := do
  let dict ← asDict childSnapshot.value
  let photoURL ← asString (dict.child "photoURL")
  let userName ← asString (dict.child "userName")
  let userSurname ← asString (dict.child "userSurname")
  let url ← URL.ofString photoURL
  return ⟨childSnapshot.key, userName, userSurname, url⟩

/-- `AllPersonVC.observeUsers`: the new `users` array. -/
def observePersons (snapshot : DataSnapshot) : List UserProfile :=
  collect personOf snapshot.children

/-- One child in the loop of `MessageVC.observeUsers`. -/
def partnerOf (childSnapshot : DataSnapshot) : Option UserProfile := do
  let dict ← asDict childSnapshot.value
  let author ← asDict (dict.child "author")
  decodeProfile childSnapshot.key author

/-- `MessageVC.observeUsers`: the new `users` array. -/
def observePartners (snapshot : DataSnapshot) : List UserProfile :=
  collect partnerOf snapshot.children

/-- One child in the outer loop of `PrivateChatVC.observeMesseges`: the `autor`, whose uid is the key
    of the conversation `snapshot`, not of the child. -/
def autorOf (snapshot childSnapshot : DataSnapshot) : Option UserProfile := do
  let author ← asDict childSnapshot.value
  decodeProfile snapshot.key author

/-- The outer loop of `PrivateChatVC.observeMesseges`: one messages listener per decoded child. -/
def observeAutors (snapshot : DataSnapshot) : List UserProfile :=
  collect (autorOf snapshot) snapshot.children

/-- One child in the inner loop of `PrivateChatVC.observeMesseges`. The `snapshot` in scope there is
    the one of the messages node, so `mId` is that node's key. -/
def messageOf (autor : UserProfile) (snapshot childSnapshot : DataSnapshot) : Option Message := do
  let dict ← asDict childSnapshot.value
  let text ← asString (dict.child "text")
  let timestamp ← asDouble (dict.child "timestamp")
  let isSender ← asBool (dict.child "isSender")
  return ⟨autor, snapshot.key, text, timestamp, isSender⟩

/-- The inner loop of `PrivateChatVC.observeMesseges`: the new `messages` array. -/
def observeMessages (autor : UserProfile) (snapshot : DataSnapshot) : List Message :=
  collect (messageOf autor snapshot) snapshot.children

/-- One child in the loop of `HomeVC.observePosts`. -/
def postOf (childSnapshot : DataSnapshot) : Option Post := do
  let dict ← asDict childSnapshot.value
  let author ← asDict (dict.child "author")
  let uId ← asString (author.child "uId")
  let userName ← asString (author.child "userName")
  let userSurname ← asString (author.child "userSurname")
  let photoURL ← asString (author.child "photoURL")
  let url ← URL.ofString photoURL
  let text ← asString (dict.child "text")
  let timestamp ← asDouble (dict.child "timestamp")
  return ⟨childSnapshot.ref, childSnapshot.key, ⟨uId, userName, userSurname, url⟩, text, timestamp⟩

/-- `HomeVC.observePosts`: the new `posts` array. -/
def observePosts (snapshot : DataSnapshot) : List Post :=
  collect postOf snapshot.children

/-! ### Round trips -/

theorem decodeProfile_fields {uId : String} {dict : Value} {p : UserProfile} :
    decodeProfile uId dict = some p ↔ p.uId = uId ∧ asString (dict.child "userName") = some p.name ∧
      asString (dict.child "userSurname") = some p.surname ∧
      ∃ photoURL, asString (dict.child "photoURL") = some photoURL ∧
        URL.ofString photoURL = some p.photoURL := by
  obtain ⟨i, n, s, u⟩ := p
  simp only [decodeProfile, Option.bind_eq_bind, Option.bind_eq_some_iff, Option.pure_def,
    Option.some.injEq, UserProfile.mk.injEq]
  constructor
  · rintro ⟨n', hn, s', hs, ph, hph, u', hu, rfl, rfl, rfl, rfl⟩
    exact ⟨rfl, hn, hs, ph, hph, hu⟩
  · rintro ⟨rfl, hn, hs, ph, hph, hu⟩
    exact ⟨n, hn, s, hs, ph, hph, u, hu, rfl, rfl, rfl, rfl⟩

/-- A dictionary that decodes as a profile is one. -/
theorem asDict_of_decodeProfile {uId : String} {dict : Value} {p : UserProfile}
    (h : decodeProfile uId dict = some p) : asDict dict = some dict :=
  asDict_of_child (ne_null_of_asString (decodeProfile_fields.mp h).2.1)

theorem observeUserProfile_iff {uId : String} {snapshot : DataSnapshot} {p : UserProfile} :
    observeUserProfile uId snapshot = some p ↔ decodeProfile uId snapshot.value = some p := by
  simp only [observeUserProfile, Option.bind_eq_bind, Option.bind_eq_some_iff]
  constructor
  · rintro ⟨dict, hd, hp⟩
    rwa [asDict_eq hd] at hp
  · intro hp; exact ⟨_, asDict_of_decodeProfile hp, hp⟩

/-- A post keeps the location and the key of the child it was decoded from. -/
theorem postOf_ref_id {childSnapshot : DataSnapshot} {post : Post}
    (h : postOf childSnapshot = some post) :
    post.ref = childSnapshot.ref ∧ post.id = childSnapshot.key ∧ childSnapshot.value ≠ .null := by
  simp only [postOf, Option.bind_eq_bind, Option.bind_eq_some_iff] at h
  obtain ⟨dict, hd, author, _, uId, _, n, _, sn, _, photoURL, _, url, _, text, htext, t, _, hpost⟩ := h
  cases hpost
  refine ⟨rfl, rfl, ?_⟩
  rw [← asDict_eq hd]
  exact Node.ne_null_of_child (ne_null_of_asString htext)

/-- The order in which a reader takes the fields does not matter. -/
theorem personOf_eq (childSnapshot : DataSnapshot) :
    personOf childSnapshot = observeUserProfile childSnapshot.key childSnapshot := by
  simp only [personOf, observeUserProfile, decodeProfile, Option.bind_eq_bind]
  cases asDict childSnapshot.value with
  | none => rfl
  | some dict =>
    simp only [Option.bind_some]
    cases asString (dict.child "photoURL") <;> cases asString (dict.child "userName") <;>
      cases asString (dict.child "userSurname") <;> rfl

theorem partnerOf_iff {childSnapshot : DataSnapshot} {p : UserProfile} :
    partnerOf childSnapshot = some p ↔
      decodeProfile childSnapshot.key (childSnapshot.value.child "author") = some p := by
  simp only [partnerOf, Option.bind_eq_bind, Option.bind_eq_some_iff]
  constructor
  · rintro ⟨dict, hd, author, ha, hp⟩
    obtain rfl := asDict_eq hd
    rwa [asDict_eq ha] at hp
  · intro hp
    have hname := ne_null_of_asString (decodeProfile_fields.mp hp).2.1
    exact ⟨_, asDict_of_child (Node.ne_null_of_child hname), _, asDict_of_decodeProfile hp, hp⟩

theorem autorOf_iff {snapshot childSnapshot : DataSnapshot} {p : UserProfile} :
    autorOf snapshot childSnapshot = some p ↔
      decodeProfile snapshot.key childSnapshot.value = some p := by
  simp only [autorOf, Option.bind_eq_bind, Option.bind_eq_some_iff]
  constructor
  · rintro ⟨dict, hd, hp⟩
    rwa [asDict_eq hd] at hp
  · intro hp; exact ⟨_, asDict_of_decodeProfile hp, hp⟩

@[simp] theorem decodeProfile_userObject (uId n s : String) (u : URL) :
    decodeProfile uId (userObject n s u) = some ⟨uId, n, s, u⟩ := by
  rw [decodeProfile_fields]
  simp [userObject]

@[simp] theorem decodeProfile_resolve (uId : String) (now : Rat) (dict : Value) :
    decodeProfile uId (resolve now dict) = decodeProfile uId dict := by
  simp only [decodeProfile, asString_child_resolve]

/-- A stored header names its author, whatever key the reader puts in as the uid. -/
theorem decodeProfile_header (uId : String) (now : Rat) (p : UserProfile) :
    decodeProfile uId ((resolve now (headerObject p)).child "author") =
      some { p with uId := uId } := by
  have hname : ((headerObject p).child "author").child "userName" ≠ .null := by
    simp [headerObject]
  rw [child_resolve_of_ne (ne_serverTimestamp_of_child (by decide) hname), decodeProfile_resolve,
    decodeProfile_fields]
  simp [headerObject]

/-- The message reader undoes the message writer, with the server's time as timestamp. -/
theorem messageOf_messageObject (autor : UserProfile) (snapshot : DataSnapshot) (ref : Path)
    (isSender : Bool) (text : String) (now : Rat) :
    messageOf autor snapshot ⟨ref, resolve now (messageObject isSender text)⟩ =
      some ⟨autor, snapshot.key, text, now, isSender⟩ := by
  set v := resolve now (messageObject isSender text) with hv
  have htext : asString (v.child "text") = some text := by
    rw [hv, asString_child_resolve]; simp [messageObject]
  have htime : v.child "timestamp" = Value.number now :=
    child_resolve_timestamp (by simp [messageObject])
  have hflag : v.child "isSender" = Value.bool isSender := by
    rw [hv, child_resolve_of_ne] <;> simp [messageObject]
  have hdict : asDict v = some v := asDict_of_child (ne_null_of_asString htext)
  simp [messageOf, hdict, htext, htime, hflag]

/-- The post reader undoes the post writer, with the server's time as timestamp. -/
theorem postOf_postObject (ref : Path) (author : UserProfile) (text : String) (now : Rat) :
    postOf ⟨ref, resolve now (postObject author text)⟩ =
      some ⟨ref, DataSnapshot.key ⟨ref, resolve now (postObject author text)⟩, author, text, now⟩ := by
  set v := resolve now (postObject author text) with hv
  have htext : asString (v.child "text") = some text := by
    rw [hv, asString_child_resolve]; simp [postObject]
  have htime : v.child "timestamp" = Value.number now :=
    child_resolve_timestamp (by simp [postObject])
  have hauthor : v.child "author" = resolve now ((postObject author text).child "author") :=
    child_resolve_of_ne (ne_serverTimestamp_of_child (k := "uId") (by decide) (by simp [postObject]))
  have hfield : ∀ k, asString ((v.child "author").child k) =
      asString (((postObject author text).child "author").child k) := by
    intro k; rw [hauthor, asString_child_resolve]
  have hdict : asDict v = some v := asDict_of_child (ne_null_of_asString htext)
  have hsub : asDict (v.child "author") = some (v.child "author") := by
    refine asDict_of_child (k := "uId") (ne_null_of_asString (s := author.uId) ?_)
    rw [hfield]; simp [postObject]
  simp [postOf, hdict, hsub, hfield, htext, htime, postObject]

end PostApp
