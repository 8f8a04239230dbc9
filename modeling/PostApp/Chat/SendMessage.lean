import PostApp.Model.Records

/-! `PrivateChatVC.sendMessage`: the two legs and the locations they touch.

    A tap on Send captures the current user and the chat partner and asks for two snapshots: the chat
    node of the partner (receiver leg) and the sender's own (sender leg). Each snapshot callback then
    writes the message into that copy of the conversation, preceded by an author header when the
    snapshot has no such conversation yet. Two conversation copies, and two messages, live at paths
    that are apart; so do profile fields and posts. -/

namespace PostApp
open Schemes
variable [URLSyntax]

/-- One tap on Send: the device, the chat screen and the tap on it, with the captured profiles. -/
structure Send where
  client : ℕ
  screen : ℕ
  serial : ℕ
  curentUser : UserProfile
  user : UserProfile
  deriving DecidableEq

inductive Side where | receiver | sender
  deriving DecidableEq

/-- Which of its two `setValue` calls a leg makes; only the message's completion reports. -/
inductive Kind where | header | message
  deriving DecidableEq

namespace Side

/-- Whose copy of the conversation the leg writes. -/
def owner : Side → Send → String
  | receiver, σ => σ.user.uId
  | sender, σ => σ.curentUser.uId

/-- The key of the conversation in that copy. -/
def peer : Side → Send → String
  | receiver, σ => σ.curentUser.uId
  | sender, σ => σ.user.uId

/-- The profile the header names. -/
def author : Side → Send → UserProfile
  | receiver, σ => σ.curentUser
  | sender, σ => σ.user

def isSender : Side → Bool
  | receiver => true
  | sender => false

/-- The copy of the conversation the leg writes. -/
def conversation (side : Side) (σ : Send) : Path := conversationRef (side.owner σ) (side.peer σ)

end Side

/-- The send is between these two users. -/
def Between (σ : Send) (x y : String) : Prop :=
  (σ.curentUser.uId = x ∧ σ.user.uId = y) ∨ (σ.curentUser.uId = y ∧ σ.user.uId = x)

instance (σ : Send) (x y : String) : Decidable (Between σ x y) :=
  inferInstanceAs (Decidable (_ ∨ _))

/-- A leg writes the owner's copy of the conversation with the peer: its send is between the two. -/
theorem between_of_side {σ : Send} {side : Side} {x y : String} (ho : side.owner σ = x)
    (hp : side.peer σ = y) : Between σ x y := by
  cases side with
  | receiver => exact Or.inr ⟨hp, ho⟩
  | sender => exact Or.inl ⟨ho, hp⟩

/-- One leg of a send between the two writes the first one's copy. -/
theorem side_of_between {σ : Send} {x y : String} (h : Between σ x y) :
    ∃ side : Side, side.owner σ = x ∧ side.peer σ = y := by
  rcases h with ⟨hx, hy⟩ | ⟨hy, hx⟩
  · exact ⟨.sender, hx, hy⟩
  · exact ⟨.receiver, hx, hy⟩

/-- A `setValue` call of a leg. -/
structure Write where
  send : Send
  side : Side
  kind : Kind
  path : Path
  value : Value
  deriving DecidableEq

/-- The snapshot callback of a leg: the calls it makes, in order. -/
def legWrites (σ : Send) (side : Side) (author : UserProfile) (peer : String) (isSender : Bool)
    (snapshot : DataSnapshot) (key text : String) : List Write :=
  let newRefToMessages := snapshot.ref ++ [peer, "messages", key]
  let message := ⟨σ, side, .message, newRefToMessages, messageObject isSender text⟩
  if snapshot.hasChild peer then [message]
  else [⟨σ, side, .header, snapshot.ref ++ [peer], headerObject author⟩, message]

/-- The callback on the partner's chat node. -/
def receiverLeg (σ : Send) : DataSnapshot → String → String → List Write :=
  legWrites σ .receiver σ.curentUser σ.curentUser.uId true

/-- The callback on the sender's own chat node. -/
def senderLeg (σ : Send) : DataSnapshot → String → String → List Write :=
  legWrites σ .sender σ.user σ.user.uId false

def leg : Side → Send → DataSnapshot → String → String → List Write
  | .receiver => receiverLeg
  | .sender => senderLeg

theorem leg_eq (side : Side) (σ : Send) :
    leg side σ = legWrites σ side (side.author σ) (side.peer σ) side.isSender := by
  cases side <;> rfl

/-! ### Locations -/

omit [URLSyntax]

theorem apart_conversation {o p o' p' : String} (h : o ≠ o' ∨ p ≠ p') :
    Apart (conversationRef o p) (conversationRef o' p') := by
  simpa [conversationRef, chatRef, profileRef, Apart] using h

theorem apart_conversation_below {o p o' p' : String} (h : o ≠ o' ∨ p ≠ p') (q q' : Path) :
    Apart (conversationRef o p ++ q) (conversationRef o' p' ++ q') :=
  apart_append (apart_conversation h) q q'

/-- Messages under different keys, or in different copies, are apart. -/
theorem apart_message {o p k o' p' k' : String} (h : o ≠ o' ∨ p ≠ p' ∨ k ≠ k') :
    Apart (messageRef o p k) (messageRef o' p' k') := by
  simpa [messageRef, conversationRef, chatRef, profileRef, Apart] using h

/-- A conversation is apart from every profile field. -/
theorem apart_profile_field {o p u f : String} (h : f ≠ "chat") :
    Apart (conversationRef o p) (profileRef u ++ [f]) := by
  simp [conversationRef, chatRef, profileRef, Apart, Ne.symm h]

/-- A conversation is apart from every post. -/
theorem apart_posts (o p : String) (q : Path) : Apart (conversationRef o p) (postsRef ++ q) := by
  simp [conversationRef, chatRef, profileRef, postsRef, Apart]

end PostApp
