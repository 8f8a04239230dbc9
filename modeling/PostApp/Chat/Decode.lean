import PostApp.Chat.Flags

/-! Whole conversations, stored and read back.

    `sendMessage` stores each message under a key of its own; `observeMesseges` reads them back in key
    order, with their texts, times and flags (`observeMessages_of_stores`). The key is lost: the
    `snapshot` that `mId` is taken from is the one of the messages node, so every `mId` is the key of
    that node, where `observePosts` takes the key of the child. A conversation survives the round
    trip exactly when none of its keys differs from the node's (`round_trip_iff`). -/

namespace PostApp.Screen
open Schemes Chat
variable [URLSyntax]

/-- A message as a leg of `sendMessage` has stored it. -/
structure Stored where
  key : String
  text : String
  timestamp : Rat
  isSender : Bool
  deriving DecidableEq

namespace Stored

/-- The value at its location. -/
def object (m : Stored) : Value := resolve m.timestamp (messageObject m.isSender m.text)

/-- The child of the messages node that it is. -/
def entry (m : Stored) : String × Value := (m.key, m.object)

/-- The message write of a leg, stored. -/
def setValue (me user : UserProfile) (db : Value) (m : Stored) : Value :=
  db.set (messageRef me.uId user.uId m.key) m.object

/-- The message of the screen that it is. -/
def message (autor : UserProfile) (m : Stored) : Message :=
  ⟨autor, m.key, m.text, m.timestamp, m.isSender⟩

/-- The message that the screen makes of it. -/
def shown (autor : UserProfile) (m : Stored) : Message :=
  { m.message autor with mId := "messages" }

end Stored

/-- Store the messages one after the other. -/
def storeAll (me user : UserProfile) (db : Value) (ms : List Stored) : Value :=
  ms.foldl (Stored.setValue me user) db

/-- The messages in the order of their keys. -/
def inKeyOrder (ms : List Stored) : List Stored := ms.mergeSort (fun a b => decide (a.key ≤ b.key))

omit [URLSyntax] in
theorem mem_inKeyOrder {ms : List Stored} {m : Stored} : m ∈ inKeyOrder ms ↔ m ∈ ms :=
  List.mem_mergeSort

/-- The messages node has these messages as its children. -/
def Stores (ms : List Stored) (v : Value) : Prop := (ms.map Stored.entry).Perm v.children

/-! ### The messages node -/

section
variable {me user : UserProfile} {ms : List Stored} {v : Value}

omit [URLSyntax] in
theorem object_ne_null (m : Stored) : m.object ≠ .null := messageObject_ne_null _ _ _

omit [URLSyntax] in
theorem stores_nil : Stores [] .null := List.Perm.nil

omit [URLSyntax] in
theorem Stores.child_eq_null (h : Stores ms v) {k : String} (hk : k ∉ ms.map Stored.key) :
    v.child k = .null := by
  by_contra hne
  obtain ⟨m, hm, heq⟩ := List.mem_map.mp (h.mem_iff.mpr (Node.mem_children.mpr ⟨rfl, hne⟩))
  exact hk (List.mem_map.mpr ⟨m, hm, congrArg Prod.fst heq⟩)

omit [URLSyntax] in
/-- No two stored messages have the same key. -/
theorem Stores.nodup (h : Stores ms v) : (ms.map Stored.key).Nodup := by
  have hkeys : (v.children.map Prod.fst).Nodup :=
    List.pairwise_map.mpr (v.children_sorted.imp (fun hlt => ne_of_lt hlt))
  have hperm := (h.map Prod.fst).nodup_iff.mpr hkeys
  rwa [List.map_map] at hperm

/-- A message write adds its message to the node. -/
theorem get_setValue (db : Value) (m : Stored) :
    (m.setValue me user db).get (messagesRef me user) =
      (db.get (messagesRef me user)).insert m.key m.object := by
  have hpath : messageRef me.uId user.uId m.key = messagesRef me user ++ [m.key] := by
    simp [messageRef, messagesRef, nodeRef]
  rw [Stored.setValue, hpath, Node.get_set_append]
  rfl

/-- Messages stored under different keys are all there, and nothing else. -/
theorem stores_storeAll {db : Value} (hkeys : (ms.map Stored.key).Nodup)
    (hempty : db.get (messagesRef me user) = .null) :
    Stores ms ((storeAll me user db ms).get (messagesRef me user)) := by
  induction ms using List.reverseRecOn with
  | nil =>
    rw [storeAll, List.foldl_nil, hempty]
    exact stores_nil
  | append_singleton ms m ih =>
    rw [List.map_append, List.map_singleton, List.nodup_append] at hkeys
    obtain ⟨hms, -, hdisj⟩ := hkeys
    have hnew : m.key ∉ ms.map Stored.key :=
      fun hmem => hdisj m.key hmem m.key (List.mem_singleton_self _) rfl
    have hold := ih hms
    rw [storeAll, List.foldl_append, List.foldl_cons, List.foldl_nil, get_setValue, ← storeAll]
    have hcons := Node.perm_children_insert hold (hold.child_eq_null hnew) (object_ne_null m)
    rw [Stores, List.map_append, List.map_singleton]
    exact List.perm_append_comm.trans hcons

omit [URLSyntax] in
/-- The children are the messages in key order. -/
theorem Stores.children_eq (h : Stores ms v) : v.children = (inKeyOrder ms).map Stored.entry := by
  have hperm : (inKeyOrder ms).Perm ms := List.mergeSort_perm ms _
  have htrans : ∀ a b c : Stored, decide (a.key ≤ b.key) = true → decide (b.key ≤ c.key) = true →
      decide (a.key ≤ c.key) = true := by
    intro a b c hab hbc
    exact decide_eq_true (le_trans (of_decide_eq_true hab) (of_decide_eq_true hbc))
  have htotal : ∀ a b : Stored, (decide (a.key ≤ b.key) || decide (b.key ≤ a.key)) = true := by
    intro a b
    rw [Bool.or_eq_true, decide_eq_true_iff, decide_eq_true_iff]
    exact le_total a.key b.key
  have hle : (inKeyOrder ms).Pairwise (fun a b => decide (a.key ≤ b.key) = true) :=
    List.pairwise_mergeSort htrans htotal ms
  have hne : (inKeyOrder ms).Pairwise (fun a b => a.key ≠ b.key) :=
    List.pairwise_map.mp ((hperm.map Stored.key).nodup_iff.mpr h.nodup)
  have hlt : ((inKeyOrder ms).map Stored.entry).Pairwise (fun e e' => e.1 < e'.1) :=
    List.pairwise_map.mpr (hle.imp₂ (fun _ _ hab => lt_of_le_of_ne (of_decide_eq_true hab)) hne)
  exact (Node.eq_children ((hperm.map Stored.entry).trans h) hlt).symm

/-! ### Reading back -/

/-- A stored message as the reader decodes it. -/
theorem messageOf_entry (autor : UserProfile) (v : Value) (m : Stored) :
    messageOf autor ⟨messagesRef me user, v⟩ ⟨messagesRef me user ++ [m.key], m.object⟩ =
      some (m.shown autor) := by
  have hkey : DataSnapshot.key ⟨messagesRef me user, v⟩ = "messages" := key_concat _ _ _
  have hdec := messageOf_messageObject autor ⟨messagesRef me user, v⟩
    (messagesRef me user ++ [m.key]) m.isSender m.text m.timestamp
  rw [hkey] at hdec
  exact hdec

/-- The array: the stored messages in key order, each with the key of their node. -/
theorem observeMessages_of_stores (me user autor : UserProfile) (h : Stores ms v) :
    observeMessages autor ⟨messagesRef me user, v⟩ =
      (inKeyOrder ms).map (Stored.shown autor) := by
  rw [observeMessages, collect_eq_filterMap, DataSnapshot.children, h.children_eq]
  induction inKeyOrder ms with
  | nil => rfl
  | cons m xs ih =>
    rw [List.map_cons, List.map_cons, List.map_cons, ← ih]
    exact List.filterMap_cons_some (messageOf_entry autor v m)

/-- The reader gives all messages one `mId`, so it tells no two apart. -/
theorem mIds_nodup_iff (me user autor : UserProfile) (h : Stores ms v) :
    ((observeMessages autor ⟨messagesRef me user, v⟩).map Message.mId).Nodup ↔ ms.length ≤ 1 := by
  have hconst : (inKeyOrder ms).map (Message.mId ∘ Stored.shown autor) =
      List.replicate ms.length "messages" := by
    rw [List.eq_replicate_iff, List.length_map, inKeyOrder, List.length_mergeSort]
    refine ⟨rfl, ?_⟩
    intro k hk
    obtain ⟨m, -, rfl⟩ := List.mem_map.mp hk
    rfl
  rw [observeMessages_of_stores me user autor h, List.map_map, hconst, List.nodup_replicate]

end

/-- What is stored comes back: every message in key order, with its text, time, flag and key, and
    no two with the same `mId`. -/
def RoundTrip (me user autor : UserProfile) (db : Value) (ms : List Stored) : Prop :=
  observeMessages autor (snapshotAt (messagesRef me user) (storeAll me user db ms)) =
      (inKeyOrder ms).map (Stored.message autor) ∧
    ((observeMessages autor (snapshotAt (messagesRef me user) (storeAll me user db ms))).map
      Message.mId).Nodup

/-- For every list of messages, stored under keys of their own in a conversation without messages:
    it survives the round trip exactly when every key is the key of the messages node itself. -/
theorem round_trip_iff (me user autor : UserProfile) (db : Value) (ms : List Stored)
    (hkeys : (ms.map Stored.key).Nodup) (hempty : db.get (messagesRef me user) = .null) :
    RoundTrip me user autor db ms ↔ ∀ m ∈ ms, m.key = "messages" := by
  have hstores : Stores ms ((storeAll me user db ms).get (messagesRef me user)) :=
    stores_storeAll hkeys hempty
  have hread := observeMessages_of_stores me user autor hstores
  rw [RoundTrip, snapshotAt, mIds_nodup_iff me user autor hstores, hread, List.map_inj_left]
  constructor
  · rintro ⟨heq, -⟩ m hm
    exact (congrArg Message.mId (heq m (mem_inKeyOrder.mpr hm))).symm
  · intro hall
    refine ⟨?_, ?_⟩
    · intro m hm
      rw [Stored.shown, ← hall m (mem_inKeyOrder.mp hm)]
      rfl
    · -- keys that are all the same and all different
      have hrep : ms.map Stored.key = List.replicate ms.length "messages" := by
        rw [List.eq_replicate_iff, List.length_map]
        refine ⟨rfl, ?_⟩
        intro k hk
        obtain ⟨m, hm, rfl⟩ := List.mem_map.mp hk
        exact hall m hm
      rwa [hrep, List.nodup_replicate] at hkeys

omit [URLSyntax] in
/-- Two messages under generated keys. -/
theorem round_trip_iff_two : ∃ (_ : URLSyntax) (me user autor : UserProfile) (ms : List Stored),
    ms.length = 2 ∧ (RoundTrip me user autor .null ms ↔ ∀ m ∈ ms, m.key = "messages") := by
  let _ := nonEmptyURLs
  exact ⟨nonEmptyURLs, ann, bob, bob, [⟨"-L1", "hi", 1, true⟩, ⟨"-L2", "ho", 2, false⟩], rfl,
    round_trip_iff ann bob bob .null _ (by decide) (Node.get_null _)⟩

omit [URLSyntax] in
/-- The array cannot tell the two messages apart. -/
theorem same_mId : ¬ ∀ [URLSyntax] (me user autor : UserProfile) (db : Value) (ms : List Stored),
    (ms.map Stored.key).Nodup → db.get (messagesRef me user) = .null →
      RoundTrip me user autor db ms := by
  intro h
  let _ := nonEmptyURLs
  have hkeys : ([⟨"-L1", "hi", 1, true⟩, ⟨"-L2", "ho", 2, false⟩] : List Stored).map
      Stored.key |>.Nodup := by decide
  obtain ⟨-, hnodup⟩ := h ann bob bob .null _ hkeys (Node.get_null _)
  rw [snapshotAt, mIds_nodup_iff ann bob bob (stores_storeAll hkeys (Node.get_null _))] at hnodup
  exact absurd hnodup (by decide)

/-! ### In every run -/

/-- The stored message is one that a leg of a send has written. -/
def Stored.IsSent (me user : UserProfile) (s : Chat.State) (m : Stored) : Prop :=
  ∃ σ side, Sent s σ side me.uId user.uId m.key m.text ∧ m.isSender = side.isSender

theorem AllSent.stores {s : Chat.State} (me user : UserProfile) (ha : AllSent s) :
    ∃ ms, Stores ms (s.db.get (messagesRef me user)) ∧ ∀ m ∈ ms, m.IsSent me user s := by
  have hchild : ∀ e ∈ (s.db.get (messagesRef me user)).children,
      ∃ m : Stored, m.entry = e ∧ m.IsSent me user s := by
    rintro ⟨k, c⟩ hmem
    obtain ⟨rfl, hne⟩ := Node.mem_children.mp hmem
    obtain ⟨σ, side, text, now, hsent, hv⟩ := ha.good k hne
    exact ⟨⟨k, text, now, side.isSender⟩, by rw [hv]; rfl, σ, side, hsent, rfl⟩
  suffices h : ∀ es : List (String × Value),
      (∀ e ∈ es, ∃ m : Stored, m.entry = e ∧ m.IsSent me user s) →
      ∃ ms : List Stored, ms.map Stored.entry = es ∧ ∀ m ∈ ms, m.IsSent me user s by
    obtain ⟨ms, hms, hsent⟩ := h _ hchild
    exact ⟨ms, by rw [Stores, hms], hsent⟩
  intro es hes
  induction es with
  | nil => exact ⟨[], rfl, fun m hm => absurd hm List.not_mem_nil⟩
  | cons e es ih =>
    obtain ⟨m, rfl, hm⟩ := hes e (List.mem_cons_self ..)
    obtain ⟨ms, rfl, hms⟩ := ih (fun e he => hes e (List.mem_cons_of_mem _ he))
    refine ⟨m :: ms, rfl, ?_⟩
    intro m' hm'
    rcases List.mem_cons.mp hm' with rfl | hm'
    · exact hm
    · exact hms m' hm'

/-- From a store without messages, in every run: an up-to-date screen shows what its sends have
    stored in the conversation, in key order, with one `mId` for all of it. -/
theorem shown_of_run (me user : UserProfile) (db : Value) (es : List Event) (s : State)
    (hdb : ∀ x y k, db.get (messageRef x y k) = .null)
    (hr : run (step me user) (init db) es = some s) (hshows : Shows me user s) :
    ∃ ms autor, Stores ms (s.chat.db.get (messagesRef me user)) ∧
      (∀ m ∈ ms, m.IsSent me user s.chat) ∧
      s.messages = (inKeyOrder ms).map (Stored.shown autor) ∧
      ((s.messages.map Message.mId).Nodup ↔ ms.length ≤ 1) := by
  obtain ⟨ms, hstores, hsent⟩ := (honest_run hdb hr).sent.stores me user
  obtain ⟨autor, -, hm⟩ := hshows
  have hread : s.messages = observeMessages autor ⟨messagesRef me user,
      s.chat.db.get (messagesRef me user)⟩ := by
    rw [hm, observeMessages, collect_eq_filterMap]
    rfl
  refine ⟨ms, autor, hstores, hsent, ?_, ?_⟩
  · rw [hread, observeMessages_of_stores me user autor hstores]
  · rw [hread, mIds_nodup_iff me user autor hstores]

end PostApp.Screen
