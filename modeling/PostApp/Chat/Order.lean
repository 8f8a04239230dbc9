import Mathlib.Data.String.Basic
import PostApp.Chat.Flags
import PostApp.Schemes.Timeline

/-! The order of the messages on the two screens of a conversation.

    The screens list a copy of the conversation in key order, and each copy of a message has a key of
    its own, generated when the snapshot callback of its leg runs. The legs of one send wait for their
    snapshots independently, so the copies may order two messages differently. The two screens agree
    on two messages exactly when their callbacks ran in the same order for both copies
    (`same_order_iff`). -/

namespace PostApp.Screen
open Schemes Chat
variable [URLSyntax]

/-- The events of the chat among those of a screen. -/
def chatEvents (es : List Event) : List Chat.Event :=
  es.flatMap (fun e => match e with
    | .chat e => [e]
    | _ => [])

/-- The keys that were generated, each with the leg it was generated for. -/
def generated (ces : List Chat.Event) : List ((Send × Side) × String) :=
  ces.filterMap (fun e => match e with
    | .callback σ side key _ => some ((σ, side), key)
    | _ => none)

/-- `childByAutoId`: a key is greater than all keys generated before. -/
def Chronological (ces : List Chat.Event) : Prop :=
  ((generated ces).map Prod.snd).Pairwise (· < ·)

instance (ces : List Chat.Event) : Decidable (Chronological ces) :=
  inferInstanceAs (Decidable (List.Pairwise _ _))

/-- The legs in the order in which their callbacks ran. -/
def callbacks (ces : List Chat.Event) : List (Send × Side) := (generated ces).map Prod.fst

/-- The leg that writes the copy of this user. -/
def copyOf (me : UserProfile) (σ : Send) : Send × Side :=
  (σ, if σ.user.uId = me.uId then .receiver else .sender)

/-- The rows that the messages listener appends, each with the key of its child. -/
def rows (autor : UserProfile) (snapshot : DataSnapshot) : List (String × Message) :=
  collect (fun childSnapshot =>
    (messageOf autor snapshot childSnapshot).map (fun message => (childSnapshot.key, message)))
    snapshot.children

/-- The screen is up to date, and its row `r` shows the message of this send. -/
def ShownAt (me user : UserProfile) (s : State) (σ : Send) (r : ℕ) : Prop :=
  ∃ side i autor message, s.chat.phase σ side = .issued i ∧ side.owner σ = me.uId ∧
    side.peer σ = user.uId ∧
    s.messages = (rows autor (snapshotAt (messagesRef me user) s.chat.db)).map Prod.snd ∧
    (rows autor (snapshotAt (messagesRef me user) s.chat.db))[r]? = some (i.key, message)

/-- Two messages that both screens show are in the same order on both. -/
def SameOrder (x y : UserProfile) (s s' : State) : Prop :=
  ∀ σ τ r₁ r₂ r₁' r₂', ShownAt x y s σ r₁ → ShownAt x y s τ r₂ → ShownAt y x s' σ r₁' →
    ShownAt y x s' τ r₂' → (r₁ < r₂ ↔ r₁' < r₂')

/-- The sends between the two users. -/
def sends (x y : UserProfile) (ces : List Chat.Event) : List Send :=
  ces.filterMap (fun e => match e with
    | .tap σ => if Between σ x.uId y.uId then some σ else none
    | _ => none)

/-- The writes of the leg have succeeded, and the copy holds its message. -/
def Arrived (db : Value) (σ : Send) (side : Side) : Phase → Prop
  | .issued i => i.message = .stored ∧ i.header ≠ .failed ∧
      db.get (messageRef (side.owner σ) (side.peer σ) i.key) ≠ .null
  | _ => False

instance (db : Value) (σ : Send) (side : Side) : DecidablePred (Arrived db σ side)
  | .issued _ => inferInstanceAs (Decidable (_ ∧ _))
  | .idle | .requested | .snapped _ => inferInstanceAs (Decidable False)

/-- Every write of every send between the two has succeeded, and no message is lost. -/
def AllArrived (x y : UserProfile) (ces : List Chat.Event) (s : Chat.State) : Prop :=
  ∀ σ ∈ sends x y ces, Arrived s.db σ .receiver (s.phase σ .receiver) ∧
    Arrived s.db σ .sender (s.phase σ .sender)

instance (x y : UserProfile) (ces : List Chat.Event) (s : Chat.State) :
    Decidable (AllArrived x y ces s) :=
  inferInstanceAs (Decidable (∀ σ ∈ sends x y ces, _))

/-! ### Keys and rows -/

theorem run_chatEvents {me user : UserProfile} {db : Value} {es : List Event} {s : State}
    (h : run (step me user) (init db) es = some s) :
    run Chat.step (Chat.init db) (chatEvents es) = some s.chat := by
  refine run_project Chat.step State.chat _ ?_ h
  intro s e s' hs
  cases e with
  | chat e =>
    obtain ⟨chat, hc, rfl⟩ := step_chat hs
    simp only [run, hc, Option.bind_some]
  | viewDidLoad =>
    obtain ⟨-, rfl⟩ := step_viewDidLoad hs
    rfl
  | snapshot =>
    obtain ⟨-, rfl⟩ := step_snapshot hs
    rfl
  | singleEvent => rcases step_singleEvent hs with ⟨_, -, ⟨-, rfl⟩ | ⟨-, rfl⟩⟩ <;> rfl
  | nodeEvent =>
    obtain ⟨_, _, _, -, -, rfl⟩ := step_nodeEvent hs
    rfl
  | messagesEvent i =>
    obtain ⟨_, _, _, _, -, -, rfl⟩ := step_messagesEvent hs
    rfl

/-- The keys on record are those of the legs that have run their callback. -/
theorem mem_generated {db : Value} {ces : List Chat.Event} {s : Chat.State}
    (h : run Chat.step (Chat.init db) ces = some s) (σ : Send) (side : Side) (k : String) :
    ((σ, side), k) ∈ generated ces ↔ ∃ i, s.phase σ side = .issued i ∧ i.key = k := by
  revert σ side k
  refine run_history (I := fun pre s => ∀ σ side k, ((σ, side), k) ∈ generated pre ↔
    ∃ i, s.phase σ side = .issued i ∧ i.key = k) ?_ ?_ h
  · intro σ side k
    simp [generated, Chat.init]
  · intro pre s e s' hs h σ side k
    have hpre := hs σ side k
    rw [generated, List.filterMap_append, List.mem_append, ← generated, hpre]
    rcases phase_step h σ side with ⟨hm, heq⟩ | hadv
    · rw [heq]
      refine or_iff_left ?_
      cases e with
      | callback τ sd key text =>
        rintro hmem
        obtain ⟨⟨rfl, rfl⟩, -⟩ : (σ = τ ∧ side = sd) ∧ k = key := by simpa using hmem
        exact hm ⟨rfl, rfl⟩
      | tap | snapshot | store | reject | complete => simp
    · generalize s'.phase σ side = ph' at hadv
      generalize s.phase σ side = ph at hadv
      cases hadv with
      | tap => simp
      | snapshot => simp
      | callback snapshot key text =>
        have hkey : (issue side σ snapshot key text).key = key := by
          rw [issue]
          split_ifs <;> rfl
        simp [hkey, eq_comm]
      | store i kind now => simp
      | reject i kind => simp
      | complete i _ => simp

theorem stamped {db : Value} {ces : List Chat.Event} {s : Chat.State}
    (h : run Chat.step (Chat.init db) ces = some s) (hkeys : Chronological ces) :
    Stamped (generated ces) where
  unique := by
    rintro ⟨σ, side⟩ k l hk hl
    obtain ⟨i, hi, rfl⟩ := (mem_generated h σ side k).mp hk
    obtain ⟨j, hj, rfl⟩ := (mem_generated h σ side l).mp hl
    rw [hi] at hj
    cases hj
    rfl
  increasing := hkeys

theorem copyOf_eq {me user : UserProfile} (hne : me.uId ≠ user.uId) {σ : Send} {side : Side}
    (ho : side.owner σ = me.uId) (hp : side.peer σ = user.uId) : copyOf me σ = (σ, side) := by
  cases side with
  | receiver =>
    have hown : σ.user.uId = me.uId := ho
    rw [copyOf, if_pos hown]
  | sender =>
    have hother : ¬ σ.user.uId = me.uId := fun h => hne (h.symm.trans hp)
    rw [copyOf, if_neg hother]

/-- The rows come in key order. -/
theorem rows_sorted (autor : UserProfile) (snapshot : DataSnapshot) :
    ((rows autor snapshot).map Prod.fst).Pairwise (· < ·) := by
  rw [rows, collect_eq_filterMap, List.pairwise_map]
  refine List.Pairwise.filterMap _ ?_ snapshot.children_sorted
  intro c c' hlt p hp p' hp'
  obtain ⟨m, -, rfl⟩ := Option.map_eq_some_iff.mp hp
  obtain ⟨m', -, rfl⟩ := Option.map_eq_some_iff.mp hp'
  exact hlt

/-- The array holds the rows. -/
theorem observeMessages_eq (autor : UserProfile) (snapshot : DataSnapshot) :
    observeMessages autor snapshot = (rows autor snapshot).map Prod.snd := by
  rw [observeMessages, rows, collect_eq_filterMap, collect_eq_filterMap, List.map_filterMap]
  congr 1
  funext c
  cases messageOf autor snapshot c <;> rfl

/-- Which children become rows does not depend on the author. -/
theorem rows_keys (autor autor' : UserProfile) (snapshot : DataSnapshot) :
    (rows autor snapshot).map Prod.fst = (rows autor' snapshot).map Prod.fst := by
  have hmessage : ∀ c, messageOf autor snapshot c
      = (messageOf autor' snapshot c).map (fun m => { m with autor := autor }) := by
    intro c
    simp only [messageOf, Option.bind_eq_bind, Option.map_bind, Function.comp_def, Option.pure_def,
      Option.map_some]
  rw [rows, rows, collect_eq_filterMap, collect_eq_filterMap, List.map_filterMap,
    List.map_filterMap]
  congr 1
  funext c
  rw [hmessage c]
  cases messageOf autor' snapshot c <;> rfl

/-- Rows of one screen compare as the callbacks of the legs that wrote its copy. -/
theorem shown_lt_iff {me user : UserProfile} {db : Value} {ces : List Chat.Event} {s : State}
    (hne : me.uId ≠ user.uId) (h : run Chat.step (Chat.init db) ces = some s.chat)
    (hkeys : Chronological ces) {σ τ : Send} {r r' : ℕ} (hσ : ShownAt me user s σ r)
    (hτ : ShownAt me user s τ r') :
    r < r' ↔ Before (callbacks ces) (copyOf me σ) (copyOf me τ) := by
  obtain ⟨side, i, autor, m, hi, ho, hp, -, hr⟩ := hσ
  obtain ⟨sd, j, autor', m', hj, ho', hp', -, hr'⟩ := hτ
  have hrow : ((rows autor (snapshotAt (messagesRef me user) s.chat.db)).map Prod.fst)[r]?
      = some i.key := by rw [List.getElem?_map, hr]; rfl
  have hrow' : ((rows autor (snapshotAt (messagesRef me user) s.chat.db)).map Prod.fst)[r']?
      = some j.key := by rw [rows_keys autor autor', List.getElem?_map, hr']; rfl
  rw [getElem?_lt_iff (rows_sorted autor _) hrow hrow', copyOf_eq hne ho hp, copyOf_eq hne ho' hp']
  exact ((stamped h hkeys).before_iff ((mem_generated h σ side i.key).mpr ⟨i, hi, rfl⟩)
    ((mem_generated h τ sd j.key).mpr ⟨j, hj, rfl⟩)).symm

theorem mem_sends {x y : UserProfile} {ces : List Chat.Event} {σ : Send} :
    σ ∈ sends x y ces ↔ .tap σ ∈ ces ∧ Between σ x.uId y.uId := by
  rw [sends, List.mem_filterMap]
  constructor
  · rintro ⟨e, he, hσ⟩
    cases e with
    | tap τ =>
      simp only [Option.ite_none_right_eq_some, Option.some.injEq] at hσ
      obtain ⟨hb, rfl⟩ := hσ
      exact ⟨he, hb⟩
    | snapshot | callback | store | reject | complete => cases hσ
  · rintro ⟨he, hb⟩
    exact ⟨_, he, if_pos hb⟩

theorem issued_of_arrived {db : Value} {σ : Send} {side : Side} {ph : Phase}
    (h : Arrived db σ side ph) : ∃ i, ph = .issued i ∧
      db.get (messageRef (side.owner σ) (side.peer σ) i.key) ≠ .null := by
  cases ph with
  | issued i => exact ⟨i, rfl, h.2.2⟩
  | idle | requested | snapped => exact h.elim

theorem AllArrived.leg {x y : UserProfile} {ces : List Chat.Event} {s : Chat.State}
    (h : AllArrived x y ces s) {σ : Send} (hσ : σ ∈ sends x y ces) (side : Side) :
    Arrived s.db σ side (s.phase σ side) := by
  cases side with
  | receiver => exact (h σ hσ).1
  | sender => exact (h σ hσ).2

/-- On an up-to-date screen a message that has arrived in the copy has a row. -/
theorem exists_shownAt {me user : UserProfile} {s : State} (ho : Own s.chat)
    (hshows : Shows me user s) {σ : Send} {side : Side} (howner : side.owner σ = me.uId)
    (hpeer : side.peer σ = user.uId) (h : Arrived s.chat.db σ side (s.chat.phase σ side)) :
    ∃ r, ShownAt me user s σ r := by
  obtain ⟨autor, -, hm⟩ := hshows
  obtain ⟨i, hi, hne⟩ := issued_of_arrived h
  obtain ⟨now, hv⟩ := (ho σ side i hi).resolve_left hne
  rw [howner, hpeer, ← child_messages] at hne hv
  set snapshot := snapshotAt (messagesRef me user) s.chat.db with hsnap
  have hrow : (i.key, (⟨autor, snapshot.key, i.text, now, side.isSender⟩ : Message)) ∈
      rows autor snapshot := by
    rw [rows, mem_collect]
    refine ⟨i.key, hne, ?_⟩
    rw [hsnap, snapshotAt, hv, messageOf_messageObject, Option.map_some, key_concat]
  obtain ⟨r, hr⟩ := List.mem_iff_getElem?.mp hrow
  refine ⟨r, side, i, autor, _, hi, howner, hpeer, ?_, hr⟩
  rw [hm, ← collect_eq_filterMap, ← observeMessages, observeMessages_eq]

/-! ### Both screens -/

section
variable {x y : UserProfile} {db : Value} {es es' : List Event} {s s' : State}

/-- Both screens look at the same chat. -/
theorem chat_eq (hr : run (step x y) (init db) es = some s)
    (hr' : run (step y x) (init db) es' = some s') (hchat : chatEvents es' = chatEvents es) :
    s'.chat = s.chat := by
  have hy := run_chatEvents hr'
  rw [hchat, run_chatEvents hr] at hy
  exact (Option.some.inj hy).symm

/-- Rows of the two screens compare in the same way when the callbacks do. -/
theorem same_rows_iff (hne : x.uId ≠ y.uId) (hr : run (step x y) (init db) es = some s)
    (hr' : run (step y x) (init db) es' = some s') (hchat : chatEvents es' = chatEvents es)
    (hkeys : Chronological (chatEvents es)) {σ τ : Send} {r₁ r₂ r₁' r₂' : ℕ}
    (h₁ : ShownAt x y s σ r₁) (h₂ : ShownAt x y s τ r₂) (h₁' : ShownAt y x s' σ r₁')
    (h₂' : ShownAt y x s' τ r₂') :
    (r₁ < r₂ ↔ r₁' < r₂') ↔
      (Before (callbacks (chatEvents es)) (copyOf x σ) (copyOf x τ) ↔
        Before (callbacks (chatEvents es)) (copyOf y σ) (copyOf y τ)) := by
  have hy := run_chatEvents hr'
  rw [hchat] at hy
  rw [shown_lt_iff hne (run_chatEvents hr) hkeys h₁ h₂,
    shown_lt_iff (Ne.symm hne) hy hkeys h₁' h₂']

/-- A message that has arrived is on both up-to-date screens. -/
theorem shown_on_both (hr : run (step x y) (init db) es = some s)
    (hr' : run (step y x) (init db) es' = some s') (hchat : chatEvents es' = chatEvents es)
    (harr : AllArrived x y (chatEvents es) s.chat) (hshows : Shows x y s)
    (hshows' : Shows y x s') {σ : Send} (hσ : σ ∈ sends x y (chatEvents es)) :
    (∃ r, ShownAt x y s σ r) ∧ ∃ r, ShownAt y x s' σ r := by
  have hown := own_run (run_chatEvents hr)
  obtain ⟨-, hb⟩ := mem_sends.mp hσ
  obtain ⟨side, ho, hp⟩ := side_of_between hb
  obtain ⟨side', ho', hp'⟩ := side_of_between (Or.symm hb)
  refine ⟨exists_shownAt hown hshows ho hp (harr.leg hσ side), ?_⟩
  have hleg := harr.leg hσ side'
  rw [← chat_eq hr hr' hchat] at hown hleg
  exact exists_shownAt hown hshows' ho' hp' hleg

/-- Screens that agree on the order tell that the callbacks of every two sends ran in the same
    order. -/
theorem before_iff_of_sameOrder (hne : x.uId ≠ y.uId)
    (hr : run (step x y) (init db) es = some s) (hr' : run (step y x) (init db) es' = some s')
    (hchat : chatEvents es' = chatEvents es) (hkeys : Chronological (chatEvents es))
    (harr : AllArrived x y (chatEvents es) s.chat) (hshows : Shows x y s)
    (hshows' : Shows y x s') (h : SameOrder x y s s') :
    ∀ σ ∈ sends x y (chatEvents es), ∀ τ ∈ sends x y (chatEvents es),
      (Before (callbacks (chatEvents es)) (copyOf x σ) (copyOf x τ) ↔
        Before (callbacks (chatEvents es)) (copyOf y σ) (copyOf y τ)) := by
  intro σ hσ τ hτ
  obtain ⟨⟨r₁, h₁⟩, r₁', h₁'⟩ := shown_on_both hr hr' hchat harr hshows hshows' hσ
  obtain ⟨⟨r₂, h₂⟩, r₂', h₂'⟩ := shown_on_both hr hr' hchat harr hshows hshows' hτ
  exact (same_rows_iff hne hr hr' hchat hkeys h₁ h₂ h₁' h₂').mp
    (h σ τ r₁ r₂ r₁' r₂' h₁ h₂ h₁' h₂')

theorem mem_sends_of_shownAt (hr : run (step x y) (init db) es = some s) {σ : Send} {r : ℕ}
    (h : ShownAt x y s σ r) : σ ∈ sends x y (chatEvents es) := by
  obtain ⟨side, i, _, _, hi, ho, hp, -, -⟩ := h
  have hbusy : s.chat.phase σ side ≠ .idle := by
    rw [hi]
    simp
  exact mem_sends.mpr ⟨tap_mem (run_chatEvents hr) hbusy, between_of_side ho hp⟩

end

/-- Over one run of the chat in which every message between two users has arrived in both copies,
    their up-to-date screens show the messages in the same order exactly when the snapshot callbacks
    of any two sends ran in the same order for the copy of one user as for the copy of the other. -/
theorem same_order_iff (x y : UserProfile) (db : Value) (es es' : List Event) (s s' : State)
    (hne : x.uId ≠ y.uId) (hr : run (step x y) (init db) es = some s)
    (hr' : run (step y x) (init db) es' = some s') (hchat : chatEvents es' = chatEvents es)
    (hkeys : Chronological (chatEvents es)) (harr : AllArrived x y (chatEvents es) s.chat)
    (hshows : Shows x y s) (hshows' : Shows y x s') :
    SameOrder x y s s' ↔
      ∀ σ ∈ sends x y (chatEvents es), ∀ τ ∈ sends x y (chatEvents es),
        (Before (callbacks (chatEvents es)) (copyOf x σ) (copyOf x τ) ↔
          Before (callbacks (chatEvents es)) (copyOf y σ) (copyOf y τ)) := by
  constructor
  · exact before_iff_of_sameOrder hne hr hr' hchat hkeys harr hshows hshows'
  · intro h σ τ r₁ r₂ r₁' r₂' h₁ h₂ h₁' h₂'
    rw [same_rows_iff hne hr hr' hchat hkeys h₁ h₂ h₁' h₂']
    exact h σ (mem_sends_of_shownAt hr h₁) τ (mem_sends_of_shownAt hr h₂)

section
omit [URLSyntax]

/-- Both copies of the conversation between Ann and Bob, without messages. -/
def acquainted : Value :=
  let _ := nonEmptyURLs
  (Node.null.set (conversationRef "A" "B") (headerObject bob)).set (conversationRef "B" "A")
    (headerObject ann)

/-- Bob writes after Ann's message has got its keys. -/
theorem same_order_iff_answered : ∃ (_ : URLSyntax) (x y : UserProfile) (es : List Event)
    (s s' : State), run (step x y) (init acquainted) es = some s ∧
      run (step y x) (init acquainted) es = some s' ∧ s.messages.length = 2 ∧
      SameOrder x y s s' := by
  let _ := nonEmptyURLs
  let σ : Send := ⟨0, 0, 0, ann, bob⟩
  let τ : Send := ⟨1, 0, 0, bob, ann⟩
  let es : List Event := [.chat (.tap σ), .chat (.snapshot σ .sender),
    .chat (.snapshot σ .receiver), .chat (.callback σ .sender "-L1" "hi"),
    .chat (.callback σ .receiver "-L2" "hi"), .chat (.tap τ), .chat (.snapshot τ .sender),
    .chat (.snapshot τ .receiver), .chat (.callback τ .receiver "-L3" "yo"),
    .chat (.callback τ .sender "-L4" "yo"), .chat (.store σ .sender .message 1),
    .chat (.store σ .receiver .message 2), .chat (.store τ .receiver .message 3),
    .chat (.store τ .sender .message 4), .viewDidLoad, .snapshot, .singleEvent, .nodeEvent,
    .messagesEvent 0]
  obtain ⟨s, hs, hp⟩ := exists_of_run_any (step ann bob) (init acquainted) es
    (fun s => (AllArrived ann bob (chatEvents es) s.chat ∧ s.messages =
      (snapshotAt (messagesRef ann bob) s.chat.db).children.filterMap
        (messageOf bob (snapshotAt (messagesRef ann bob) s.chat.db))) ∧ s.messages.length = 2)
    (by decide)
  obtain ⟨s', hs', hp'⟩ := exists_of_run_any (step bob ann) (init acquainted) es
    (fun s => s.messages = (snapshotAt (messagesRef bob ann) s.chat.db).children.filterMap
        (messageOf ann (snapshotAt (messagesRef bob ann) s.chat.db))) (by decide)
  obtain ⟨⟨harr, hm⟩, htwo⟩ := decide_eq_true_iff.mp hp
  refine ⟨nonEmptyURLs, ann, bob, es, s, s', hs, hs', htwo, ?_⟩
  exact (same_order_iff ann bob acquainted es es s s' (by decide) hs hs' rfl (by decide) harr
    ⟨bob, rfl, hm⟩ ⟨ann, rfl, decide_eq_true_iff.mp hp'⟩).mpr (by decide)

/-- Ann and Bob write at the same time, and each message gets its key in the sender's copy first:
    each of them sees the own message above the other's. -/
theorem opposite_order : ¬ ∀ [URLSyntax] (x y : UserProfile) (db : Value) (es es' : List Event)
    (s s' : State), x.uId ≠ y.uId → run (step x y) (init db) es = some s →
    run (step y x) (init db) es' = some s' → chatEvents es' = chatEvents es →
    Chronological (chatEvents es) → AllArrived x y (chatEvents es) s.chat → Shows x y s →
    Shows y x s' → SameOrder x y s s' := by
  intro h
  let _ := nonEmptyURLs
  let σ : Send := ⟨0, 0, 0, ann, bob⟩
  let τ : Send := ⟨1, 0, 0, bob, ann⟩
  let es : List Event := [.chat (.tap σ), .chat (.tap τ), .chat (.snapshot σ .sender),
    .chat (.snapshot τ .sender), .chat (.callback σ .sender "-L1" "hi"),
    .chat (.callback τ .sender "-L2" "yo"), .chat (.snapshot τ .receiver),
    .chat (.snapshot σ .receiver), .chat (.callback τ .receiver "-L3" "yo"),
    .chat (.callback σ .receiver "-L4" "hi"), .chat (.store σ .sender .message 1),
    .chat (.store τ .sender .message 2), .chat (.store τ .receiver .message 3),
    .chat (.store σ .receiver .message 4), .viewDidLoad, .snapshot, .singleEvent, .nodeEvent,
    .messagesEvent 0]
  obtain ⟨s, hs, hp⟩ := exists_of_run_any (step ann bob) (init acquainted) es
    (fun s => AllArrived ann bob (chatEvents es) s.chat ∧ s.messages =
      (snapshotAt (messagesRef ann bob) s.chat.db).children.filterMap
        (messageOf bob (snapshotAt (messagesRef ann bob) s.chat.db))) (by decide)
  obtain ⟨s', hs', hp'⟩ := exists_of_run_any (step bob ann) (init acquainted) es
    (fun s => s.messages = (snapshotAt (messagesRef bob ann) s.chat.db).children.filterMap
        (messageOf ann (snapshotAt (messagesRef bob ann) s.chat.db))) (by decide)
  obtain ⟨harr, hm⟩ := decide_eq_true_iff.mp hp
  have hshows : Shows ann bob s := ⟨bob, rfl, hm⟩
  have hshows' : Shows bob ann s' := ⟨ann, rfl, decide_eq_true_iff.mp hp'⟩
  have hsame := h ann bob acquainted es es s s' (by decide) hs hs' rfl (by decide) harr hshows
    hshows'
  have hbefore := before_iff_of_sameOrder (by decide) hs hs' rfl (by decide) harr hshows hshows'
    hsame
  exact absurd (hbefore σ (by decide) τ (by decide)) (by decide)

end

end PostApp.Screen
