import Mathlib.Data.List.Nodup
import PostApp.Chat.Overwrite
import PostApp.Profiles.Hidden

/-! What storing a profile erases.

    `saveProfile` sets the node of the account, and the chats of the account are kept below that node, so
    it erases whatever stands there. For an account that saves its profile once nothing does: the account is
    hidden until then, and its own device chats behind the write (`profile_erases_nothing`). So where every
    account saves its profile once, messages are lost in the whole app exactly as they are among the chats
    alone, to raced headers (`messages_stay_iff`). A second save does erase the chats
    (`second_save_erases`). -/

namespace PostApp.Copies
open Schemes Chat
variable [URLSyntax]

/-- Where the profile of the account is stored, nothing stood before. -/
def ErasesNothing (uId : String) (s : State) : Event → Prop
  | .commit client _ => ∀ w ws, s.pending client = w :: ws → w.1 = profileRef uId →
      s.chat.db.get (profileRef uId) = .null
  | _ => True

/-- In every run in which the account saves its profile at most once, from a database that knows nothing of
    it: when the profile is stored there is nothing at its node yet, so storing it erases no chat. -/
theorem profile_erases_nothing (db : Value) (es : List Event) (uId : String) (hdb : Unknown uId db)
    (hone : (es.filterMap Event.account).count uId ≤ 1)
    (hown : Along step (fun pre _ e _ => OwnView pre e) (init db) es)
    (hturn : Along step (fun pre s e _ => InTurn pre s e) (init db) es) :
    Along step (fun _ s e _ => ErasesNothing uId s e) (init db) es := by
  have hfirst : Along step (fun pre _ e _ => First uId pre e) (init db) es :=
    fun pre e post hes _ _ _ _ => first_of_count hone hes
  have hhistory := along_history
    (I := fun pre s => Owned uId pre s ∧ (Open uId pre s → Hidden uId pre s))
    ⟨owned_init db, fun _ => hidden_init hdb⟩ ?_ (along_and.mpr ⟨hfirst, along_and.mpr ⟨hown, hturn⟩⟩)
  · rintro pre e post rfl s s' hs hs'
    have hinv := hhistory pre (e :: post) rfl s hs
    cases e with
    | commit client now =>
      intro w ws hp hpath
      have hw : w ∈ s.pending client := by
        rw [hp]
        exact List.mem_cons_self ..
      exact (hinv.2 (Or.inr ⟨client, w, hw, hpath⟩)).unknown.node
    | saveProfile | savePost | reject | chat | raise | value | signOut => trivial
  · rintro pre s e s' ⟨howned, hhidden⟩ h ⟨hfirst, hown, hturn⟩
    refine ⟨owned_step howned hfirst h, ?_⟩
    intro hopen
    exact hidden_step howned (hhidden (open_step hfirst h hopen)) hfirst hopen hown hturn h

theorem unknown_null (uId : String) : Unknown uId .null where
  node := Node.get_null _
  headers := fun owner => by rw [Node.get_null, Node.child_null, decodeProfile_null]

/-- No profile or post waits on the device of a chat write. -/
def idleCheck (s : State) : Event → Bool
  | .chat (.store σ _ _ _) => (s.pending σ.client).isEmpty
  | _ => true

theorem inTurn_of_idle {db : Value} {es : List Event} (h : checks step idleCheck (init db) es = true) :
    Along step (fun pre s e _ => InTurn pre s e) (init db) es := by
  have hidle : Along step (fun _ s e _ => idleCheck s e = true) (init db) es :=
    along_of_checks (fun _ _ he => he) h
  rintro pre e post hes s s' hs hs'
  have he := hidle pre e post hes s s' hs hs'
  cases e with
  | chat c =>
    cases c with
    | store σ side kind now =>
      rintro uId userName userSurname url key text - w hw
      rw [List.isEmpty_iff.mp he] at hw
      cases hw
    | tap | snapshot | callback | reject | complete => trivial
  | saveProfile | savePost | commit | reject | raise | value | signOut => trivial

/-- Bob's device shows him his own profile before the database has it, and he writes to Ann at once; the
    profile is stored first. -/
def registersAndWrites (ann bob : UserProfile) : List Event :=
  let σ : Send := ⟨1, 0, 0, bob, ann⟩
  [.saveProfile 0 ann.uId ann.name ann.surname ann.photoURL, .commit 0 1,
    .saveProfile 1 bob.uId bob.name bob.surname bob.photoURL, .raise 1 2,
    .value 1 (.userProfile bob.uId) 0, .value 1 .persons 0, .chat (.tap σ), .chat (.snapshot σ .sender),
    .chat (.callback σ .sender "-L1" "hi"), .commit 1 3, .chat (.store σ .sender .header 4),
    .chat (.store σ .sender .message 5)]

omit [URLSyntax] in
theorem profile_erases_nothing_own : ∃ (_ : URLSyntax) (ann bob : UserProfile) (s : State),
    run step (init .null) (registersAndWrites ann bob) = some s ∧
      s.chat.db.get (messageRef "B" "A" "-L1") ≠ .null ∧
      Along step (fun _ s e _ => ErasesNothing "B" s e) (init .null) (registersAndWrites ann bob) := by
  let _ := nonEmptyURLs
  obtain ⟨s, hs, hp⟩ := exists_of_run_any step (init .null) (registersAndWrites ann bob)
    (fun s => s.chat.db.get (messageRef "B" "A" "-L1") ≠ .null) (by decide)
  exact ⟨nonEmptyURLs, ann, bob, s, hs, decide_eq_true_iff.mp hp,
    profile_erases_nothing .null (registersAndWrites ann bob) "B" (unknown_null "B") (by decide)
      (along_of_positions (by decide)) (inTurn_of_idle (by decide))⟩

/-- The chat events among the events. -/
def chatEvents (es : List Event) : List Chat.Event :=
  es.filterMap fun
    | .chat e => some e
    | _ => none

/-- A header write is not raced by messages to its copy of the conversation. -/
def NoRace (pre : List Event) : Event → Prop
  | .chat e => Unraced (chatEvents pre) e
  | _ => True

instance (pre : List Event) : ∀ e, Decidable (NoRace pre e)
  | .chat e => inferInstanceAs (Decidable (Unraced (chatEvents pre) e))
  | .saveProfile _ _ _ _ _ | .savePost _ _ _ | .commit _ _ | .reject _ | .raise _ _ | .value _ _ _
  | .signOut _ => .isTrue trivial

section Messages
variable {pre : List Event} {s s' : State} {e : Event}

theorem chatEvents_concat (he : ∀ c, e ≠ .chat c) : chatEvents (pre ++ [e]) = chatEvents pre := by
  rw [chatEvents, List.filterMap_append, List.filterMap_cons_none, List.filterMap_nil, List.append_nil]
  · rfl
  · cases e with
    | chat c => exact absurd rfl (he c)
    | saveProfile | savePost | commit | reject | raise | value | signOut => rfl

/-- A profile or a post stored where nothing stood leaves the messages as they are. -/
theorem get_message_store {Saved : UserProfile → Prop} {w : Path × Value} {v : Value}
    (hw : Record Saved w) (hnull : ∀ uId, w.1 = profileRef uId → v.get (profileRef uId) = .null)
    (now : Rat) (x y k : String) : (store now v w).get (messageRef x y k) = v.get (messageRef x y k) := by
  have hnone : v.get (messageRef x y k) = .null → (store now v w).get (messageRef x y k) = .null :=
    record_stores_no_message hw x y k
  cases hw with
  | profile p hp =>
    by_cases hx : p.uId = x
    · subst hx
      have hbefore : v.get (messageRef p.uId y k) = .null := by
        rw [messageRef_eq, Node.get_append, hnull p.uId rfl, Node.get_null]
      rw [hnone hbefore, hbefore]
    · have hap := apart_profile hx [] ["chat", y, "messages", k]
      rw [List.append_nil, ← messageRef_eq] at hap
      exact Node.get_set_apart hap _ _
  | post key a text _ =>
    have hap := (apart_profile_posts x ["chat", y, "messages", k] [key]).symm
    rw [← messageRef_eq] at hap
    exact Node.get_set_apart hap _ _

/-- What is known of the chats does not depend on the rest of the database. -/
theorem staying_db {ces : List Chat.Event} {c : Chat.State} {db : Value} (hs : Staying ces c)
    (h : ∀ x y k, db.get (messageRef x y k) = c.db.get (messageRef x y k)) :
    Staying ces { c with db := db } := by
  refine ⟨wf_db hs.wf (fun x y k hnull => (h x y k).trans hnull), hs.asked, ?_, ?_⟩
  · intro σ side k ha hk
    exact hs.since σ side k ha (h .. ▸ hk)
  · intro τ sd now hin
    obtain ⟨k, hk⟩ := hs.kept τ sd now hin
    exact ⟨k, by rw [h]; exact hk⟩

/-- If storing profiles erases nothing, a step keeps the messages exactly when it is not a raced header
    write, and then what is known of the chats stays known. -/
theorem messages_step (hs : Staying (chatEvents pre) s.chat) (hsound : Sound s)
    (herases : ∀ uId, ErasesNothing uId s e) (h : step s e = some s') :
    (MessagesStay s.chat s'.chat ↔ NoRace pre e) ∧
      (MessagesStay s.chat s'.chat → Staying (chatEvents (pre ++ [e])) s'.chat) := by
  rcases chat_step h with ⟨c, rfl, hc⟩ | ⟨hne, db, hchat, hdb⟩
  · have hevents : chatEvents (pre ++ [.chat c]) = chatEvents pre ++ [c] := by
      rw [chatEvents, List.filterMap_append]
      rfl
    rw [hevents]
    exact ⟨stays_step hs hc, staying_step hs hc⟩
  · have hsame : ∀ x y k, db.get (messageRef x y k) = s.chat.db.get (messageRef x y k) := by
      rcases hdb with rfl | ⟨client, now, w, ws, rfl, hp, rfl⟩
      · exact fun _ _ _ => rfl
      · have hw := hsound.pending client w (by rw [hp]; exact List.mem_cons_self ..)
        exact get_message_store hw (fun uId hpath => herases uId w ws hp hpath) now
    rw [chatEvents_concat hne, hchat]
    refine ⟨iff_of_true (fun x y k _ => hsame x y k) ?_, fun _ => staying_db hs hsame⟩
    cases e with
    | chat c => exact absurd rfl (hne c)
    | saveProfile | savePost | commit | reject | raise | value | signOut => trivial

end Messages

/-- In every run of the whole app in which each account saves its profile once, from a database that knows
    nothing of the accounts that do: stored messages stay exactly when no header write is raced. -/
theorem messages_stay_iff (db : Value) (es : List Event)
    (hdb : ∀ client uId userName userSurname url,
      .saveProfile client uId userName userSurname url ∈ es → Unknown uId db)
    (hone : (es.filterMap Event.account).Nodup)
    (hown : Along step (fun pre _ e _ => OwnView pre e) (init db) es)
    (hturn : Along step (fun pre s e _ => InTurn pre s e) (init db) es) :
    Along step (fun _ s _ s' => MessagesStay s.chat s'.chat) (init db) es ↔
      Along step (fun pre _ e _ => NoRace pre e) (init db) es := by
  -- who stores a profile has registered, so storing it erases nothing
  have herases : Along step (fun _ s e _ => Sound s ∧ ∀ uId, ErasesNothing uId s e) (init db) es := by
    rintro pre e post rfl s s' hs hs'
    have hsound : Sound s := run_invariant (sound_init db) (fun _ _ _ hs h => sound_step hs h) hs
    refine ⟨hsound, ?_⟩
    intro uId
    cases e with
    | commit client now =>
      intro w ws hp hpath
      have hwaits : Waits uId pre s := run_history (waits_init db) (fun _ _ _ _ hs h => waits_step hs h) hs
      obtain ⟨userName, userSurname, url, hmem⟩ :=
        hwaits client w (by rw [hp]; exact List.mem_cons_self ..) hpath
      have hunknown := hdb client uId userName userSurname url (List.mem_append_left _ hmem)
      exact profile_erases_nothing db _ uId hunknown (List.nodup_iff_count_le_one.mp hone uId) hown hturn
        pre _ post rfl s s' hs hs' w ws hp hpath
    | saveProfile | savePost | reject | chat | raise | value | signOut => trivial
  have hcongr : Along step (fun _ s e s' => MessagesStay s.chat s'.chat ∧
        (Sound s ∧ ∀ uId, ErasesNothing uId s e)) (init db) es ↔
      Along step (fun pre s e _ => NoRace pre e ∧ (Sound s ∧ ∀ uId, ErasesNothing uId s e))
        (init db) es := by
    refine along_congr (I := fun pre s => Staying (chatEvents pre) s.chat) ?_ ?_ ?_
    · exact staying_init db
    · intro pre s e s' hs h
      exact and_congr_left (fun hk => (messages_step hs hk.1 hk.2 h).1)
    · rintro pre s e s' hs h ⟨hstay, hk⟩
      exact (messages_step hs hk.1 hk.2 h).2 hstay
  constructor
  · intro hstay
    exact (along_and.mp (hcongr.mp (along_and.mpr ⟨hstay, herases⟩))).1
  · intro hrace
    exact (along_and.mp (hcongr.mpr (along_and.mpr ⟨hrace, herases⟩))).1

omit [URLSyntax] in
theorem messages_stay_iff_own : ∃ (_ : URLSyntax) (ann bob : UserProfile) (s : State),
    run step (init .null) (registersAndWrites ann bob) = some s ∧
      s.chat.db.get (messageRef "B" "A" "-L1") ≠ .null ∧
      Along step (fun _ s _ s' => MessagesStay s.chat s'.chat) (init .null)
        (registersAndWrites ann bob) := by
  let _ := nonEmptyURLs
  obtain ⟨s, hs, hp⟩ := exists_of_run_any step (init .null) (registersAndWrites ann bob)
    (fun s => s.chat.db.get (messageRef "B" "A" "-L1") ≠ .null) (by decide)
  exact ⟨nonEmptyURLs, ann, bob, s, hs, decide_eq_true_iff.mp hp,
    (messages_stay_iff .null (registersAndWrites ann bob) (fun _ uId _ _ _ _ => unknown_null uId)
      (by decide) (along_of_positions (by decide)) (inTurn_of_idle (by decide))).mpr
      (along_of_positions (by decide))⟩

omit [URLSyntax] in
/-- A profile saved for Bob's uid a second time, on another device, takes the message with it; no header
    write is raced. -/
theorem second_save_erases : ∃ (_ : URLSyntax) (es : List Event) (s s' : State),
    run step (init .null) es = some s ∧ step s (.commit 0 6) = some s' ∧
      Along step (fun pre _ e _ => NoRace pre e) (init .null) (es ++ [.commit 0 6]) ∧
      ¬ MessagesStay s.chat s'.chat := by
  let _ := nonEmptyURLs
  let es := registersAndWrites ann bob ++ [.saveProfile 0 "B" "Rob" "Ray" bob.photoURL]
  obtain ⟨s', hs', hp⟩ := exists_of_run_any step (init .null) (es ++ [.commit 0 6])
    (fun s => s.chat.db.get (messageRef "B" "A" "-L1") = .null) (by decide)
  obtain ⟨s, hs, hq⟩ := exists_of_run_any step (init .null) es
    (fun s => s.chat.db.get (messageRef "B" "A" "-L1") ≠ .null) (by decide)
  obtain ⟨m, hm, hstep⟩ := run_concat.mp hs'
  obtain rfl := Option.some.inj (hs.symm.trans hm)
  refine ⟨nonEmptyURLs, es, s, s', hs, hstep, along_of_positions (by decide), ?_⟩
  intro hstay
  have hkept := hstay "B" "A" "-L1" (decide_eq_true_iff.mp hq)
  rw [decide_eq_true_iff.mp hp] at hkept
  exact decide_eq_true_iff.mp hq hkept.symm

end PostApp.Copies
