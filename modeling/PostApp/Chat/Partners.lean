import PostApp.Chat.Outcome
import PostApp.Chat.Overwrite
import PostApp.Chat.Screen
import PostApp.Profiles.Copies
import PostApp.Profiles.PersonList

/-! The conversation list.

    `MessageVC.observeUsers` lists the conversations of the current user by their author headers, and
    `PrivateChatVC.observeMesseges` shows a conversation only if it has one. Headers are written by
    sends and never removed, so the list names, for each partner, the author of the last header
    stored (`listed_iff`). If no header write is rejected, every conversation with anything in it is
    listed (`lists_all`). If one is, the conversation may come to hold messages without a header: then
    no later send writes one, and it is never listed or shown again (`never_listed`). -/

namespace PostApp.Chat
open Schemes Screen
variable [URLSyntax]

/-- What `MessageVC` lists on the device of `owner`, once its events are delivered. -/
def conversations (owner : String) (db : Value) : List UserProfile :=
  observePartners (snapshotAt (chatRef owner) db)

/-- The author header of the conversation. -/
def header (x y : String) (db : Value) : Value := (db.get (conversationRef x y)).child "author"

/-- The list has an entry for the partner. -/
def Listed (x y : String) (db : Value) : Prop := ∃ p ∈ conversations x db, p.uId = y

/-- The author of the header that the event stores in the conversation. -/
def storedHeader (x y : String) : Event → Option UserProfile
  | .store σ side .header _ =>
    if side.owner σ = x ∧ side.peer σ = y then some (side.author σ) else none
  | _ => none

/-- The author of the last header stored in the conversation. -/
def lastHeader (x y : String) (es : List Event) : Option UserProfile :=
  es.foldl (fun last e => (storedHeader x y e).or last) none

/-! ### Headers -/

section
variable {x y : String} {db : Value} {p : UserProfile}

theorem mem_conversations :
    p ∈ conversations x db ↔ decodeProfile p.uId (header x p.uId db) = some p := by
  simp only [conversations, observePartners, mem_collect, partnerOf_iff, key_concat, header,
    conversationRef, Node.get_append]
  constructor
  · rintro ⟨k, -, hk⟩
    obtain rfl := (decodeProfile_fields.mp hk).1
    exact hk
  · intro hp
    have hname := ne_null_of_asString (decodeProfile_fields.mp hp).2.1
    exact ⟨p.uId, Node.ne_null_of_child (Node.ne_null_of_child hname), hp⟩

theorem listed_iff_decodes : Listed x y db ↔ ∃ p, decodeProfile y (header x y db) = some p := by
  constructor
  · rintro ⟨p, hp, rfl⟩
    exact ⟨p, mem_conversations.mp hp⟩
  · rintro ⟨p, hp⟩
    obtain rfl := (decodeProfile_fields.mp hp).1
    exact ⟨p, mem_conversations.mpr hp, rfl⟩

/-- A leg names the peer of its copy in the header. -/
theorem author_uId (side : Side) (σ : Send) : (side.author σ).uId = side.peer σ := by
  cases side <;> rfl

end

section Step
variable {s s' : State} {e : Event} {x y : String}

/-- A step stores a header in the conversation or leaves the one that is there. -/
theorem header_step (hs : Wf s) (h : step s e = some s') :
    (storedHeader x y e = none ∧ header x y s'.db = header x y s.db) ∨
      ∃ σ side now, e = .store σ side .header now ∧ side.owner σ = x ∧ side.peer σ = y ∧
        header x y s'.db = (resolve now (headerObject (side.author σ))).child "author" := by
  rcases db_step hs h with ⟨hdb, hne⟩ | ⟨σ, side, kind, now, i, rfl, -, -, -, hdb⟩
  · refine Or.inl ⟨?_, by rw [hdb]⟩
    unfold storedHeader
    split
    · next σ side now => exact absurd rfl (hne σ side .header now)
    · rfl
  · by_cases hc : side.owner σ = x ∧ side.peer σ = y
    · cases kind with
      | header =>
        refine Or.inr ⟨σ, side, now, rfl, hc.1, hc.2, ?_⟩
        obtain ⟨rfl, rfl⟩ := hc
        rw [header, hdb]
        exact congrArg (Node.child "author") (Node.get_set_self _ _ _)
      | message =>
        refine Or.inl ⟨rfl, ?_⟩
        obtain ⟨rfl, rfl⟩ := hc
        have hpath : (writeOf σ side i .message).path =
            conversationRef (side.owner σ) (side.peer σ) ++ ["messages", i.key] := rfl
        rw [header, hdb, hpath, Node.get_set_append, Node.set, Node.child_insert_ne (by decide)]
        rfl
    · refine Or.inl ⟨?_, ?_⟩
      · cases kind with
        | header => exact if_neg hc
        | message => rfl
      · have hget := get_set_writeOf_of_ne i kind hc [] (resolve now (writeOf σ side i kind).value) s.db
        rw [List.append_nil] at hget
        rw [header, hdb, hget]
        rfl

/-- What the list says of a conversation, after a step. -/
theorem decodes_step (hs : Wf s) (h : step s e = some s') :
    decodeProfile y (header x y s'.db) =
      (storedHeader x y e).or (decodeProfile y (header x y s.db)) := by
  rcases header_step (x := x) (y := y) hs h with ⟨hnone, heq⟩ | ⟨σ, side, now, rfl, ho, hp, heq⟩
  · rw [hnone, heq, Option.none_or]
  · have hauthor : ({ side.author σ with uId := y } : UserProfile) = side.author σ := by
      rw [← hp, ← author_uId]
    rw [heq, decodeProfile_header, hauthor, storedHeader, if_pos ⟨ho, hp⟩, Option.some_or]

end Step

/-- In every run from a store without conversations, the list of `MessageVC` names for each partner the
    author of the last header stored in the conversation, in the order of the uids. -/
theorem listed_iff (db : Value) (es : List Event) (s : State)
    (hdb : ∀ x y, db.get (conversationRef x y) = .null) (hr : run step (init db) es = some s)
    (x : String) :
    (∀ p, p ∈ conversations x s.db ↔ lastHeader x p.uId es = some p) ∧
      ((conversations x s.db).map UserProfile.uId).Pairwise (· < ·) := by
  refine ⟨?_, PersonList.observeUsers_sorted .messageVC _⟩
  have hlast : ∀ y, decodeProfile y (header x y s.db) = lastHeader x y es := by
    intro y
    have hnone : decodeProfile y (header x y (init db).db) = none := by
      have hnull : (init db).db.get (conversationRef x y) = .null := hdb x y
      rw [header, hnull]
      rfl
    have hfold := run_fold (I := Wf) (f := fun s => decodeProfile y (header x y s.db))
      (g := fun last e => (storedHeader x y e).or last) (wf_init db) (fun _ _ _ hs h => wf_step hs h)
      (fun _ _ _ hs h => decodes_step hs h) hr
    rw [hfold, hnone]
    rfl
  intro p
  rw [mem_conversations, hlast]

omit [URLSyntax] in
/-- Ann has written to Bob, and the header is in her copy. -/
theorem listed_iff_first : ∃ (_ : URLSyntax) (x y : UserProfile) (es : List Event) (s : State),
    run step (init .null) es = some s ∧ y ∈ conversations x.uId s.db := by
  let _ := nonEmptyURLs
  let σ : Send := ⟨0, 0, 0, ann, bob⟩
  let es : List Event := [.tap σ, .snapshot σ .sender, .callback σ .sender "-L1" "hi",
    .store σ .sender .header 1]
  obtain ⟨s, hs, -⟩ := exists_of_run_any step (init .null) es (fun _ => true) (by decide)
  have hlist := listed_iff .null es s (fun _ _ => Node.get_null _) hs "A"
  exact ⟨nonEmptyURLs, ann, bob, es, s, hs, (hlist.1 bob).mpr (by decide)⟩

/-! ### No header is rejected -/

/-- Whatever has been seen or stored of a conversation, it is listed. -/
structure Headed (s : State) : Prop where
  wf : Wf s
  first : HeaderFirst s
  listed : ∀ x y, s.db.get (conversationRef x y) ≠ .null → Listed x y s.db
  snapped : ∀ σ side snapshot, s.phase σ side = .snapped snapshot →
    snapshot.hasChild (side.peer σ) = true → Listed (side.owner σ) (side.peer σ) s.db
  issued : ∀ σ side i, s.phase σ side = .issued i → i.header ≠ .pending →
    Listed (side.owner σ) (side.peer σ) s.db

section Step
variable {s s' : State} {e : Event} {x y : String} {σ : Send} {side : Side}

theorem listed_step (hs : Wf s) (h : step s e = some s') (hl : Listed x y s.db) :
    Listed x y s'.db := by
  obtain ⟨p, hp⟩ := listed_iff_decodes.mp hl
  rw [listed_iff_decodes, decodes_step hs h, hp]
  cases storedHeader x y e with
  | none => exact ⟨p, rfl⟩
  | some a => exact ⟨a, rfl⟩

theorem listed_of_header {now : Rat} (hs : Wf s)
    (h : step s (.store σ side .header now) = some s') :
    Listed (side.owner σ) (side.peer σ) s'.db := by
  rw [listed_iff_decodes, decodes_step hs h, storedHeader, if_pos ⟨rfl, rfl⟩]
  exact ⟨_, rfl⟩

/-- When the message of a leg is judged, so is its header. -/
theorem header_judged {o : Outcome} {w : Write} {i : Issued} (hs : Wf s)
    (hf : HeaderFirst s) (hpop : s.pop σ side .message o = some (w, s'))
    (hp : s.phase σ side = .issued i) : i.header ≠ .pending := by
  intro hh
  obtain ⟨j, ws, hj, -, rfl, hq, -⟩ := pop_wf hs hpop
  rw [hp] at hj
  cases hj
  have hsub := hf σ side i hp hh
  have hnd := hs.nodup σ.client
  rw [hq] at hsub hnd
  cases hsub with
  | cons _ hrest => exact (List.nodup_cons.mp hnd).1 (hrest.subset (by simp))

theorem headed_init {db : Value} (hdb : ∀ x y, db.get (conversationRef x y) = .null) :
    Headed (init db) :=
  ⟨wf_init db, headerFirst_init db, fun x y hne => absurd (hdb x y) hne, fun _ _ _ h => (by cases h),
    fun _ _ _ h => (by cases h)⟩

theorem headed_listed (hs : Headed s) (h : step s e = some s')
    (hne : s'.db.get (conversationRef x y) ≠ .null) : Listed x y s'.db := by
  rcases db_step hs.wf h with ⟨hdb, -⟩ | ⟨σ, side, kind, now, i, rfl, hp, -, -, hdb⟩
  · rw [hdb] at hne
    exact listed_step hs.wf h (hs.listed x y hne)
  · by_cases hc : side.owner σ = x ∧ side.peer σ = y
    · obtain ⟨rfl, rfl⟩ := hc
      cases kind with
      | header => exact listed_of_header hs.wf h
      | message =>
        obtain ⟨w, s₁, hpop, -⟩ := step_store.mp h
        exact listed_step hs.wf h (hs.issued σ side i hp (header_judged hs.wf hs.first hpop hp))
    · have hget := get_set_writeOf_of_ne i kind hc [] (resolve now (writeOf σ side i kind).value) s.db
      rw [List.append_nil] at hget
      rw [hdb, hget] at hne
      exact listed_step hs.wf h (hs.listed x y hne)

theorem headed_snapped {snapshot : DataSnapshot} (hs : Headed s) (h : step s e = some s')
    (hp : s'.phase σ side = .snapped snapshot) (hchild : snapshot.hasChild (side.peer σ) = true) :
    Listed (side.owner σ) (side.peer σ) s'.db := by
  rcases phase_step h σ side with ⟨-, heq⟩ | hadv
  · rw [heq] at hp
    exact listed_step hs.wf h (hs.snapped σ side snapshot hp hchild)
  · rw [hp] at hadv
    generalize s.phase σ side = ph at hadv
    cases hadv
    refine listed_step hs.wf h (hs.listed _ _ ?_)
    rw [conversationRef, Node.get_append]
    exact hasChild_iff.mp hchild

theorem headed_issued {i' : Issued} (hs : Headed s) (h : step s e = some s')
    (hno : ∀ σ side, e ≠ .reject σ side .header) (hp : s'.phase σ side = .issued i')
    (hh : i'.header ≠ .pending) : Listed (side.owner σ) (side.peer σ) s'.db := by
  have hold : ∀ i, s.phase σ side = .issued i → i.header ≠ .pending →
      Listed (side.owner σ) (side.peer σ) s'.db :=
    fun i hi hne => listed_step hs.wf h (hs.issued σ side i hi hne)
  rcases phase_step h σ side with ⟨-, heq⟩ | hadv
  · rw [heq] at hp
    exact hold i' hp hh
  · rw [hp] at hadv
    generalize hph : s.phase σ side = ph at hadv
    cases hadv with
    | callback snapshot key text =>
      rw [issue] at hh
      split_ifs at hh with hchild
      · exact listed_step hs.wf h (hs.snapped σ side snapshot hph hchild)
      · exact absurd rfl hh
    | store i kind now =>
      cases kind with
      | header => exact listed_of_header hs.wf h
      | message => exact hold i hph hh
    | reject i kind =>
      cases kind with
      | header => exact absurd rfl (hno σ side)
      | message => exact hold i hph hh
    | complete i _ => exact hold i hph hh

theorem headed_step (hs : Headed s) (h : step s e = some s')
    (hno : ∀ σ side, e ≠ .reject σ side .header) : Headed s' where
  wf := wf_step hs.wf h
  first := headerFirst_step hs.wf hs.first h
  listed := fun _ _ hne => headed_listed hs h hne
  snapped := fun _ _ _ hp hchild => headed_snapped hs h hp hchild
  issued := fun _ _ _ hp hh => headed_issued hs h hno hp hh

end Step

/-- As long as no header write is rejected, the lists hide nothing: from a store without conversations,
    a conversation is listed exactly when anything is stored in it. -/
theorem lists_all (db : Value) (es : List Event) (s : State)
    (hdb : ∀ x y, db.get (conversationRef x y) = .null)
    (hno : ∀ σ side, .reject σ side .header ∉ es) (hr : run step (init db) es = some s)
    (x y : String) : Listed x y s.db ↔ s.db.get (conversationRef x y) ≠ .null := by
  constructor
  · intro hl
    obtain ⟨p, hp⟩ := listed_iff_decodes.mp hl
    have hname := ne_null_of_asString (decodeProfile_fields.mp hp).2.1
    exact Node.ne_null_of_child (Node.ne_null_of_child hname)
  · have hs := along_history (I := fun _ => Headed)
      (R := fun _ _ e _ => ∀ σ side, e ≠ .reject σ side .header) (headed_init hdb)
      (fun _ _ _ _ hs h hno => headed_step hs h hno) ?_ es [] (List.append_nil es).symm s hr
    · exact hs.listed x y
    · rintro pre e post rfl _ _ - - σ side rfl
      exact hno σ side (by simp)

omit [URLSyntax] in
/-- The message of the same send is on its way, and the conversation is listed. -/
theorem lists_all_first : ∃ (_ : URLSyntax) (es : List Event) (s : State),
    run step (init .null) es = some s ∧ Listed "A" "B" s.db := by
  let _ := nonEmptyURLs
  let σ : Send := ⟨0, 0, 0, ann, bob⟩
  let es : List Event := [.tap σ, .snapshot σ .sender, .callback σ .sender "-L1" "hi",
    .store σ .sender .header 1]
  obtain ⟨s, hs, hp⟩ := exists_of_run_any step (init .null) es
    (fun s => s.db.get (conversationRef "A" "B") ≠ .null) (by decide)
  exact ⟨nonEmptyURLs, es, s, hs, (lists_all .null es s (fun _ _ => Node.get_null _) (by simp [es]) hs
    "A" "B").mpr (decide_eq_true_iff.mp hp)⟩

/-! ### A header is rejected -/

/-- The conversation holds something but no author, and no leg is about to write one. -/
structure Headerless (x y : UserProfile) (s : State) : Prop where
  wf : Wf s
  something : s.db.get (nodeRef x y) ≠ .null
  noAutor : ¬ HasAutor x y (s.db.get (nodeRef x y))
  nobody : ∀ σ side, side.owner σ = x.uId → side.peer σ = y.uId →
    (s.phase σ side).absent y.uId = false

section Step
variable {s s' : State} {e : Event} {x y : UserProfile}

/-- A listed conversation has an author. -/
theorem hasAutor_of_listed {db : Value} (hl : Listed x.uId y.uId db) :
    HasAutor x y (db.get (nodeRef x y)) := by
  obtain ⟨p, hp⟩ := listed_iff_decodes.mp hl
  exact hasAutor_iff.mpr ⟨"author", p, hp⟩

/-- A message makes nothing decode as an author. -/
theorem noAutor_message {db : Value} {key : String} {isSender : Bool} {text : String} {now : Rat}
    (hno : ¬ HasAutor x y (db.get (nodeRef x y))) :
    ¬ HasAutor x y ((db.get (nodeRef x y)).set ["messages", key]
      (resolve now (messageObject isSender text))) := by
  rw [hasAutor_iff] at hno ⊢
  rintro ⟨k, p, hp⟩
  by_cases hk : k = "messages"
  · subst hk
    rw [Node.set, Node.child_insert] at hp
    exact hno ⟨"messages", p, Copies.decodeProfile_of_insert
      (Copies.asString_messageObject isSender text now) hp⟩
  · rw [Node.set, Node.child_insert_ne hk] at hp
    exact hno ⟨k, p, hp⟩

/-- A conversation without a header changes by messages only. -/
theorem node_step (hs : Headerless x y s) (h : step s e = some s') :
    s'.db.get (nodeRef x y) = s.db.get (nodeRef x y) ∨
      ∃ key isSender text now, s'.db.get (nodeRef x y) =
        (s.db.get (nodeRef x y)).set ["messages", key] (resolve now (messageObject isSender text)) := by
  rcases db_step hs.wf h with ⟨hdb, -⟩ | ⟨σ, side, kind, now, i, rfl, hp, hpend, -, hdb⟩
  · exact Or.inl (by rw [hdb])
  · by_cases hc : side.owner σ = x.uId ∧ side.peer σ = y.uId
    · cases kind with
      | header =>
        -- the leg would have been about to write it
        have hnobody := hs.nobody σ side hc.1 hc.2
        rw [hp] at hnobody
        exact absurd (decide_eq_true (show i.header = .pending from hpend)) (by
          simpa [Phase.absent] using hnobody)
      | message =>
        refine Or.inr ⟨i.key, side.isSender, i.text, now, ?_⟩
        have hpath : (writeOf σ side i .message).path = nodeRef x y ++ ["messages", i.key] := by
          rw [writeOf, hc.1, hc.2]
          rfl
        rw [hdb, hpath, Node.get_set_append]
        rfl
    · have hget := get_set_writeOf_of_ne i kind hc [] (resolve now (writeOf σ side i kind).value) s.db
      rw [List.append_nil] at hget
      rw [hdb]
      exact Or.inl hget

theorem headerless_step (hs : Headerless x y s) (h : step s e = some s') : Headerless x y s' := by
  have hsome : s'.db.get (nodeRef x y) ≠ .null := by
    rcases node_step hs h with heq | ⟨key, isSender, text, now, heq⟩
    · rw [heq]
      exact hs.something
    · intro hnull
      have hread := Node.get_set_self ["messages", key] (resolve now (messageObject isSender text))
        (s.db.get (nodeRef x y))
      rw [← heq, hnull, Node.get_null] at hread
      exact messageObject_ne_null isSender text now hread.symm
  refine ⟨wf_step hs.wf h, hsome, ?_, ?_⟩
  · rcases node_step hs h with heq | ⟨key, isSender, text, now, heq⟩
    · rw [heq]
      exact hs.noAutor
    · rw [heq]
      exact noAutor_message hs.noAutor
  · intro σ side ho hp
    refine Bool.eq_false_of_not_eq_true ?_
    intro ha
    rw [← hp] at ha
    rcases absent_step h σ side ha with hold | ⟨-, hnull⟩
    · have hnobody := hs.nobody σ side ho hp
      rw [hp, hnobody] at hold
      cases hold
    · rw [Side.conversation, ho, hp] at hnull
      exact hsome hnull

end Step

/-- A conversation that has come to hold something without a header, while no leg is about to write
    one, stays so: whatever is sent later, it is never listed by `MessageVC` and never shown by
    `PrivateChatVC`. -/
theorem never_listed (x y : UserProfile) (db : Value) (es es' : List Event) (s s' : State)
    (hr : run step (init db) es = some s) (hsome : s.db.get (nodeRef x y) ≠ .null)
    (hno : ¬ HasAutor x y (s.db.get (nodeRef x y)))
    (hnobody : ∀ σ side, side.owner σ = x.uId → side.peer σ = y.uId →
      (s.phase σ side).absent y.uId = false)
    (hr' : run step s es' = some s') :
    ¬ Listed x.uId y.uId s'.db ∧ observeAutors (snapshotAt (nodeRef x y) s'.db) = [] := by
  have hwf : Wf s := run_invariant (I := Wf) (wf_init db) (fun _ _ _ hs h => wf_step hs h) hr
  have hs' : Headerless x y s' := run_invariant (I := Headerless x y)
    ⟨hwf, hsome, hno, hnobody⟩ (fun _ _ _ hs h => headerless_step hs h) hr'
  exact ⟨fun hl => hs'.noAutor (hasAutor_of_listed hl), not_ne_iff.mp hs'.noAutor⟩

omit [URLSyntax] in
/-- The header of Ann's first message is rejected and the message stored; her second message finds the
    conversation there. -/
theorem never_listed_rejected : ∃ (_ : URLSyntax) (x y : UserProfile) (s s' : State)
    (es es' : List Event), run step (init .null) es = some s ∧ run step s es' = some s' ∧
      (s'.db.get (messagesRef x y)).children.length = 2 ∧ ¬ Listed x.uId y.uId s'.db ∧
      observeAutors (snapshotAt (nodeRef x y) s'.db) = [] := by
  let _ := nonEmptyURLs
  let σ : Send := ⟨0, 0, 0, ann, bob⟩
  let τ : Send := ⟨0, 0, 1, ann, bob⟩
  let i : Issued := ⟨true, "-L1", "hi", .failed, .stored, false⟩
  let es : List Event := [.tap σ, .snapshot σ .sender, .callback σ .sender "-L1" "hi",
    .reject σ .sender .header, .store σ .sender .message 1]
  let es' : List Event := [.tap τ, .snapshot τ .sender, .callback τ .sender "-L2" "hey",
    .store τ .sender .message 2]
  obtain ⟨s', hs', hp'⟩ := exists_of_run_any step (init .null) (es ++ es')
    (fun s => (s.db.get (messagesRef ann bob)).children.length = 2) (by decide)
  obtain ⟨s, hs, hp⟩ := exists_of_run_any step (init .null) es
    (fun s => s.phase σ .sender = .issued i ∧ s.db.get (nodeRef ann bob) ≠ .null ∧
      observeAutors ⟨nodeRef ann bob, s.db.get (nodeRef ann bob)⟩ = []) (by decide)
  obtain ⟨hphase, hsome, hno⟩ := decide_eq_true_iff.mp hp
  rw [run_append, hs] at hs'
  refine ⟨nonEmptyURLs, ann, bob, s, s', es, es', hs, hs', decide_eq_true_iff.mp hp', ?_⟩
  refine never_listed ann bob .null es es' s s' hs hsome (not_ne_iff.mpr hno) ?_ hs'
  intro υ side ho _
  by_cases hυ : s.phase υ side = .idle
  · rw [hυ]
    rfl
  · have htap := tap_mem hs hυ
    obtain rfl : υ = σ := by simpa [es] using htap
    cases side with
    | receiver => exact absurd ho (by decide)
    | sender =>
      rw [hphase]
      rfl

end PostApp.Chat
