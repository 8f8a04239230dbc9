import PostApp.Chat.Invariant
import Mathlib.Data.List.TakeWhile

/-! The text a message carries.

    `sendButton` hands no text to `sendMessage`: each leg reads `textView.text` inside its own
    snapshot callback, and every completion of a message write empties that text view. Between the
    tap and a callback the composer may thus have been edited, or emptied by the other leg or by an
    earlier send. A message carries the text of its tap exactly when the last such change, if any,
    leaves that text in the composer (`stores_tap_text_iff`). -/

namespace PostApp.Composer
open Schemes Chat
variable [URLSyntax]

structure State where
  chat : Chat.State
  /-- `textView.text` of every chat screen of every device -/
  textView : ℕ → ℕ → String
  /-- what the composer showed at the tap; nothing in the app keeps it -/
  tapText : Send → String

inductive Event where
  | edit (client screen : ℕ) (text : String)
  | chat (e : Chat.Event)
  deriving DecidableEq

def State.setText (s : State) (client screen : ℕ) (text : String) : State :=
  { s with textView := fun c v => if c = client ∧ v = screen then text else s.textView c v }

def init (db : Value) (textView : ℕ → ℕ → String) : State :=
  ⟨Chat.init db, textView, fun _ => ""⟩

def step (s : State) : Event → Option State
  | .edit client screen text => some (s.setText client screen text)
  | .chat e => do
    let chat ← Chat.step s.chat e
    match e with
    | .tap σ => some { s with
        chat
        tapText := Function.update s.tapText σ (s.textView σ.client σ.screen) }
    | .callback σ _ _ text =>
      if text = s.textView σ.client σ.screen then some { s with chat } else none
    -- the closure of `sendButton` ignores whether the message was sent
    | .complete σ _ => some { s.setText σ.client σ.screen "" with chat }
    | _ => some { s with chat }

/-- What the event leaves in the composer of this screen, if it changes it. -/
def Event.leaves (client screen : ℕ) : Event → Option String
  | .edit c v text => if client = c ∧ screen = v then some text else none
  | .chat (.complete σ _) => if client = σ.client ∧ screen = σ.screen then some "" else none
  | .chat _ => none

/-- What the last change among the events leaves in the composer. -/
def lastChange (client screen : ℕ) (es : List Event) : Option String :=
  (es.filterMap (Event.leaves client screen)).getLast?

def Event.isCallback (σ : Send) (side : Side) : Event → Bool
  | .chat (.callback τ sd _ _) => τ = σ ∧ sd = side
  | _ => false

/-- The events between the tap and the snapshot callback of the leg. -/
def between (σ : Send) (side : Side) (es : List Event) : List Event :=
  (after (.chat (.tap σ)) es).takeWhile (fun e => !e.isCallback σ side)

/-- A message that the step stores carries the text of its tap. -/
def StoresTapText (s : State) (e : Event) (s' : State) : Prop :=
  match e with
  | .chat (.store σ side .message _) => ∀ i, s.chat.phase σ side = .issued i →
      asString ((s'.chat.db.get (messageRef (side.owner σ) (side.peer σ) i.key)).child "text") =
        some (s.tapText σ)
  | _ => True

/-- A message that the step stores was not disturbed: the last change of its composer between the
    tap and the snapshot callback, if there was one, left the text of the tap. -/
def Undisturbed (pre : List Event) (s : State) (e : Event) : Prop :=
  match e with
  | .chat (.store σ side .message _) => ∀ text,
      lastChange σ.client σ.screen (between σ side pre) = some text → text = s.tapText σ
  | _ => True

/-! ### What a step can do -/

section Inversion
variable {s s' : State} {e : Event}

theorem chat_step {ce : Chat.Event} (h : step s (.chat ce) = some s') :
    Chat.step s.chat ce = some s'.chat := by
  obtain ⟨chat, hc, hs'⟩ := Option.bind_eq_some_iff.mp h
  rw [hc]
  cases ce with
  | callback σ side key text =>
    simp only at hs'
    split_ifs at hs'
    cases hs'; rfl
  | tap | snapshot | store | reject | complete => cases hs'; rfl

theorem edit_step {client screen : ℕ} {text : String}
    (h : step s (.edit client screen text) = some s') : s'.chat = s.chat := by
  cases h; rfl

/-- A callback reads the composer as it is. -/
theorem callback_text {σ : Send} {side : Side} {key text : String}
    (h : step s (.chat (.callback σ side key text)) = some s') :
    text = s.textView σ.client σ.screen := by
  obtain ⟨chat, -, hs'⟩ := Option.bind_eq_some_iff.mp h
  simp only at hs'
  split_ifs at hs' with ht
  exact ht

theorem textView_step (h : step s e = some s') (client screen : ℕ) :
    s'.textView client screen = (e.leaves client screen).getD (s.textView client screen) := by
  cases e with
  | edit c v text =>
    cases h
    simp only [State.setText, Event.leaves]
    split_ifs <;> rfl
  | chat ce =>
    obtain ⟨chat, -, hs'⟩ := Option.bind_eq_some_iff.mp h
    cases ce with
    | callback σ side key text =>
      simp only at hs'
      split_ifs at hs'
      cases hs'; rfl
    | complete σ side =>
      cases hs'
      simp only [State.setText, Event.leaves]
      split_ifs <;> rfl
    | tap | snapshot | store | reject => cases hs'; rfl

theorem tapText_step (h : step s e = some s') (σ : Send) :
    s'.tapText σ =
      if e = .chat (.tap σ) then s.textView σ.client σ.screen else s.tapText σ := by
  cases e with
  | edit c v text => cases h; rfl
  | chat ce =>
    obtain ⟨chat, -, hs'⟩ := Option.bind_eq_some_iff.mp h
    cases ce with
    | callback τ side key text =>
      simp only at hs'
      split_ifs at hs'
      cases hs'; rfl
    | tap τ =>
      cases hs'
      by_cases hτ : σ = τ
      · subst hτ; simp
      · simp [Function.update_of_ne hτ, Ne.symm hτ]
    | snapshot | store | reject | complete => cases hs'; rfl

/-- A leg stays where it is, or the event is one of the chat that moves it. -/
theorem leg_step (h : step s e = some s') (σ : Send) (side : Side) :
    (s'.chat.phase σ side = s.chat.phase σ side ∧ ∀ ce, e = .chat ce → ¬ ce.moves σ side) ∨
      ∃ ce, e = .chat ce ∧
        Advance s.chat.db σ side ce (s.chat.phase σ side) (s'.chat.phase σ side) := by
  cases e with
  | edit c v text => exact Or.inl ⟨by rw [edit_step h], by simp⟩
  | chat ce =>
    rcases phase_step (chat_step h) σ side with ⟨hm, heq⟩ | hadv
    · refine Or.inl ⟨heq, ?_⟩
      rintro _ he; cases he; exact hm
    · exact Or.inr ⟨ce, rfl, hadv⟩

end Inversion

/-! ### The text a leg has read -/

omit [URLSyntax] in
theorem getD_or {α : Type} (o o' : Option α) (d : α) : (o.or o').getD d = o.getD (o'.getD d) := by
  cases o <;> rfl

theorem lastChange_concat (client screen : ℕ) (es : List Event) (e : Event) :
    lastChange client screen (es ++ [e]) =
      (e.leaves client screen).or (lastChange client screen es) := by
  rw [lastChange, List.filterMap_append]
  cases h : e.leaves client screen with
  | none => simp [h, lastChange]
  | some t => simp [h]

/-- The leg has been tapped and its callback is still to come. -/
def waiting : Phase → Prop
  | .requested | .snapped _ => True
  | _ => False

/-- What the legs have read, or would read now, in terms of the events so far. -/
structure Reading (pre : List Event) (s : State) : Prop where
  wf : Wf s.chat
  tapped : ∀ σ side, s.chat.phase σ side = .idle ↔ .chat (.tap σ) ∉ pre
  waiting : ∀ σ side, waiting (s.chat.phase σ side) →
    (∀ e ∈ after (.chat (.tap σ)) pre, e.isCallback σ side = false) ∧
      s.textView σ.client σ.screen =
        (lastChange σ.client σ.screen (after (.chat (.tap σ)) pre)).getD (s.tapText σ)
  issued : ∀ σ side i, s.chat.phase σ side = .issued i →
    (∃ e ∈ after (.chat (.tap σ)) pre, e.isCallback σ side = true) ∧
      i.text = (lastChange σ.client σ.screen (between σ side pre)).getD (s.tapText σ)

theorem reading_init (db : Value) (textView : ℕ → ℕ → String) : Reading [] (init db textView) :=
  ⟨wf_init db, fun _ _ => by simp [init, Chat.init], fun _ _ h => h.elim,
    fun _ _ _ h => (by cases h)⟩

theorem isCallback_iff {σ : Send} {side : Side} {e : Event} :
    e.isCallback σ side = true ↔ ∃ key text, e = .chat (.callback σ side key text) := by
  constructor
  · intro h
    unfold Event.isCallback at h
    split at h
    · next τ sd key text =>
      obtain ⟨rfl, rfl⟩ : τ = σ ∧ sd = side := by simpa using h
      exact ⟨key, text, rfl⟩
    · cases h
  · rintro ⟨key, text, rfl⟩; simp [Event.isCallback]

/-- Another event while the leg waits. -/
theorem waiting_keep {pre : List Event} {s s' : State} {e : Event} {σ : Send} {side : Side}
    (hs : Reading pre s) (h : step s e = some s') (hw : waiting (s.chat.phase σ side))
    (htap : e ≠ .chat (.tap σ)) (hcall : e.isCallback σ side = false) :
    (∀ x ∈ after (.chat (.tap σ)) (pre ++ [e]), x.isCallback σ side = false) ∧
      s'.textView σ.client σ.screen =
        (lastChange σ.client σ.screen (after (.chat (.tap σ)) (pre ++ [e]))).getD
          (s'.tapText σ) := by
  have hmem : .chat (.tap σ) ∈ pre := by
    by_contra hno
    rw [(hs.tapped σ side).mpr hno] at hw
    exact hw
  obtain ⟨hnone, htext⟩ := hs.waiting σ side hw
  rw [after_append_of_mem [e] hmem]
  refine ⟨?_, ?_⟩
  · intro x hx
    rcases List.mem_append.mp hx with hx | hx
    · exact hnone x hx
    · rw [List.mem_singleton.mp hx]; exact hcall
  · rw [textView_step h, lastChange_concat, tapText_step h, if_neg htap, htext, getD_or]

/-- Another event after the leg's callback. -/
theorem issued_keep {pre : List Event} {s s' : State} {e : Event} {σ : Send} {side : Side}
    {i : Issued} (hs : Reading pre s) (h : step s e = some s')
    (hi : s.chat.phase σ side = .issued i) (htap : e ≠ .chat (.tap σ)) :
    (∃ x ∈ after (.chat (.tap σ)) (pre ++ [e]), x.isCallback σ side = true) ∧
      i.text =
        (lastChange σ.client σ.screen (between σ side (pre ++ [e]))).getD (s'.tapText σ) := by
  have hmem : .chat (.tap σ) ∈ pre := by
    by_contra hno
    rw [(hs.tapped σ side).mpr hno] at hi
    cases hi
  obtain ⟨⟨x, hx, hcall⟩, htext⟩ := hs.issued σ side i hi
  have hbetween : between σ side (pre ++ [e]) = between σ side pre := by
    rw [between, after_append_of_mem [e] hmem, List.takeWhile_append, if_neg]
    · rfl
    · intro hlen
      have hall := (List.takeWhile_prefix _).eq_of_length hlen
      have hno := List.takeWhile_eq_self_iff.mp hall x hx
      simp [hcall] at hno
  rw [hbetween, tapText_step h, if_neg htap]
  rw [after_append_of_mem [e] hmem]
  exact ⟨⟨x, List.mem_append_left _ hx, hcall⟩, htext⟩

theorem reading_step {pre : List Event} {s s' : State} {e : Event} (hs : Reading pre s)
    (h : step s e = some s') : Reading (pre ++ [e]) s' := by
  refine ⟨?_, ?_, ?_, ?_⟩
  · cases e with
    | edit c v text => rw [edit_step h]; exact hs.wf
    | chat ce => exact wf_step hs.wf (chat_step h)
  · intro σ side
    have hold := hs.tapped σ side
    rcases leg_step h σ side with ⟨heq, hm⟩ | ⟨ce, rfl, hadv⟩
    · have hne : e ≠ .chat (.tap σ) := fun he => hm _ he rfl
      rw [heq, hold]
      simp [Ne.symm hne]
    · generalize s'.chat.phase σ side = ph' at hadv
      generalize hph : s.chat.phase σ side = ph at hadv hold
      cases hadv <;> simp_all
  · intro σ side hw
    rcases leg_step h σ side with ⟨heq, hm⟩ | ⟨ce, rfl, hadv⟩
    · rw [heq] at hw
      refine waiting_keep hs h hw (fun he => hm _ he rfl) ?_
      rw [Bool.eq_false_iff]
      intro hc
      obtain ⟨key, text, rfl⟩ := isCallback_iff.mp hc
      exact hm _ rfl ⟨rfl, rfl⟩
    · generalize hph : s.chat.phase σ side = ph at hadv
      generalize s'.chat.phase σ side = ph' at hadv hw
      cases hadv with
      | tap =>
        have hno := (hs.tapped σ side).mp hph
        rw [after_concat_self hno, textView_step h, tapText_step h, if_pos rfl]
        exact ⟨fun x hx => (List.not_mem_nil hx).elim, rfl⟩
      | snapshot => exact waiting_keep hs h (by rw [hph]; trivial) (by simp) rfl
      | callback | store | reject | complete => exact hw.elim
  · intro σ side i hi
    rcases leg_step h σ side with ⟨heq, hm⟩ | ⟨ce, rfl, hadv⟩
    · rw [heq] at hi
      exact issued_keep hs h hi (fun he => hm _ he rfl)
    · generalize hph : s.chat.phase σ side = ph at hadv
      rw [hi] at hadv
      cases hadv with
      | callback snapshot key text =>
        obtain ⟨hnone, htext⟩ := hs.waiting σ side (by rw [hph]; trivial)
        have hmem : .chat (.tap σ) ∈ pre := by
          by_contra hno
          rw [(hs.tapped σ side).mpr hno] at hph
          cases hph
        have hself : Event.isCallback σ side (.chat (.callback σ side key text)) = true :=
          isCallback_iff.mpr ⟨key, text, rfl⟩
        have hbetween : between σ side (pre ++ [.chat (.callback σ side key text)]) =
            after (.chat (.tap σ)) pre := by
          rw [between, after_append_of_mem _ hmem, List.takeWhile_append_of_pos]
          · simp [hself]
          · intro x hx; rw [hnone x hx]; rfl
        rw [hbetween, tapText_step h, if_neg (by simp), ← htext, ← callback_text h,
          after_append_of_mem _ hmem]
        refine ⟨⟨_, List.mem_append_right _ (List.mem_singleton_self _), hself⟩, ?_⟩
        rw [issue]; split_ifs <;> rfl
      | store j kind now => rw [text_settle]; exact issued_keep hs h hph (by simp)
      | reject j kind => rw [text_settle]; exact issued_keep hs h hph (by simp)
      | complete j _ => exact issued_keep (i := j) hs h hph (by simp)

/-- A stored message shows what its leg has read. -/
theorem stores_step {pre : List Event} {s s' : State} {e : Event} (hs : Reading pre s)
    (h : step s e = some s') : StoresTapText s e s' ↔ Undisturbed pre s e := by
  cases e with
  | edit c v text => rfl
  | chat ce =>
    cases ce with
    | store σ side kind now =>
      cases kind with
      | header => rfl
      | message =>
        obtain ⟨w, s₁, hpop, hs₁⟩ := step_store.mp (chat_step h)
        obtain ⟨i, ws, hp, -, rfl, -, rfl⟩ := pop_wf hs.wf hpop
        have hread : asString ((s'.chat.db.get
            (messageRef (side.owner σ) (side.peer σ) i.key)).child "text") = some i.text := by
          rw [hs₁, writeOf, Node.get_set_self, asString_child_resolve]
          simp [messageObject]
        obtain ⟨-, htext⟩ := hs.issued σ side i hp
        have hiff : i.text = s.tapText σ ↔ ∀ text,
            lastChange σ.client σ.screen (between σ side pre) = some text →
              text = s.tapText σ := by
          rw [htext]
          cases lastChange σ.client σ.screen (between σ side pre) <;> simp
        simp only [Undisturbed, ← hiff, StoresTapText, hp, Phase.issued.injEq, forall_eq', hread,
          Option.some.injEq]
    | tap | snapshot | callback | reject | complete => rfl

/-- Along a run, every message is stored with the text its composer showed at the tap exactly when
    none is disturbed. -/
theorem stores_tap_text_iff (db : Value) (textView : ℕ → ℕ → String) (es : List Event) :
    Along step (fun _ => StoresTapText) (init db textView) es ↔
      Along step (fun pre s e _ => Undisturbed pre s e) (init db textView) es :=
  along_congr (I := Reading) (reading_init db textView) (fun _ _ _ _ hs h => stores_step hs h)
    (fun _ _ _ _ hs h _ => reading_step hs h)

omit [URLSyntax] in
/-- The completion of the receiver leg empties the composer before the sender leg reads it. -/
theorem sender_copy_empty : ¬ ∀ [URLSyntax] (db : Value) (textView : ℕ → ℕ → String)
    (es : List Event), Along step (fun _ => StoresTapText) (init db textView) es := by
  intro h
  let _ := nonEmptyURLs
  let σ : Send := ⟨0, 0, 0, ann, bob⟩
  let es : List Event := [.edit 0 0 "hi", .chat (.tap σ), .chat (.snapshot σ .receiver),
    .chat (.callback σ .receiver "-L1" "hi"), .chat (.store σ .receiver .header 1),
    .chat (.store σ .receiver .message 2), .chat (.complete σ .receiver),
    .chat (.snapshot σ .sender), .chat (.callback σ .sender "-L2" ""),
    .chat (.store σ .sender .header 3)]
  let e : Event := .chat (.store σ .sender .message 4)
  obtain ⟨s', hs', hp'⟩ := exists_of_run_any step (init .null fun _ _ => "") (es ++ [e])
    (fun s => asString ((s.chat.db.get (messageRef "A" "B" "-L2")).child "text") = some "")
    (by decide)
  obtain ⟨s, hs, hp⟩ := exists_of_run_any step (init .null fun _ _ => "") es
    (fun s => s.tapText σ = "hi" ∧
      s.chat.phase σ .sender = .issued ⟨true, "-L2", "", .stored, .pending, false⟩) (by decide)
  obtain ⟨m, hm, hstep⟩ := run_concat.mp hs'
  rw [hs] at hm; cases hm
  rw [decide_eq_true_iff] at hp hp'
  have htext := h .null (fun _ _ => "") _ es e [] rfl s s' hs hstep _ hp.2
  rw [hp.1] at htext
  exact absurd (hp'.symm.trans htext) (by decide)

end PostApp.Composer
