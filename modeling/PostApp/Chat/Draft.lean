import PostApp.Chat.Composer

/-! What the completions of a send take from the composer.

    `sendButton` empties the text view in every completion, whether the message was stored or not and
    whatever the text view holds by then; `HomeVC.savePost` empties its text view only without an
    error. A draft is safe exactly when each completion either finds nothing to remove or comes before
    the user types again and before a write of its send has failed (`keeps_draft_iff`). -/

namespace PostApp.Composer
open Schemes Chat
variable [URLSyntax]

/-- A leg of the send has stored this text. -/
def HasStored (s : State) (σ : Send) (text : String) : Prop :=
  ∃ side i, s.chat.phase σ side = .issued i ∧ i.message = .stored ∧ i.text = text

/-- A message write of the send has failed. -/
def HasFailed (s : State) (σ : Send) : Prop :=
  ∃ side i, s.chat.phase σ side = .issued i ∧ i.message = .failed

/-- The user has not typed on the send's screen since the tap. -/
def Untyped (pre : List Event) (σ : Send) : Prop :=
  ∀ text, .edit σ.client σ.screen text ∉ after (.chat (.tap σ)) pre

/-- Since the tap the user has typed, or a completion of another send has emptied the text view. -/
def ChangedByOthers (pre : List Event) (σ : Send) : Prop :=
  ∃ e ∈ after (.chat (.tap σ)) pre, e.leaves σ.client σ.screen ≠ none ∧
    ∀ side, e ≠ .chat (.complete σ side)

/-- A completion removes only text that its send has stored and that was not typed after the tap; and
    the text of a send with a failed write stays. -/
def KeepsDraft (pre : List Event) (s : State) (e : Event) (s' : State) : Prop :=
  match e with
  | .chat (.complete σ _) =>
    (s'.textView σ.client σ.screen = s.textView σ.client σ.screen ∨
      HasStored s σ (s.textView σ.client σ.screen) ∧ Untyped pre σ ∧ ¬ HasFailed s σ) ∧
    (HasFailed s σ → ¬ ChangedByOthers pre σ → s'.textView σ.client σ.screen = s.tapText σ)
  | _ => True

/-- A completion finds an empty text view, or nothing typed since the tap and no write failed; and if
    one has failed, there was no text at the tap or something else has replaced it. -/
def TakesOwn (pre : List Event) (s : State) (e : Event) : Prop :=
  match e with
  | .chat (.complete σ _) =>
    (s.textView σ.client σ.screen = "" ∨ Untyped pre σ ∧ ¬ HasFailed s σ) ∧
    (HasFailed s σ → s.tapText σ = "" ∨ ChangedByOthers pre σ)
  | _ => True

/-- What the text views hold since the tap of each send. -/
structure Viewing (pre : List Event) (s : State) : Prop where
  reading : Reading pre s
  view : ∀ σ side, s.chat.phase σ side ≠ .idle → s.textView σ.client σ.screen =
    (lastChange σ.client σ.screen (after (.chat (.tap σ)) pre)).getD (s.tapText σ)

/-- Only the user leaves a text. -/
theorem edit_of_leaves {e : Event} {client screen : ℕ} {text : String}
    (h : e.leaves client screen = some text) : e = .edit client screen text ∨ text = "" := by
  cases e with
  | edit c v t =>
    simp only [Event.leaves] at h
    split_ifs at h with heq
    obtain ⟨rfl, rfl⟩ := heq
    cases h
    exact Or.inl rfl
  | chat ce =>
    cases ce with
    | complete σ side =>
      simp only [Event.leaves] at h
      split_ifs at h
      cases h
      exact Or.inr rfl
    | tap | snapshot | callback | store | reject => cases h

theorem viewing_step {pre : List Event} {s s' : State} {e : Event} (hs : Viewing pre s)
    (h : step s e = some s') : Viewing (pre ++ [e]) s' := by
  refine ⟨reading_step hs.reading h, ?_⟩
  intro σ side hp
  have htap := mt ((reading_step hs.reading h).tapped σ side).mpr hp
  rw [not_not, List.mem_append, List.mem_singleton] at htap
  rw [textView_step h, tapText_step h]
  by_cases hmem : .chat (.tap σ) ∈ pre
  · have hold : s.chat.phase σ side ≠ .idle := mt (hs.reading.tapped σ side).mp (not_not.mpr hmem)
    have hne : e ≠ .chat (.tap σ) := by
      rintro rfl
      rcases leg_step h σ side with ⟨-, hm⟩ | ⟨ce, hce, hadv⟩
      · exact hm _ rfl rfl
      · cases hce
        generalize s.chat.phase σ side = ph at hadv hold
        generalize s'.chat.phase σ side = ph' at hadv
        cases hadv
        exact hold rfl
    rw [after_append_of_mem [e] hmem, lastChange_concat, if_neg hne, hs.view σ side hold, getD_or]
  · obtain rfl := htap.resolve_left hmem
    rw [after_concat_self hmem, if_pos rfl]
    rfl

/-- While the user does not type, a text that is in the text view is the one of the tap, and each leg
    that has run its callback has read it. -/
theorem text_of_untyped {pre : List Event} {s : State} {σ : Send} {side : Side} {i : Issued}
    (hs : Viewing pre s) (hi : s.chat.phase σ side = .issued i) (huntyped : Untyped pre σ)
    (hne : s.textView σ.client σ.screen ≠ "") : i.text = s.textView σ.client σ.screen := by
  have hview := hs.view σ side (by rw [hi]; simp)
  obtain ⟨-, htext⟩ := hs.reading.issued σ side i hi
  -- all changes since the tap are completions, which leave nothing
  have hempty : ∀ t ∈ (after (.chat (.tap σ)) pre).filterMap (Event.leaves σ.client σ.screen),
      t = "" := by
    intro t ht
    obtain ⟨e, he, hleaves⟩ := List.mem_filterMap.mp ht
    rcases edit_of_leaves hleaves with rfl | rfl
    · exact absurd he (huntyped t)
    · rfl
  have hnil : (after (.chat (.tap σ)) pre).filterMap (Event.leaves σ.client σ.screen) = [] := by
    by_contra hsome
    obtain ⟨t, ht⟩ := Option.isSome_iff_exists.mp (List.getLast?_isSome.mpr hsome)
    rw [lastChange, ht, Option.getD_some, hempty t (List.mem_of_mem_getLast? ht)] at hview
    exact hne hview
  have hbetween : (between σ side pre).filterMap (Event.leaves σ.client σ.screen) = [] := by
    rw [List.filterMap_eq_nil_iff] at hnil ⊢
    exact fun e he => hnil e ((List.takeWhile_prefix _).subset he)
  rw [htext, hview, lastChange, lastChange, hnil, hbetween]

theorem keeps_step {pre : List Event} {s s' : State} {e : Event} (hs : Viewing pre s)
    (h : step s e = some s') : KeepsDraft pre s e s' ↔ TakesOwn pre s e := by
  cases e with
  | edit c v text => rfl
  | chat ce =>
    cases ce with
    | tap | snapshot | callback | store | reject => rfl
    | complete σ side =>
      have hempty : s'.textView σ.client σ.screen = "" := by
        rw [textView_step h]
        simp [Event.leaves]
      obtain ⟨i, hi, hdone, -⟩ := step_complete.mp (chat_step h)
      simp only [KeepsDraft, TakesOwn, hempty]
      refine and_congr ?_ ?_
      · rw [eq_comm]
        refine or_congr_right' fun hne => and_iff_right_of_imp ?_
        rintro ⟨huntyped, hnot⟩
        refine ⟨side, i, hi, ?_, text_of_untyped hs hi huntyped hne⟩
        exact hdone.resolve_right (fun hfailed => hnot ⟨side, i, hi, hfailed⟩)
      · refine imp_congr_right fun _ => ?_
        rw [eq_comm, or_comm, or_iff_not_imp_left]

/-- Along a run no completion takes a draft that its send has not stored, and no failed send loses its
    text, exactly when every completion runs before the user types again and no message write fails,
    or finds nothing to remove. -/
theorem keeps_draft_iff (db : Value) (textView : ℕ → ℕ → String) (es : List Event) :
    Along step KeepsDraft (init db textView) es ↔
      Along step (fun pre s e _ => TakesOwn pre s e) (init db textView) es :=
  along_congr (I := Viewing) ⟨reading_init db textView, fun _ _ h => absurd rfl h⟩
    (fun _ _ _ _ hs h => keeps_step hs h) (fun _ _ _ _ hs h _ => viewing_step hs h)

omit [URLSyntax] in
/-- The user types on while the message is on its way; and a message that is rejected takes its text
    with it. -/
theorem draft_removed :
    (¬ ∀ [URLSyntax] (db : Value) (textView : ℕ → ℕ → String) (es : List Event),
      Along step KeepsDraft (init db textView) es) ∧
    ∃ (_ : URLSyntax) (db : Value) (es : List Event) (σ : Send) (s s' : State),
      run step (init db fun _ _ => "") es = some s ∧ Untyped es σ ∧ HasFailed s σ ∧
      s.textView σ.client σ.screen = "hi" ∧ step s (.chat (.complete σ .receiver)) = some s' ∧
      s'.textView σ.client σ.screen = "" := by
  let _ := nonEmptyURLs
  let σ : Send := ⟨0, 0, 0, ann, bob⟩
  let e : Event := .chat (.complete σ .receiver)
  constructor
  · intro h
    let es : List Event := [.edit 0 0 "hi", .chat (.tap σ), .chat (.snapshot σ .receiver),
      .chat (.callback σ .receiver "-L1" "hi"), .chat (.store σ .receiver .header 1),
      .chat (.store σ .receiver .message 2), .edit 0 0 "and you"]
    obtain ⟨s, hs, hp⟩ := exists_of_run_any step (init .null fun _ _ => "") es
      (fun s => s.textView 0 0 = "and you" ∧
        (step s e).map (fun s => s.textView 0 0) = some "") (by decide)
    obtain ⟨htext, hstep⟩ := decide_eq_true_iff.mp hp
    obtain ⟨s', hs', hempty⟩ := Option.map_eq_some_iff.mp hstep
    obtain ⟨hkept, -⟩ := h .null (fun _ _ => "") (es ++ [e]) es e [] rfl s s' hs hs'
    rcases hkept with hsame | ⟨-, huntyped, -⟩
    · rw [show s'.textView σ.client σ.screen = "" from hempty,
        show s.textView σ.client σ.screen = "and you" from htext] at hsame
      exact absurd hsame (by decide)
    · exact huntyped "and you" (by decide)
  · let es : List Event := [.edit 0 0 "hi", .chat (.tap σ), .chat (.snapshot σ .receiver),
      .chat (.callback σ .receiver "-L1" "hi"), .chat (.store σ .receiver .header 1),
      .chat (.reject σ .receiver .message)]
    obtain ⟨s, hs, hp⟩ := exists_of_run_any step (init .null fun _ _ => "") es
      (fun s => s.textView 0 0 = "hi" ∧
        s.chat.phase σ .receiver = .issued ⟨true, "-L1", "hi", .stored, .failed, false⟩ ∧
        (step s e).map (fun s => s.textView 0 0) = some "") (by decide)
    obtain ⟨htext, hphase, hstep⟩ := decide_eq_true_iff.mp hp
    obtain ⟨s', hs', hempty⟩ := Option.map_eq_some_iff.mp hstep
    refine ⟨nonEmptyURLs, .null, es, σ, s, s', hs, ?_, ⟨.receiver, _, hphase, rfl⟩, htext, hs', hempty⟩
    intro text hmem
    simp [es, after, σ] at hmem

end PostApp.Composer
