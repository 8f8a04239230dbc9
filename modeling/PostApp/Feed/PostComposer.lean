import PostApp.Schemes.Cut
import PostApp.Schemes.Run

/-! The composer of a post on `HomeVC`.

    The text view is opened by the plus button, edited through
    `textView(_:shouldChangeTextIn:replacementText:)`, and closed by Cancel or by the answer to a save.
    Nothing ties the three together: the delegate counts the Characters of the text but the UTF-16
    units of the replaced range, `isEnabled` is set from that count, Save can be tapped again while a
    write is under way, and an answer closes and empties whatever the composer holds by then. Each of
    the three theorems below says in which runs that does no harm. -/

namespace PostApp.PostComposer
open Schemes

/-- A Swift `Character`: a cluster of one or more Unicode scalars. -/
structure Character where
  scalars : List Char
  nonempty : scalars ≠ []
  deriving DecidableEq

/-- A scalar outside the basic plane takes two UTF-16 units. -/
def scalarLength (c : Char) : ℕ := if c.val ≤ 0xFFFF then 1 else 2

def Character.utf16Length (c : Character) : ℕ := weight scalarLength c.scalars

abbrev Text := List Character

structure NSRange where
  location : ℕ
  length : ℕ
  deriving DecidableEq

/-- The text before, in and after the range; `none` if it does not lie on character boundaries. -/
def split (text : Text) (range : NSRange) : Option (Text × Text × Text) := do
  let (front, rest) ← cut Character.utf16Length text range.location
  let (removed, back) ← cut Character.utf16Length rest range.length
  return (front, removed, back)

def replaceCharacters (text : Text) (range : NSRange) (replacement : Text) : Option Text :=
  (split text range).map (fun (front, _, back) => front ++ replacement ++ back)

/-- A call of `setValue`, with what it sends. -/
structure Save where
  draft : ℕ
  text : Text
  deriving DecidableEq

structure State where
  /-- `textView.text` -/
  text : Text
  /-- a text that differs from the one before has a new number, and so has the one that follows an
      emptied text view -/
  draft : ℕ
  /-- text view, labels, buttons and effect view have alpha 1 -/
  shown : Bool
  /-- `savePost.isEnabled` -/
  isEnabled : Bool
  /-- the saves that the server has neither stored nor rejected -/
  pending : List Save
  /-- the server's answers whose completion has not run -/
  answers : List (Save × Bool)
  /-- the saves that the server has stored -/
  stored : List Save

inductive Event where
  | plusButtonAction
  /-- the user offers an edit to the delegate -/
  | edit (range : NSRange) (replacement : Text)
  | savePost (hasProfile : Bool)
  | canclePost
  /-- the server stores a post -/
  | store (save : Save)
  /-- the server refuses to -/
  | reject (save : Save)
  /-- the completion of `setValue` -/
  | completion (save : Save) (succeeded : Bool)
  deriving DecidableEq

def init (text : Text) : State := ⟨text, 0, false, false, [], [], []⟩

/-- `viewDidLoad` empties the text view and hides the composer. -/
def viewDidLoad : State := init []

/-- The count of the delegate: Characters of the text and of the replacement, UTF-16 units of the
    range. -/
def count (text : Text) (range : NSRange) (replacement : Text) : Int :=
  (text.length : Int) + ((replacement.length : Int) - range.length)

/-- `textView(_:shouldChangeTextIn:replacementText:)` -/
def shouldChangeTextIn (s : State) (range : NSRange) (replacement : Text) : State × Bool :=
  let count := count s.text range replacement
  let s := if count > 0 then { s with isEnabled := true } else { s with isEnabled := false }
  (s, count ≤ 500)

def State.canclePost (s : State) : State := { s with shown := false }

/-- The text view shows what an edit has left. -/
def State.setText (s : State) (text : Text) : State :=
  { s with text := text, draft := if text = s.text then s.draft else s.draft + 1 }

/-- Touches reach the plus button when the composer is hidden, and its own controls when it is
    shown. The server judges the saves in any order, and its answers arrive in any order after that. -/
def step (s : State) : Event → Option State
  | .plusButtonAction =>
    if s.shown = false then some { s with shown := true, isEnabled := false } else none
  | .edit range replacement =>
    if s.shown = true then do
      let text ← replaceCharacters s.text range replacement
      let (s, accepted) := shouldChangeTextIn s range replacement
      return if accepted then s.setText text else s
    else
      none
  | .savePost hasProfile =>
    if s.shown = true ∧ s.isEnabled = true then
      some (if hasProfile then { s with pending := s.pending ++ [⟨s.draft, s.text⟩] } else s)
    else
      none
  | .canclePost => if s.shown = true then some s.canclePost else none
  | .store save =>
    if save ∈ s.pending then
      some { s with
        pending := s.pending.erase save
        answers := s.answers ++ [(save, true)]
        stored := s.stored ++ [save] }
    else
      none
  | .reject save =>
    if save ∈ s.pending then
      some { s with pending := s.pending.erase save, answers := s.answers ++ [(save, false)] }
    else
      none
  | .completion save succeeded =>
    if (save, succeeded) ∈ s.answers then
      let s := { s with answers := s.answers.erase (save, succeeded) }
      some (if succeeded then { s.canclePost with text := [], draft := s.draft + 1 } else s)
    else
      none

/-! ### Characters and UTF-16 units -/

theorem scalarLength_pos (c : Char) : 0 < scalarLength c := by
  unfold scalarLength
  split_ifs
  · exact Nat.one_pos
  · exact Nat.two_pos

theorem utf16Length_pos (c : Character) : 0 < c.utf16Length := by
  have hlen := length_le_weight scalarLength_pos c.scalars
  have hpos := List.length_pos_of_ne_nil c.nonempty
  exact lt_of_lt_of_le hpos hlen

theorem split_sound {text front removed back : Text} {range : NSRange}
    (h : split text range = some (front, removed, back)) :
    text = front ++ removed ++ back ∧ weight Character.utf16Length removed = range.length := by
  simp only [split, Option.bind_eq_bind, Option.bind_eq_some_iff, Prod.exists] at h
  obtain ⟨front', rest, hfront, removed', back', hremoved, heq⟩ := h
  cases heq
  obtain ⟨rfl, -⟩ := cut_sound hfront
  obtain ⟨rfl, hlen⟩ := cut_sound hremoved
  exact ⟨(List.append_assoc _ _ _).symm, hlen⟩

/-- Every range on character boundaries is one that can be replaced. -/
theorem split_append (front removed back : Text) :
    split (front ++ removed ++ back)
        ⟨weight Character.utf16Length front, weight Character.utf16Length removed⟩
      = some (front, removed, back) := by
  rw [split, List.append_assoc, cut_complete utf16Length_pos]
  simp only [Option.bind_eq_bind, Option.bind_some]
  rw [cut_complete utf16Length_pos]
  rfl

/-- How many more UTF-16 units than Characters the range holds. -/
def surplus (text : Text) (range : NSRange) : ℕ :=
  match split text range with
  | some (_, removed, _) => range.length - removed.length
  | none => 0

/-- The delegate's count misses the length of the result by the surplus of the range. -/
theorem length_replaceCharacters {text replacement result : Text} {range : NSRange}
    (h : replaceCharacters text range replacement = some result) :
    (result.length : Int) = count text range replacement + surplus text range := by
  obtain ⟨⟨front, removed, back⟩, hsplit, hresult⟩ := Option.map_eq_some_iff.mp h
  obtain ⟨htext, hlen⟩ := split_sound hsplit
  have hle := length_le_weight utf16Length_pos removed
  rw [← hresult, surplus, hsplit, count, htext]
  simp only [List.length_append]
  omega

/-- The delegate sets `isEnabled` and answers, both from its count. -/
theorem shouldChangeTextIn_eq (s : State) (range : NSRange) (replacement : Text) :
    shouldChangeTextIn s range replacement
      = ({ s with isEnabled := decide (0 < count s.text range replacement) },
        decide (count s.text range replacement ≤ 500)) := by
  simp only [shouldChangeTextIn]
  split_ifs with h
  · simp [h]
  · simp [h]

@[simp] theorem State.setText_text (s : State) (text : Text) : (s.setText text).text = text := rfl

/-- What an edit does: it sets `isEnabled` from the count, and the text if the count allows. -/
theorem edit_step {s s' : State} {range : NSRange} {replacement : Text}
    (h : step s (.edit range replacement) = some s') :
    s.shown = true ∧ ∃ result, replaceCharacters s.text range replacement = some result ∧
      ((count s.text range replacement ≤ 500 ∧ s' = State.setText
          { s with isEnabled := decide (0 < count s.text range replacement) } result) ∨
        (500 < count s.text range replacement ∧
          s' = { s with isEnabled := decide (0 < count s.text range replacement) })) := by
  simp only [step, shouldChangeTextIn_eq] at h
  split_ifs at h with hshown hcount
  · obtain ⟨result, hresult, heq⟩ := Option.bind_eq_some_iff.mp h
    cases heq
    exact ⟨hshown, result, hresult, Or.inl ⟨of_decide_eq_true hcount, rfl⟩⟩
  · obtain ⟨result, hresult, heq⟩ := Option.bind_eq_some_iff.mp h
    cases heq
    have hcount : ¬ count s.text range replacement ≤ 500 := by simpa using hcount
    exact ⟨hshown, result, hresult, Or.inr ⟨not_le.mp hcount, rfl⟩⟩

/-! ### What the other events do -/

section Step
variable {s s' : State}

theorem plusButtonAction_step (h : step s .plusButtonAction = some s') :
    s' = { s with shown := true, isEnabled := false } := by
  simp only [step] at h
  split_ifs at h
  cases h
  rfl

theorem canclePost_step (h : step s .canclePost = some s') : s' = s.canclePost := by
  simp only [step] at h
  split_ifs at h
  cases h
  rfl

/-- A tap on Save only queues a write, if the profile is loaded. -/
theorem savePost_step {hasProfile : Bool} (h : step s (.savePost hasProfile) = some s') :
    (hasProfile = true ∧ s' = { s with pending := s.pending ++ [⟨s.draft, s.text⟩] }) ∨
      (hasProfile = false ∧ s' = s) := by
  simp only [step] at h
  split_ifs at h with _ hprofile
  · cases h
    exact Or.inl ⟨hprofile, rfl⟩
  · cases h
    exact Or.inr ⟨Bool.eq_false_of_not_eq_true hprofile, rfl⟩

theorem store_step {save : Save} (h : step s (.store save) = some s') :
    save ∈ s.pending ∧ s' = { s with
      pending := s.pending.erase save
      answers := s.answers ++ [(save, true)]
      stored := s.stored ++ [save] } := by
  simp only [step] at h
  split_ifs at h with hpending
  cases h
  exact ⟨hpending, rfl⟩

theorem reject_step {save : Save} (h : step s (.reject save) = some s') :
    s' = { s with pending := s.pending.erase save, answers := s.answers ++ [(save, false)] } := by
  simp only [step] at h
  split_ifs at h
  cases h
  rfl

/-- A completion that reports an error leaves the composer alone; one that reports success closes and
    empties it. -/
theorem completion_step {save : Save} {succeeded : Bool}
    (h : step s (.completion save succeeded) = some s') :
    (save, succeeded) ∈ s.answers ∧
      ((succeeded = false ∧ s' = { s with answers := s.answers.erase (save, succeeded) }) ∨
        (succeeded = true ∧ s' = { s.canclePost with
          answers := s.answers.erase (save, succeeded), text := [], draft := s.draft + 1 })) := by
  simp only [step] at h
  split_ifs at h with hanswer hsucceeded
  · cases h
    exact ⟨hanswer, Or.inr ⟨hsucceeded, rfl⟩⟩
  · cases h
    exact ⟨hanswer, Or.inl ⟨Bool.eq_false_of_not_eq_true hsucceeded, rfl⟩⟩

end Step

/-! ### The limit of 500 Characters -/

/-- A refused edit would have exceeded the limit. -/
def RefusesRightly (s : State) : Event → Prop
  | .edit range replacement => (shouldChangeTextIn s range replacement).2 = false →
    ∀ result ∈ replaceCharacters s.text range replacement, 500 < result.length
  | _ => True

def Bounded (s : State) (e : Event) (s' : State) : Prop :=
  s'.text.length ≤ 500 ∧ RefusesRightly s e

/-- An edit whose result would exceed the limit exceeds it by more than the surplus of its range. -/
def ExceedsClearly (s : State) : Event → Prop
  | .edit range replacement => ∀ result ∈ replaceCharacters s.text range replacement,
    500 < result.length → 500 + surplus s.text range < result.length
  | _ => True

theorem refuses_rightly (s : State) (e : Event) : RefusesRightly s e := by
  cases e with
  | edit range replacement =>
    intro hrefused result hresult
    have hlen := length_replaceCharacters hresult
    rw [shouldChangeTextIn_eq] at hrefused
    have hcount := of_decide_eq_false hrefused
    omega
  | _ => exact trivial

theorem bounded_step {s s' : State} {e : Event} (hs : s.text.length ≤ 500)
    (h : step s e = some s') : Bounded s e s' ↔ ExceedsClearly s e := by
  refine (and_iff_left (refuses_rightly s e)).trans ?_
  cases e with
  | edit range replacement =>
    obtain ⟨-, result, hresult, hs'⟩ := edit_step h
    have hlen := length_replaceCharacters hresult
    have hclear : ExceedsClearly s (.edit range replacement) ↔
        (500 < result.length → 500 + surplus s.text range < result.length) := by
      simp [ExceedsClearly, hresult]
    rw [hclear]
    rcases hs' with ⟨hcount, rfl⟩ | ⟨hcount, rfl⟩
    · rw [State.setText_text]
      omega
    · change s.text.length ≤ 500 ↔ _
      omega
  | plusButtonAction =>
    obtain rfl := plusButtonAction_step h
    exact iff_of_true hs trivial
  | canclePost =>
    obtain rfl := canclePost_step h
    exact iff_of_true hs trivial
  | savePost hasProfile =>
    rcases savePost_step h with ⟨-, rfl⟩ | ⟨-, rfl⟩
    · exact iff_of_true hs trivial
    · exact iff_of_true hs trivial
  | store save =>
    obtain ⟨-, rfl⟩ := store_step h
    exact iff_of_true hs trivial
  | reject save =>
    obtain rfl := reject_step h
    exact iff_of_true hs trivial
  | completion save succeeded =>
    rcases completion_step h with ⟨-, ⟨-, rfl⟩ | ⟨-, rfl⟩⟩
    · exact iff_of_true hs trivial
    · exact iff_of_true (Nat.zero_le 500) trivial

/-- A text that starts with at most 500 Characters keeps to that, and only edits that would exceed the
    limit are refused, exactly along the runs in which no edit exceeds it by the surplus of its range
    or less. -/
theorem bounded_iff (text : Text) (htext : text.length ≤ 500) (es : List Event) :
    Along step (fun _ s e s' => Bounded s e s') (init text) es ↔
      Along step (fun _ s e _ => ExceedsClearly s e) (init text) es :=
  along_congr (I := fun _ s => s.text.length ≤ 500) htext
    (fun _ _ _ _ hs h => bounded_step hs h) (fun _ _ _ _ _ _ hR => hR.1)

/-- A text of 500 emoji, of two UTF-16 units each: one of them is replaced by two letters. -/
theorem exceeds_limit : ¬ ∀ (text : Text) (es : List Event), text.length ≤ 500 →
    Along step (fun _ s e s' => Bounded s e s') (init text) es := by
  intro h
  let emoji : Character := ⟨['😀'], by decide⟩
  let a : Character := ⟨['a'], by decide⟩
  obtain ⟨rest, hrest⟩ : ∃ rest : Text, rest.length = 499 :=
    ⟨List.replicate 499 emoji, List.length_replicate⟩
  let text : Text := [] ++ [emoji] ++ rest
  let e : Event := .edit ⟨0, 2⟩ [a, a]
  let s : State := { init text with shown := true }
  have hlen : text.length = 500 := by simp [text, hrest]
  have hreplace : replaceCharacters text ⟨0, 2⟩ [a, a] = some ([] ++ [a, a] ++ rest) :=
    congrArg (Option.map _) (split_append [] [emoji] rest)
  obtain ⟨s', hs'⟩ : ∃ s', step s e = some s' := by simp [step, s, e, init, hreplace]
  obtain ⟨-, result, hresult, hedit⟩ := edit_step hs'
  cases hreplace.symm.trans hresult
  have hcount : count text ⟨0, 2⟩ [a, a] ≤ 500 := by simp [count, hlen]
  have htext : s'.text = [] ++ [a, a] ++ rest := by
    rw [(hedit.resolve_right (fun hnot => absurd hnot.1 (not_lt.mpr hcount))).2]
    rfl
  obtain ⟨hbound, -⟩ := h text [.plusButtonAction, e] hlen.le [.plusButtonAction] e [] rfl s s' rfl hs'
  simp [htext, hrest] at hbound

/-- Replacing one emoji by two letters in a short text. -/
theorem bounded_iff_emoji : ∃ (text : Text) (es : List Event), text.length ≤ 500 ∧ es.length = 2 ∧
    Along step (fun _ s e s' => Bounded s e s') (init text) es := by
  let emoji : Character := ⟨['😀'], by decide⟩
  let a : Character := ⟨['a'], by decide⟩
  let es : List Event := [.plusButtonAction, .edit ⟨0, 2⟩ [a, a]]
  refine ⟨[emoji], es, by decide, rfl, (bounded_iff [emoji] (by decide) es).mpr ?_⟩
  intro pre e post hes s s' hs _
  have hes : [.plusButtonAction, .edit ⟨0, 2⟩ [a, a]] = pre ++ e :: post := hes
  match pre, hes with
  | [], hes => cases hes; exact trivial
  | [_], hes =>
    cases hes
    cases hs
    intro result hresult hlong
    obtain rfl : [a, a] = result := Option.some.inj hresult
    exact absurd hlong (by decide)
  | _ :: _ :: pre, hes => simp at hes

/-! ### The Save button -/

/-- While the composer is shown, Save can be tapped exactly when there is a text. -/
def SaveReady (s : State) : Prop := s.shown = true → (s.isEnabled = true ↔ s.text ≠ [])

/-- The composer is opened without a text; an edit that is refused finds a text; one that is accepted
    and leaves a text leaves more Characters than the surplus of its range. -/
def KeepsReady (s : State) : Event → Prop
  | .plusButtonAction => s.text = []
  | .edit range replacement => ∀ result ∈ replaceCharacters s.text range replacement,
    if result.length ≤ 500 + surplus s.text range then
      result ≠ [] → surplus s.text range < result.length
    else
      s.text ≠ []
  | _ => True

theorem ready_edit {s s' : State} {range : NSRange} {replacement : Text}
    (h : step s (.edit range replacement) = some s') :
    SaveReady s' ↔ KeepsReady s (.edit range replacement) := by
  obtain ⟨hshown, result, hresult, hs'⟩ := edit_step h
  have hlen := length_replaceCharacters hresult
  have hkeeps : KeepsReady s (.edit range replacement) ↔
      if result.length ≤ 500 + surplus s.text range then
        result ≠ [] → surplus s.text range < result.length else s.text ≠ [] := by
    simp [KeepsReady, hresult]
  rw [hkeeps]
  rcases hs' with ⟨hcount, rfl⟩ | ⟨hcount, rfl⟩
  · have hready : SaveReady (State.setText
        { s with isEnabled := decide (0 < count s.text range replacement) } result) ↔
        (0 < count s.text range replacement ↔ result ≠ []) := by
      simp [SaveReady, State.setText, hshown]
    rw [hready, if_pos (by omega), ← List.length_pos_iff]
    omega
  · have hready : SaveReady { s with isEnabled := decide (0 < count s.text range replacement) } ↔
        (0 < count s.text range replacement ↔ s.text ≠ []) := by
      simp [SaveReady, hshown]
    rw [hready, if_neg (by omega)]
    exact iff_true_left (by omega)

theorem ready_step {s s' : State} {e : Event} (hs : SaveReady s) (h : step s e = some s') :
    SaveReady s' ↔ KeepsReady s e := by
  cases e with
  | edit range replacement => exact ready_edit h
  | plusButtonAction =>
    obtain rfl := plusButtonAction_step h
    simp [SaveReady, KeepsReady]
  | savePost hasProfile =>
    rcases savePost_step h with ⟨-, rfl⟩ | ⟨-, rfl⟩
    · exact iff_of_true hs trivial
    · exact iff_of_true hs trivial
  | canclePost =>
    obtain rfl := canclePost_step h
    exact iff_of_true nofun trivial
  | store save =>
    obtain ⟨-, rfl⟩ := store_step h
    exact iff_of_true hs trivial
  | reject save =>
    obtain rfl := reject_step h
    exact iff_of_true hs trivial
  | completion save succeeded =>
    rcases completion_step h with ⟨-, ⟨-, rfl⟩ | ⟨-, rfl⟩⟩
    · exact iff_of_true hs trivial
    · exact iff_of_true nofun trivial

/-- Save can be tapped exactly when there is a text, in every state of a run, exactly when every
    opening and every edit of the run allows it. -/
theorem save_ready_iff (es : List Event) :
    Along step (fun _ _ _ s' => SaveReady s') viewDidLoad es ↔
      Along step (fun _ s e _ => KeepsReady s e) viewDidLoad es :=
  along_congr (I := fun _ s => SaveReady s) nofun
    (fun _ _ _ _ hs h => ready_step hs h) (fun _ _ _ _ _ _ hs' => hs')

/-- Ann types, cancels and opens the composer again: the text is there, and Save is not enabled. -/
theorem reopened_not_ready : ¬ ∀ es : List Event,
    Along step (fun _ _ _ s' => SaveReady s') viewDidLoad es := by
  intro h
  let a : Character := ⟨['a'], by decide⟩
  let es : List Event := [.plusButtonAction, .edit ⟨0, 0⟩ [a], .canclePost]
  let e : Event := .plusButtonAction
  obtain ⟨s', hs', hp⟩ := exists_of_run_any step viewDidLoad (es ++ [e])
    (fun s => s.shown = true ∧ s.isEnabled = false ∧ s.text ≠ []) (by decide)
  obtain ⟨s, hs, hstep⟩ := run_concat.mp hs'
  obtain ⟨hshown, hdisabled, htext⟩ := decide_eq_true_iff.mp hp
  have henabled := (h (es ++ [e]) es e [] rfl s s' hs hstep hshown).mpr htext
  rw [hdisabled] at henabled
  cases henabled

/-! ### Drafts -/

/-- A completion leaves a draft alone that was typed after the save. -/
def Spares (s : State) (e : Event) (s' : State) : Prop :=
  ∀ save succeeded, e = .completion save succeeded → save.draft < s.draft → s.text ≠ [] →
    s'.text = s.text ∧ s'.shown = s.shown

/-- No draft is stored twice, and no completion clears or closes a later one. -/
def KeepsDrafts (s : State) (e : Event) (s' : State) : Prop :=
  (s'.stored.map Save.draft).Nodup ∧ Spares s e s'

/-- What happens without the user: the server judges a save, or its answer arrives. -/
def Event.IsAnswer : Event → Prop
  | .store _ | .reject _ | .completion _ _ => True
  | _ => False

/-- Drafts are kept from here on, whatever becomes of the saves under way. -/
def KeepsOn (s : State) : Prop :=
  ∀ es : List Event, (∀ e ∈ es, e.IsAnswer) → Along step (fun _ s e s' => KeepsDrafts s e s') s es

/-- The saves whose completion may still report success. -/
def State.inFlight (s : State) : List Save :=
  s.pending ++ (s.answers.filter Prod.snd).map Prod.fst

/-- Save is tapped for a draft of which no save is waiting or stored, and another text is typed while
    no completion can still empty the text view. -/
def Careful (s : State) : Event → Prop
  | .savePost true => ∀ save ∈ s.pending ++ s.stored, save.draft ≠ s.draft
  | .edit range replacement => ∀ result ∈ replaceCharacters s.text range replacement,
    count s.text range replacement ≤ 500 → result ≠ s.text → result ≠ [] → s.inFlight = []
  | _ => True

theorem mem_inFlight {s : State} {save : Save} :
    save ∈ s.inFlight ↔ save ∈ s.pending ∨ (save, true) ∈ s.answers := by
  simp [State.inFlight]

section Guarded
variable {s s' : State} {e : Event}

/-- Only a tap on Save adds to the saves in flight, and it sends what the text view holds. -/
theorem inFlight_step {save : Save} (h : step s e = some s') (hsave : save ∈ s'.inFlight) :
    save ∈ s.inFlight ∨ save = ⟨s.draft, s.text⟩ := by
  rw [mem_inFlight] at hsave ⊢
  cases e with
  | plusButtonAction =>
    obtain rfl := plusButtonAction_step h
    exact Or.inl hsave
  | edit range replacement =>
    obtain ⟨-, _, -, ⟨-, rfl⟩ | ⟨-, rfl⟩⟩ := edit_step h
    · exact Or.inl hsave
    · exact Or.inl hsave
  | savePost hasProfile =>
    rcases savePost_step h with ⟨-, rfl⟩ | ⟨-, rfl⟩
    · simp only [List.mem_append, List.mem_singleton] at hsave
      rwa [or_right_comm] at hsave
    · exact Or.inl hsave
  | canclePost =>
    obtain rfl := canclePost_step h
    exact Or.inl hsave
  | store other =>
    obtain ⟨hpending, rfl⟩ := store_step h
    refine Or.inl ?_
    rcases hsave with hsave | hsave
    · exact Or.inl (List.mem_of_mem_erase hsave)
    · rcases List.mem_append.mp hsave with hsave | hsave
      · exact Or.inr hsave
      · cases List.mem_singleton.mp hsave
        exact Or.inl hpending
  | reject other =>
    obtain rfl := reject_step h
    exact Or.inl (hsave.imp List.mem_of_mem_erase (by simp))
  | completion other succeeded =>
    rcases completion_step h with ⟨-, ⟨-, rfl⟩ | ⟨-, rfl⟩⟩
    · exact Or.inl (hsave.imp_right List.mem_of_mem_erase)
    · exact Or.inl (hsave.imp_right List.mem_of_mem_erase)

/-- Of every draft at most one save is waiting or stored, and as long as a completion can empty the
    text view, there is nothing in it but the draft of that save. -/
structure Guarded (s : State) : Prop where
  once : ((s.pending ++ s.stored).map Save.draft).Nodup
  own : ∀ save ∈ s.inFlight, s.text = [] ∨ save.draft = s.draft

theorem once_step (hs : ((s.pending ++ s.stored).map Save.draft).Nodup) (h : step s e = some s')
    (he : Careful s e) : ((s'.pending ++ s'.stored).map Save.draft).Nodup := by
  cases e with
  | plusButtonAction =>
    obtain rfl := plusButtonAction_step h
    exact hs
  | edit range replacement =>
    obtain ⟨-, _, -, ⟨-, rfl⟩ | ⟨-, rfl⟩⟩ := edit_step h
    · exact hs
    · exact hs
  | savePost hasProfile =>
    rcases savePost_step h with ⟨rfl, rfl⟩ | ⟨-, rfl⟩
    · have hnew : ∀ save ∈ s.pending ++ s.stored, save.draft ≠ s.draft := he
      have hperm : (s.pending ++ [Save.mk s.draft s.text] ++ s.stored).Perm
          (Save.mk s.draft s.text :: (s.pending ++ s.stored)) :=
        (List.perm_append_singleton ..).append_right s.stored
      refine (hperm.map Save.draft).nodup_iff.mpr (List.nodup_cons.mpr ⟨?_, hs⟩)
      intro hmem
      obtain ⟨save, hsave, hdraft⟩ := List.mem_map.mp hmem
      exact hnew save hsave hdraft
    · exact hs
  | canclePost =>
    obtain rfl := canclePost_step h
    exact hs
  | store save =>
    -- the save goes from one list to the other
    obtain ⟨hpending, rfl⟩ := store_step h
    have hmove : (s.pending.erase save ++ s.stored ++ [save]).Perm
        (save :: (s.pending.erase save ++ s.stored)) := List.perm_append_singleton ..
    have hperm : (s.pending.erase save ++ (s.stored ++ [save])).Perm (s.pending ++ s.stored) := by
      rw [← List.append_assoc]
      exact hmove.trans ((List.perm_cons_erase hpending).symm.append_right s.stored)
    exact (hperm.map Save.draft).nodup_iff.mpr hs
  | reject save =>
    obtain rfl := reject_step h
    exact hs.sublist (((List.erase_sublist (l := s.pending)).append_right s.stored).map Save.draft)
  | completion save succeeded =>
    rcases completion_step h with ⟨-, ⟨-, rfl⟩ | ⟨-, rfl⟩⟩
    · exact hs
    · exact hs

theorem own_step (hs : ∀ save ∈ s.inFlight, s.text = [] ∨ save.draft = s.draft)
    (h : step s e = some s') (he : Careful s e) :
    ∀ save ∈ s'.inFlight, s'.text = [] ∨ save.draft = s'.draft := by
  have hsame : ∀ save ∈ s'.inFlight, s.text = [] ∨ save.draft = s.draft := by
    intro save hsave
    rcases inFlight_step h hsave with hsave | rfl
    · exact hs save hsave
    · exact Or.inr rfl
  intro save hsave
  cases e with
  | plusButtonAction =>
    obtain rfl := plusButtonAction_step h
    exact hsame save hsave
  | edit range replacement =>
    obtain ⟨-, result, hresult, ⟨hcount, rfl⟩ | ⟨-, rfl⟩⟩ := edit_step h
    · rcases eq_or_ne result s.text with rfl | hne
      · simpa [State.setText] using hsame save hsave
      · rcases eq_or_ne result [] with hnil | hnil
        · exact Or.inl hnil
        · -- another text is typed: no save is in flight
          have hnone : s.inFlight = [] := he result hresult hcount hne hnil
          have hmem : save ∈ s.inFlight := hsave
          rw [hnone] at hmem
          exact absurd hmem List.not_mem_nil
    · exact hsame save hsave
  | savePost hasProfile =>
    rcases savePost_step h with ⟨-, rfl⟩ | ⟨-, rfl⟩
    · exact hsame save hsave
    · exact hsame save hsave
  | canclePost =>
    obtain rfl := canclePost_step h
    exact hsame save hsave
  | store other =>
    obtain ⟨-, rfl⟩ := store_step h
    exact hsame save hsave
  | reject other =>
    obtain rfl := reject_step h
    exact hsame save hsave
  | completion other succeeded =>
    rcases completion_step h with ⟨-, ⟨-, rfl⟩ | ⟨-, rfl⟩⟩
    · exact hsame save hsave
    · exact Or.inl rfl

theorem guarded_step (hs : Guarded s) (h : step s e = some s') (he : Careful s e) : Guarded s' :=
  ⟨once_step hs.once h he, own_step hs.own h he⟩

/-- Only a completion with success touches the composer, and it finds its own draft there. -/
theorem Guarded.keeps (hs : Guarded s) (hs' : Guarded s') (h : step s e = some s') :
    KeepsDrafts s e s' := by
  constructor
  · exact hs'.once.sublist ((List.sublist_append_right s'.pending s'.stored).map Save.draft)
  · rintro save succeeded rfl hlt htext
    rcases completion_step h with ⟨hanswer, ⟨-, rfl⟩ | ⟨rfl, rfl⟩⟩
    · exact ⟨rfl, rfl⟩
    · rcases hs.own save (mem_inFlight.mpr (Or.inr hanswer)) with hnil | hdraft
      · exact absurd hnil htext
      · exact absurd hlt (by omega)

theorem careful_of_isAnswer (he : e.IsAnswer) : Careful s e := by
  cases e with
  | store | reject | completion => exact trivial
  | plusButtonAction | edit | savePost | canclePost => exact absurd he id

/-- The server alone keeps the drafts. -/
theorem Guarded.keepsOn (hs : Guarded s) : KeepsOn s := by
  intro es hes
  have hcareful : Along step (fun _ s e _ => Careful s e) s es := by
    rintro pre e post rfl _ _ - -
    exact careful_of_isAnswer (hes e (by simp))
  intro pre e post hsplit m m' hm hm'
  have hguarded : Guarded m := along_history (I := fun _ s => Guarded s) hs
    (fun _ _ _ _ hs h he => guarded_step hs h he) hcareful pre (e :: post) hsplit m hm
  exact hguarded.keeps (guarded_step hguarded hm' (hcareful pre e post hsplit m m' hm hm')) hm'

/-! ### The loss of a draft -/

/-- No save in flight is of a later draft than the one in the text view. -/
def Dated (s : State) : Prop := ∀ save ∈ s.inFlight, save.draft ≤ s.draft

theorem draft_step (h : step s e = some s') : s.draft ≤ s'.draft := by
  cases e with
  | plusButtonAction =>
    obtain rfl := plusButtonAction_step h
    exact le_rfl
  | edit range replacement =>
    obtain ⟨-, _, -, ⟨-, rfl⟩ | ⟨-, rfl⟩⟩ := edit_step h
    · simp only [State.setText]
      split_ifs
      · exact le_rfl
      · exact Nat.le_succ _
    · exact le_rfl
  | savePost hasProfile =>
    rcases savePost_step h with ⟨-, rfl⟩ | ⟨-, rfl⟩
    · exact le_rfl
    · exact le_rfl
  | canclePost =>
    obtain rfl := canclePost_step h
    exact le_rfl
  | store other =>
    obtain ⟨-, rfl⟩ := store_step h
    exact le_rfl
  | reject other =>
    obtain rfl := reject_step h
    exact le_rfl
  | completion other succeeded =>
    rcases completion_step h with ⟨-, ⟨-, rfl⟩ | ⟨-, rfl⟩⟩
    · exact le_rfl
    · exact Nat.le_succ _

theorem dated_step (hs : Dated s) (h : step s e = some s') : Dated s' := by
  intro save hsave
  refine le_trans ?_ (draft_step h)
  rcases inFlight_step h hsave with hsave | rfl
  · exact hs save hsave
  · exact le_rfl

theorem KeepsOn.answered (hs : KeepsOn s) (h : step s e = some s') (he : e.IsAnswer) :
    KeepsDrafts s e s' ∧ KeepsOn s' := by
  constructor
  · exact hs [e] (List.forall_mem_singleton.mpr he) [] e [] rfl s s' rfl h
  · intro es hes pre e' post hsplit m m' hm hm'
    refine hs (e :: es) (List.forall_mem_cons.mpr ⟨he, hes⟩) (e :: pre) e' post ?_ m m' ?_ hm'
    · rw [hsplit]
      rfl
    · rw [run, h]
      exact hm

/-- The server may store every save that is waiting, answered or not. -/
theorem KeepsOn.stored_ne {save other : Save} (hs : KeepsOn s) (hsave : save ∈ s.pending)
    (hother : other ∈ s.stored) : other.draft ≠ save.draft := by
  obtain ⟨s', hs'⟩ : ∃ s', step s (.store save) = some s' := ⟨_, if_pos hsave⟩
  obtain ⟨⟨honce, -⟩, -⟩ := hs.answered hs' trivial
  obtain ⟨-, rfl⟩ := store_step hs'
  rw [List.map_append, List.nodup_append] at honce
  exact honce.2.2 _ (List.mem_map_of_mem hother) _ (List.mem_singleton_self _)

theorem KeepsOn.tapped_ne {save other : Save}
    (hs : KeepsOn { s with pending := s.pending ++ [save] }) (hother : other ∈ s.pending ++ s.stored) :
    other.draft ≠ save.draft := by
  rcases List.mem_append.mp hother with hother | hother
  · -- the other save is stored first
    obtain ⟨s', hs'⟩ : ∃ s', step { s with pending := s.pending ++ [save] }
        (.store other) = some s' := ⟨_, if_pos (List.mem_append_left [save] hother)⟩
    obtain ⟨-, hkeeps⟩ := hs.answered hs' trivial
    obtain ⟨-, rfl⟩ := store_step hs'
    refine hkeeps.stored_ne ?_ (List.mem_append_right s.stored (List.mem_singleton_self other))
    change save ∈ (s.pending ++ [save]).erase other
    rw [List.erase_append_left _ hother]
    exact List.mem_append_right _ (List.mem_singleton_self save)
  · exact hs.stored_ne (List.mem_append_right s.pending (List.mem_singleton_self save)) hother

/-- The answer to a save of an older draft would empty the text view. -/
theorem KeepsOn.text_eq_nil {save : Save} (hs : KeepsOn s) (hsave : save ∈ s.inFlight)
    (hlt : save.draft < s.draft) : s.text = [] := by
  by_contra htext
  have hlost : ∀ m : State, KeepsOn m → m.text = s.text → m.draft = s.draft →
      (save, true) ∉ m.answers := by
    intro m hm hmtext hmdraft hanswer
    obtain ⟨m', hm'⟩ : ∃ m', step m (.completion save true) = some m' :=
      ⟨_, if_pos hanswer⟩
    obtain ⟨⟨-, hspares⟩, -⟩ := hm.answered hm' trivial
    rw [← hmtext] at htext
    rw [← hmdraft] at hlt
    obtain ⟨hkept, -⟩ := hspares save true rfl hlt htext
    rcases completion_step hm' with ⟨-, ⟨hfalse, -⟩ | ⟨-, rfl⟩⟩
    · cases hfalse
    · exact htext hkept.symm
  rcases mem_inFlight.mp hsave with hpending | hanswer
  · obtain ⟨m, hm⟩ : ∃ m, step s (.store save) = some m := ⟨_, if_pos hpending⟩
    obtain ⟨-, hkeeps⟩ := hs.answered hm trivial
    obtain ⟨-, rfl⟩ := store_step hm
    exact hlost _ hkeeps rfl rfl (List.mem_append_right s.answers (List.mem_singleton_self _))
  · exact hlost s hs rfl rfl hanswer

theorem careful_of_keepsOn (hs : Dated s) (h : step s e = some s') (hkeeps : KeepsOn s') :
    Careful s e := by
  cases e with
  | savePost hasProfile =>
    rcases savePost_step h with ⟨rfl, rfl⟩ | ⟨rfl, -⟩
    · intro save hsave
      exact hkeeps.tapped_ne hsave
    · exact trivial
  | edit range replacement =>
    intro result hresult hcount hne hnil
    obtain ⟨-, result', hresult', hs'⟩ := edit_step h
    cases hresult.symm.trans hresult'
    obtain ⟨-, rfl⟩ := hs'.resolve_right (fun hnot => absurd hnot.1 (not_lt.mpr hcount))
    refine List.eq_nil_iff_forall_not_mem.mpr (fun save hsave => hnil ?_)
    have hlt : save.draft < (s.setText result).draft := by
      simp only [State.setText, if_neg hne]
      exact Nat.lt_succ_of_le (hs save hsave)
    exact hkeeps.text_eq_nil hsave hlt
  | plusButtonAction | canclePost | store | reject | completion => exact trivial

end Guarded

/-- Along a run every draft is stored at most once and no completion clears or closes a draft typed
    after its save, then and whatever the server does with the saves under way, exactly when the user
    is careful at every step. -/
theorem drafts_kept_iff (es : List Event) :
    Along step (fun _ s e s' => KeepsDrafts s e s' ∧ KeepsOn s') viewDidLoad es ↔
      Along step (fun _ s e _ => Careful s e) viewDidLoad es := by
  have hiff : ∀ s e s', Guarded s ∧ Dated s → step s e = some s' →
      (KeepsDrafts s e s' ∧ KeepsOn s' ↔ Careful s e) := by
    rintro s e s' ⟨hguarded, hdated⟩ h
    constructor
    · rintro ⟨-, hkeeps⟩
      exact careful_of_keepsOn hdated h hkeeps
    · intro he
      have hguarded' := guarded_step hguarded h he
      exact ⟨hguarded.keeps hguarded' h, hguarded'.keepsOn⟩
  refine along_congr (I := fun _ s => Guarded s ∧ Dated s) ?_ (fun _ => hiff) ?_
  · refine ⟨⟨List.nodup_nil, ?_⟩, ?_⟩
    · intro _ h
      exact absurd h List.not_mem_nil
    · intro _ h
      exact absurd h List.not_mem_nil
  · intro _ s e s' hs h hR
    exact ⟨guarded_step hs.1 h ((hiff s e s' hs h).mp hR), dated_step hs.2 h⟩

/-- Ann taps Save twice before the first answer arrives, and has one text posted twice; or she writes
    the next text meanwhile, and the answer removes it. -/
theorem draft_lost_or_stored_twice :
    (¬ ∀ es : List Event, Along step (fun _ _ _ s' => (s'.stored.map Save.draft).Nodup)
      viewDidLoad es) ∧
    ¬ ∀ es : List Event, Along step (fun _ s e s' => Spares s e s') viewDidLoad es := by
  let a : Character := ⟨['a'], by decide⟩
  let save : Save := ⟨1, [a]⟩
  constructor
  · intro h
    let es : List Event := [.plusButtonAction, .edit ⟨0, 0⟩ [a], .savePost true, .savePost true,
      .store save]
    let e : Event := .store save
    obtain ⟨s', hs', hp⟩ := exists_of_run_any step viewDidLoad (es ++ [e])
      (fun s => s.stored.map Save.draft = [1, 1]) (by decide)
    obtain ⟨s, hs, hstep⟩ := run_concat.mp hs'
    have honce : (s'.stored.map Save.draft).Nodup := h (es ++ [e]) es e [] rfl s s' hs hstep
    rw [decide_eq_true_iff.mp hp] at honce
    exact absurd honce (by decide)
  · intro h
    let es : List Event := [.plusButtonAction, .edit ⟨0, 0⟩ [a], .savePost true, .store save,
      .edit ⟨1, 0⟩ [a]]
    let e : Event := .completion save true
    obtain ⟨s, hs, hp⟩ := exists_of_run_any step viewDidLoad es
      (fun s => s.draft = 2 ∧ s.text = [a, a] ∧ (step s e).map State.text = some []) (by decide)
    obtain ⟨hdraft, htext, hstep⟩ := decide_eq_true_iff.mp hp
    obtain ⟨s', hs', hnone⟩ := Option.map_eq_some_iff.mp hstep
    have hspares := h (es ++ [e]) es e [] rfl s s' hs hs' save true rfl (by rw [hdraft]; decide)
      (by rw [htext]; decide)
    rw [hnone, htext] at hspares
    exact absurd hspares.1 (by decide)

end PostApp.PostComposer
