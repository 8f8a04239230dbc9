import Mathlib.Logic.Function.Basic
import PostApp.Schemes.Run

/-! The overlays of `HomeVC`.

    The post composer and the quick look share the effect view, and the side menu is opened by a swipe
    that the static flag `HomeVC.swipe` gates. Every handler sets the flag and the effect view without
    looking at the other overlays. `Represents` says which flags go with each overlay; touches keep to
    that, and the late handlers (the answer to a save, the end of the closing animation, a new
    `HomeVC`) do exactly when they find what they were started for (`coherent_iff`). -/

namespace PostApp.Overlays
open Schemes

inductive QuickLook where
  | closed
  | shown
  /-- `closeQuickView` animates it away -/
  | closing
  deriving DecidableEq

/-- The alpha of the effect view: 0, 1, or set to 0 inside a running animation. -/
inductive Effect where
  | hidden
  | shown
  | fading
  deriving DecidableEq

/-- One `HomeVC`. -/
structure Home where
  /-- text view, label and buttons of the composer have alpha 1 -/
  composer : Bool
  quickLook : QuickLook
  effect : Effect
  /-- `quickLookTapGesture.isEnabled` -/
  tapGesture : Bool
  /-- the view of a `SidebarMenu` lies over this one -/
  menu : Bool
  /-- saves whose answer is to come -/
  pending : ℕ
  /-- closing animations whose end is to come -/
  closings : ℕ
  deriving DecidableEq

/-- A `HomeVC` after `viewDidLoad`. -/
def Home.new : Home := ⟨false, .closed, .hidden, false, false, 0, 0⟩

/-! ### Handlers

    Each maps a `HomeVC` and the flag `HomeVC.swipe` to what it leaves of them. -/

def swipeRight (h : Home) (swipe : Bool) : Home × Bool :=
  if swipe then ({ h with menu := true }, false) else (h, swipe)

def plusButtonAction (h : Home) (_ : Bool) : Home × Bool :=
  ({ h with composer := true, effect := .shown }, false)

def savePost (hasProfile : Bool) (h : Home) (swipe : Bool) : Home × Bool :=
  (if hasProfile then { h with pending := h.pending + 1 } else h, swipe)

def canclePost (h : Home) (_ : Bool) : Home × Bool :=
  ({ h with composer := false, effect := .hidden }, true)

/-- The completion of `setValue` in `savePost`. -/
def completion (succeeded : Bool) (h : Home) (swipe : Bool) : Home × Bool :=
  let h := { h with pending := h.pending - 1 }
  if succeeded then canclePost h swipe else (h, swipe)

def longPressGestureRecognizer (onPost : Bool) (h : Home) (swipe : Bool) : Home × Bool :=
  if onPost then
    ({ h with quickLook := .shown, tapGesture := true, effect := .shown }, false)
  else
    (h, swipe)

def closeQuickView (h : Home) (swipe : Bool) : Home × Bool :=
  ({ h with
    quickLook := if h.quickLook = .closed then .closed else .closing
    effect := .fading
    closings := h.closings + 1 }, swipe)

/-- The completion of the animation in `closeQuickView`. -/
def quickViewClosed (h : Home) (_ : Bool) : Home × Bool :=
  ({ h with
    quickLook := .closed
    tapGesture := false
    effect := if h.effect = .fading ∧ h.closings = 1 then .hidden else h.effect
    closings := h.closings - 1 }, true)

/-- `SidebarMenu.hideMenu` and the assignment to the flag that follows each of its calls. -/
def hideMenu (h : Home) (_ : Bool) : Home × Bool := ({ h with menu := false }, true)

inductive Touch where
  | swipeRight
  | plusButtonAction
  | savePost (hasProfile : Bool)
  | canclePost
  | longPress (onPost : Bool)
  | closeQuickView
  | hideMenu

/-- Touches reach what neither the menu nor the effect view covers; Save, Cancel and the tap gesture
    belong to the effect view, and the edge swipe to the view under all of them. -/
def Touch.Reaches (h : Home) : Touch → Prop
  | .swipeRight => True
  | .plusButtonAction | .longPress _ => h.effect ≠ .shown ∧ h.menu = false
  | .savePost _ | .canclePost => h.effect = .shown ∧ h.composer = true ∧ h.menu = false
  | .closeQuickView => h.effect = .shown ∧ h.tapGesture = true ∧ h.menu = false
  | .hideMenu => h.menu = true

instance (h : Home) : ∀ t : Touch, Decidable (t.Reaches h)
  | .swipeRight => inferInstanceAs (Decidable True)
  | .plusButtonAction | .longPress _ => inferInstanceAs (Decidable (_ ∧ _))
  | .savePost _ | .canclePost | .closeQuickView => inferInstanceAs (Decidable (_ ∧ _ ∧ _))
  | .hideMenu => inferInstanceAs (Decidable (_ = _))

def Touch.handler : Touch → Home → Bool → Home × Bool
  | .swipeRight => Overlays.swipeRight
  | .plusButtonAction => Overlays.plusButtonAction
  | .savePost hasProfile => Overlays.savePost hasProfile
  | .canclePost => Overlays.canclePost
  | .longPress onPost => longPressGestureRecognizer onPost
  | .closeQuickView => Overlays.closeQuickView
  | .hideMenu => Overlays.hideMenu

/-! ### Runs -/

structure State where
  homes : ℕ → Home
  created : ℕ
  /-- the `HomeVC` on the screen, while a user is signed in -/
  current : Option ℕ
  /-- `HomeVC.swipe` -/
  swipe : Bool

inductive Event where
  /-- the auth state listener of `AppDelegate` shows a new `HomeVC`, or `MenuVC` -/
  | authState (signedIn : Bool)
  | touch (t : Touch)
  | completion (home : ℕ) (succeeded : Bool)
  | quickViewClosed (home : ℕ)

def init : State := ⟨fun _ => .new, 0, none, true⟩

/-- Run a handler on one `HomeVC`. -/
def State.handle (s : State) (n : ℕ) (handler : Home → Bool → Home × Bool) : State :=
  { s with
    homes := Function.update s.homes n (handler (s.homes n) s.swipe).1
    swipe := (handler (s.homes n) s.swipe).2 }

def step (s : State) : Event → Option State
  | .authState signedIn =>
    some (if signedIn then
      { s with
        homes := Function.update s.homes s.created .new
        created := s.created + 1
        current := some s.created }
    else
      { s with current := none })
  | .touch t => s.current.bind (fun n =>
    if t.Reaches (s.homes n) then some (s.handle n t.handler) else none)
  | .completion n succeeded =>
    if 0 < (s.homes n).pending then some (s.handle n (completion succeeded)) else none
  | .quickViewClosed n =>
    if 0 < (s.homes n).closings then some (s.handle n quickViewClosed) else none

/-! ### Specification -/

inductive Overlay where
  | composer
  | quickLook
  | menu
  deriving DecidableEq

/-- The quick look counts as open until its animation has removed it. -/
def Home.isOpen (h : Home) : Overlay → Bool
  | .composer => h.composer
  | .quickLook => h.quickLook ≠ .closed
  | .menu => h.menu

/-- The overlays that are open. -/
def Home.opened (h : Home) : List Overlay := [.composer, .quickLook, .menu].filter h.isOpen

theorem opened_eq (h : Home) : h.opened = (if h.composer = true then [.composer] else []) ++
    (if h.quickLook ≠ .closed then [.quickLook] else []) ++
    (if h.menu = true then [.menu] else []) := by
  by_cases hc : h.composer = true <;> by_cases hq : h.quickLook = .closed <;>
    by_cases hm : h.menu = true <;> simp [Home.opened, Home.isOpen, hc, hq, hm]

/-- At most one overlay is open, the flag is true exactly when none is, and the effect view is visible
    exactly when the composer or the quick look is open. -/
def Coherent (h : Home) (swipe : Bool) : Prop :=
  h.opened.length ≤ 1 ∧ (swipe = true ↔ h.opened = []) ∧
    (h.effect ≠ .hidden ↔ .composer ∈ h.opened ∨ .quickLook ∈ h.opened)

/-- What the user has in front of them; without a `HomeVC` no overlay is open. -/
def State.screen (s : State) : Home := (s.current.map s.homes).getD .new

/-- A late handler finds on the screen what it was started for, or nothing that it disturbs. -/
def Undisturbed (s : State) : Event → Prop
  | .authState _ => s.screen.opened = []
  | .touch .plusButtonAction => s.screen.quickLook ≠ .closing
  | .touch _ => True
  | .completion n succeeded => succeeded = true →
    if s.current = some n then s.screen.quickLook = .closed ∧ s.screen.menu = false
    else s.screen.opened = []
  | .quickViewClosed n =>
    if s.current = some n then s.screen.quickLook = .closing ∧ s.screen.closings = 1
    else s.screen.opened = []

/-! ### The overlay that is open -/

inductive Mode where
  | idle
  | composing
  | looking
  | closing
  | menu
  deriving DecidableEq

/-- The fields and the flag say that this overlay is open, and no other. -/
def Represents : Mode → Home → Bool → Prop
  | .idle, h, swipe => h.composer = false ∧ h.quickLook = .closed ∧ h.effect = .hidden ∧
    h.tapGesture = false ∧ h.menu = false ∧ h.closings = 0 ∧ swipe = true
  | .composing, h, swipe => h.composer = true ∧ h.quickLook = .closed ∧ h.effect = .shown ∧
    h.tapGesture = false ∧ h.menu = false ∧ h.closings = 0 ∧ swipe = false
  | .looking, h, swipe => h.composer = false ∧ h.quickLook = .shown ∧ h.effect = .shown ∧
    h.tapGesture = true ∧ h.menu = false ∧ swipe = false
  | .closing, h, swipe => h.composer = false ∧ h.quickLook = .closing ∧ h.effect = .fading ∧
    h.tapGesture = true ∧ h.menu = false ∧ 0 < h.closings ∧ swipe = false
  | .menu, h, swipe => h.composer = false ∧ h.quickLook = .closed ∧ h.effect = .hidden ∧
    h.tapGesture = false ∧ h.menu = true ∧ h.closings = 0 ∧ swipe = false

theorem coherent_of_represents {m : Mode} {h : Home} {swipe : Bool} (hm : Represents m h swipe) :
    Coherent h swipe := by
  cases m <;> simp only [Represents] at hm <;>
    simp [Coherent, opened_eq, hm]

/-- Nothing is open exactly in the idle mode. -/
theorem opened_eq_nil_iff {m : Mode} {h : Home} {swipe : Bool} (hm : Represents m h swipe) :
    h.opened = [] ↔ m = .idle := by
  cases m <;> simp only [Represents] at hm <;>
    simp [opened_eq, hm]

/-- What a touch leads to. -/
def Mode.next : Mode → Touch → Mode
  | .idle, .swipeRight => .menu
  | .idle, .plusButtonAction => .composing
  | .composing, .canclePost => .idle
  | .idle, .longPress true => .looking
  | .closing, .longPress true => .looking
  | .looking, .closeQuickView => .closing
  | .menu, .hideMenu => .idle
  | m, _ => m

/-- A touch that reaches its target moves from one overlay to the next, unless the plus button is
    tapped while the quick look closes. -/
theorem represents_touch {m : Mode} {h : Home} {swipe : Bool} {t : Touch}
    (hm : Represents m h swipe) (hr : t.Reaches h) (ht : m = .closing → t ≠ .plusButtonAction) :
    Represents (m.next t) (t.handler h swipe).1 (t.handler h swipe).2 := by
  cases t with
  | swipeRight =>
    cases m <;> simp only [Represents] at hm <;>
      simp [Mode.next, Touch.handler, swipeRight, Represents, hm]
  | plusButtonAction =>
    cases m <;> simp only [Represents] at hm <;> simp [Touch.Reaches, hm] at hr ht
    simp [Mode.next, Touch.handler, plusButtonAction, Represents, hm]
  | savePost hasProfile =>
    cases m <;> cases hasProfile <;> exact hm
  | canclePost =>
    cases m <;> simp only [Represents] at hm <;> simp [Touch.Reaches, hm] at hr
    simp [Mode.next, Touch.handler, canclePost, Represents, hm]
  | longPress onPost =>
    cases onPost with
    | false => cases m <;> exact hm
    | true =>
      cases m <;> simp only [Represents] at hm <;> simp [Touch.Reaches, hm] at hr <;>
        simp [Mode.next, Touch.handler, longPressGestureRecognizer, Represents, hm]
  | closeQuickView =>
    cases m <;> simp only [Represents] at hm <;> simp [Touch.Reaches, hm] at hr
    simp [Mode.next, Touch.handler, closeQuickView, Represents, hm]
  | hideMenu =>
    cases m <;> simp only [Represents] at hm <;> simp [Touch.Reaches, hm] at hr
    simp [Mode.next, Touch.handler, hideMenu, Represents, hm]

/-- The composer opens over the quick look. -/
theorem plus_while_closing {h : Home} {swipe : Bool} (hm : Represents .closing h swipe) :
    ¬ Coherent (plusButtonAction h swipe).1 (plusButtonAction h swipe).2 := by
  simp only [Represents] at hm
  simp [Coherent, plusButtonAction, opened_eq, hm]

/-- The answer to a save closes the composer, or finds it closed; over another overlay it sets the
    flag and hides the effect view. -/
theorem represents_completion {m : Mode} {h : Home} {swipe : Bool} (hm : Represents m h swipe) :
    (h.quickLook = .closed ∧ h.menu = false →
      Represents .idle (completion true h swipe).1 (completion true h swipe).2) ∧
    (¬ (h.quickLook = .closed ∧ h.menu = false) →
      ¬ Coherent (completion true h swipe).1 (completion true h swipe).2) := by
  cases m <;> simp only [Represents] at hm <;>
    simp [completion, canclePost, Coherent, Represents, opened_eq, hm]

/-- The end of the one closing animation closes the quick look; any other end removes a quick look that
    is shown again, or leaves the effect view to the animation that still runs. -/
theorem represents_closed {m : Mode} {h : Home} {swipe : Bool} (hm : Represents m h swipe)
    (hpos : 0 < h.closings) :
    (h.quickLook = .closing ∧ h.closings = 1 →
      Represents .idle (quickViewClosed h swipe).1 (quickViewClosed h swipe).2) ∧
    (¬ (h.quickLook = .closing ∧ h.closings = 1) →
      ¬ Coherent (quickViewClosed h swipe).1 (quickViewClosed h swipe).2) := by
  cases m with
  | looking => simp [quickViewClosed, Coherent, opened_eq, hm.1, hm.2.1, hm.2.2.1, hm.2.2.2.2.1]
  | closing =>
    obtain ⟨hcomposer, hquick, heffect, -, hmenu, -, -⟩ := hm
    constructor
    · rintro ⟨-, hone⟩
      simp [quickViewClosed, Represents, hcomposer, heffect, hmenu, hone]
    · intro hnot
      have hone : h.closings ≠ 1 := fun hone => hnot ⟨hquick, hone⟩
      simp [quickViewClosed, Coherent, opened_eq, hcomposer, heffect, hmenu, hone]
  | idle | composing | menu =>
    have hzero : h.closings = 0 := hm.2.2.2.2.2.1
    omega

/-- A handler of another `HomeVC` sets the flag and leaves the screen. -/
theorem outcome_flag {m : Mode} {h : Home} {swipe : Bool} (hm : Represents m h swipe) {u : Prop}
    (hu : u ↔ h.opened = []) :
    (u ∧ ∃ m', Represents m' h true) ∨ (¬ u ∧ ¬ Coherent h true) := by
  rw [hu]
  by_cases hnil : h.opened = []
  · obtain rfl := (opened_eq_nil_iff hm).mp hnil
    obtain rfl : swipe = true := hm.2.2.2.2.2.2
    exact Or.inl ⟨hnil, .idle, hm⟩
  · exact Or.inr ⟨hnil, fun hcoherent => hnil (hcoherent.2.1.mp rfl)⟩

theorem screen_handle (s : State) (n : ℕ) (handler : Home → Bool → Home × Bool) :
    (s.handle n handler).screen
      = if s.current = some n then (handler s.screen s.swipe).1 else s.screen := by
  simp only [State.screen, State.handle]
  cases s.current with
  | none => simp
  | some k =>
    by_cases hk : k = n
    · simp [hk]
    · simp [hk]

theorem screen_eq {s : State} {n : ℕ} (h : s.current = some n) : s.homes n = s.screen := by
  simp [State.screen, h]

/-- A late handler sets the flag. On the screen it may find what it was started for, and nothing is open
    afterwards; on another `HomeVC` it only leaves the flag. -/
theorem outcome_handle {m : Mode} {s : State} {n : ℕ} {handler : Home → Bool → Home × Bool}
    {u p : Prop} (hm : Represents m s.screen s.swipe) (hflag : ∀ h swipe, (handler h swipe).2 = true)
    (hu : u ↔ if s.current = some n then p else s.screen.opened = [])
    (hon : s.current = some n →
      (p → Represents .idle (handler s.screen s.swipe).1 (handler s.screen s.swipe).2) ∧
      (¬ p → ¬ Coherent (handler s.screen s.swipe).1 (handler s.screen s.swipe).2)) :
    (u ∧ ∃ m', Represents m' (s.handle n handler).screen (s.handle n handler).swipe) ∨
      (¬ u ∧ ¬ Coherent (s.handle n handler).screen (s.handle n handler).swipe) := by
  have hswipe : (s.handle n handler).swipe = true := hflag _ _
  rw [screen_handle, hswipe]
  by_cases hn : s.current = some n
  · obtain ⟨hown, hother⟩ := hon hn
    rw [hflag] at hown hother
    rw [if_pos hn] at hu ⊢
    rw [hu]
    by_cases hp : p
    · exact Or.inl ⟨hp, .idle, hown hp⟩
    · exact Or.inr ⟨hp, hother hp⟩
  · rw [if_neg hn] at hu ⊢
    exact outcome_flag hm hu

/-- An event finds what it was started for, and an overlay or none is open afterwards; or it does not,
    and the fields contradict each other. -/
theorem outcome_step {m : Mode} {s s' : State} {e : Event} (hm : Represents m s.screen s.swipe)
    (h : step s e = some s') :
    (Undisturbed s e ∧ ∃ m', Represents m' s'.screen s'.swipe) ∨
      (¬ Undisturbed s e ∧ ¬ Coherent s'.screen s'.swipe) := by
  cases e with
  | authState signedIn =>
    have hscreen : s'.screen = .new ∧ s'.swipe = s.swipe := by
      simp only [step] at h
      split_ifs at h <;> cases h <;> simp [State.screen]
    rw [hscreen.1, hscreen.2, Undisturbed, opened_eq_nil_iff hm]
    cases m <;> simp only [Represents] at hm <;>
      simp [Coherent, Represents, Home.new, opened_eq, hm]
    exact ⟨.idle, by simp⟩
  | touch t =>
    obtain ⟨n, hn, h⟩ := Option.bind_eq_some_iff.mp h
    split_ifs at h with hr
    cases h
    rw [screen_handle, if_pos hn]
    have hswipe : (s.handle n t.handler).swipe = (t.handler s.screen s.swipe).2 := by
      rw [← screen_eq hn]
      rfl
    rw [hswipe]
    rw [screen_eq hn] at hr
    by_cases hplus : m = .closing ∧ t = .plusButtonAction
    · obtain ⟨rfl, rfl⟩ := hplus
      exact Or.inr ⟨fun hu => hu hm.2.1, plus_while_closing hm⟩
    · refine Or.inl ⟨?_, m.next t, represents_touch hm hr (fun hc ht => hplus ⟨hc, ht⟩)⟩
      cases t with
      | plusButtonAction =>
        intro hc
        cases m <;> simp_all [Represents]
      | _ => exact trivial
  | completion n succeeded =>
    simp only [step] at h
    split_ifs at h
    cases h
    cases succeeded with
    | false =>
      refine Or.inl ⟨nofun, m, ?_⟩
      rw [screen_handle]
      split_ifs
      · cases m <;> exact hm
      · exact hm
    | true =>
      exact outcome_handle hm (fun _ _ => rfl) (imp_iff_right rfl)
        (fun _ => represents_completion hm)
  | quickViewClosed n =>
    simp only [step] at h
    split_ifs at h with hpos
    cases h
    refine outcome_handle hm (fun _ _ => rfl) Iff.rfl (fun hn => ?_)
    rw [screen_eq hn] at hpos
    exact represents_closed hm hpos

/-- In every state of a run at most one overlay is open, with the flag and the effect view to match,
    exactly when no late handler of the run disturbs an overlay it was not started for. -/
theorem coherent_iff (es : List Event) :
    Along step (fun _ _ _ s' => Coherent s'.screen s'.swipe) init es ↔
      Along step (fun _ s e _ => Undisturbed s e) init es := by
  refine along_congr (I := fun _ s => ∃ m, Represents m s.screen s.swipe)
    ⟨.idle, by simp [Represents, State.screen, init, Home.new]⟩ ?_ ?_
  · rintro _ s e s' ⟨m, hm⟩ h
    rcases outcome_step hm h with ⟨hu, m', hm'⟩ | ⟨hu, hnot⟩
    · exact iff_of_true (coherent_of_represents hm') hu
    · exact iff_of_false hnot hu
  · rintro _ s e s' ⟨m, hm⟩ h hcoherent
    rcases outcome_step hm h with ⟨-, hm'⟩ | ⟨-, hnot⟩
    · exact hm'
    · exact absurd hcoherent hnot

/-- Ann saves a post, cancels the composer and opens the menu; then the answer to the save sets the
    flag under the open menu. -/
theorem menu_with_swipe : ¬ ∀ es : List Event,
    Along step (fun _ _ _ s' => Coherent s'.screen s'.swipe) init es := by
  intro h
  let es : List Event := [.authState true, .touch .plusButtonAction, .touch (.savePost true),
    .touch .canclePost, .touch .swipeRight]
  let e : Event := .completion 0 true
  obtain ⟨s', hs', hp⟩ := exists_of_run_any step init (es ++ [e])
    (fun s => s.screen.opened = [.menu] ∧ s.swipe = true) (by decide)
  obtain ⟨s, hs, hstep⟩ := run_concat.mp hs'
  obtain ⟨hopened, hswipe⟩ := decide_eq_true_iff.mp hp
  obtain ⟨-, hflag, -⟩ := h (es ++ [e]) es e [] rfl s s' hs hstep
  rw [hopened] at hflag
  exact absurd (hflag.mp hswipe) (by decide)

end PostApp.Overlays
