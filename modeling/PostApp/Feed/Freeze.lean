import PostApp.Feed.Overlays
import PostApp.Schemes.Settle

/-! The way back from the overlays.

    Late handlers can leave the fields of `HomeVC` in contradiction, but most of these states are
    harmless: some touches, the ends of the animations under way or the answer to a save clear the
    screen again. One is not. When the quick look is opened again while it is still closing, the end of
    the animation removes it and disables its tap gesture, and the effect view stays, with nothing on it
    that could be tapped. The screen then stays frozen until the user signs out; in every other reachable
    state there is a way back (`freed_iff`). -/

namespace PostApp.Overlays
open Schemes

/-- The effect view covers everything, without composer or quick look, and no answer to a save is to
    come. -/
structure Home.Frozen (h : Home) : Prop where
  effect : h.effect = .shown
  composer : h.composer = false
  tapGesture : h.tapGesture = false
  pending : h.pending = 0

/-- No overlay is open, and the effect view is away. -/
structure Home.Clear (h : Home) : Prop where
  opened : h.opened = []
  effect : h.effect = .hidden

/-- The user stays signed in. -/
def Event.stays : Event → Prop
  | .authState _ => False
  | .touch _ | .completion _ _ | .quickViewClosed _ => True

/-- Without signing out or in, the screen can become clear. -/
def Freed (s : State) : Prop := CanReach step Event.stays (fun s => s.screen.Clear) s

/-- The effect view fades only while a closing animation runs. -/
def Fading (s : State) : Prop := ∀ n, (s.homes n).effect = .fading → 0 < (s.homes n).closings

/-! ### Handlers -/

section Handle
variable {s s' : State} {n : ℕ} {e : Event} {t : Touch}

@[simp] theorem handle_current (s : State) (n : ℕ) (handler : Home → Bool → Home × Bool) :
    (s.handle n handler).current = s.current := rfl

@[simp] theorem handle_homes (s : State) (n : ℕ) (handler : Home → Bool → Home × Bool) :
    (s.handle n handler).homes n = (handler (s.homes n) s.swipe).1 := Function.update_self ..

theorem handle_homes_of_ne {k : ℕ} (hk : k ≠ n) (handler : Home → Bool → Home × Bool) :
    (s.handle n handler).homes k = s.homes k := Function.update_of_ne hk ..

/-- The handlers of touches start the animation with the fading. -/
theorem fading_touch {h : Home} {swipe : Bool} (hf : h.effect = .fading → 0 < h.closings) :
    (t.handler h swipe).1.effect = .fading → 0 < (t.handler h swipe).1.closings := by
  cases t with
  | swipeRight =>
    simp only [Touch.handler, swipeRight]
    split_ifs <;> exact hf
  | plusButtonAction | canclePost => simp [Touch.handler, plusButtonAction, canclePost]
  | savePost hasProfile => cases hasProfile <;> exact hf
  | longPress onPost =>
    cases onPost with
    | false => exact hf
    | true => simp [Touch.handler, longPressGestureRecognizer]
  | closeQuickView => simp [Touch.handler, closeQuickView]
  | hideMenu => exact hf

theorem fading_step (hf : Fading s) (h : step s e = some s') : Fading s' := by
  -- a handler of one `HomeVC` leaves the others alone
  have hone : ∀ n (handler : Home → Bool → Home × Bool),
      ((handler (s.homes n) s.swipe).1.effect = .fading →
        0 < (handler (s.homes n) s.swipe).1.closings) → Fading (s.handle n handler) := by
    intro n handler hn k
    by_cases hk : k = n
    · rw [hk, handle_homes]
      exact hn
    · rw [handle_homes_of_ne hk]
      exact hf k
  cases e with
  | authState signedIn =>
    simp only [step] at h
    split_ifs at h
    · cases h
      intro k
      by_cases hk : k = s.created
      · simp [hk, Home.new]
      · simpa only [Function.update_of_ne hk] using hf k
    · cases h
      exact hf
  | touch t =>
    obtain ⟨n, -, h⟩ := Option.bind_eq_some_iff.mp h
    split_ifs at h
    cases h
    exact hone n t.handler (fading_touch (hf n))
  | completion n succeeded =>
    simp only [step] at h
    split_ifs at h
    cases h
    refine hone n _ ?_
    cases succeeded with
    | false => exact hf n
    | true => simp [completion, canclePost]
  | quickViewClosed n =>
    simp only [step] at h
    split_ifs at h with hpos
    cases h
    refine hone n _ ?_
    simp only [quickViewClosed]
    split_ifs with hlast
    · simp
    · intro hfading
      have hmore : (s.homes n).closings ≠ 1 := fun hone => hlast ⟨hfading, hone⟩
      omega

/-! ### A frozen screen -/

/-- Nothing but signing out or in changes a frozen screen. -/
theorem frozen_step (hf : s.screen.Frozen) (he : e.stays) (h : step s e = some s') :
    s'.screen.Frozen := by
  obtain ⟨heffect, hcomposer, htap, hpending⟩ := hf
  cases e with
  | authState signedIn => exact he.elim
  | touch t =>
    obtain ⟨n, hn, h⟩ := Option.bind_eq_some_iff.mp h
    split_ifs at h with hr
    cases h
    rw [screen_handle, if_pos hn]
    rw [screen_eq hn] at hr
    cases t with
    | swipeRight =>
      simp only [Touch.handler, swipeRight]
      split_ifs <;> exact ⟨heffect, hcomposer, htap, hpending⟩
    | hideMenu => exact ⟨heffect, hcomposer, htap, hpending⟩
    | plusButtonAction | longPress => exact absurd heffect hr.1
    | savePost | canclePost => simp [Touch.Reaches, hcomposer] at hr
    | closeQuickView => simp [Touch.Reaches, htap] at hr
  | completion n succeeded =>
    simp only [step] at h
    split_ifs at h with hpos
    cases h
    rw [screen_handle]
    split_ifs with hn
    · rw [screen_eq hn, hpending] at hpos
      exact absurd hpos (Nat.lt_irrefl 0)
    · exact ⟨heffect, hcomposer, htap, hpending⟩
  | quickViewClosed n =>
    simp only [step] at h
    split_ifs at h
    cases h
    rw [screen_handle]
    split_ifs
    · refine ⟨?_, hcomposer, rfl, hpending⟩
      simp [quickViewClosed, heffect]
    · exact ⟨heffect, hcomposer, htap, hpending⟩

theorem not_freed (hf : s.screen.Frozen) : ¬ Freed s := by
  refine not_canReach (I := fun s => s.screen.Frozen) hf (fun _ _ _ hs he h => frozen_step hs he h) ?_
  intro s hs hclear
  exact absurd (hs.effect.symm.trans hclear.effect) (by simp)

/-! ### The way back -/

theorem freed_of_clear (hn : s.current = some n) (h : (s.homes n).Clear) : Freed s := by
  rw [screen_eq hn] at h
  exact CanReach.now h

theorem freed_touch (t : Touch) (hn : s.current = some n) (hr : t.Reaches (s.homes n))
    (h : Freed (s.handle n t.handler)) : Freed s :=
  CanReach.cons h (e := .touch t) trivial (by simp [step, hn, hr])

theorem freed_completion (hpos : 0 < (s.homes n).pending)
    (h : Freed (s.handle n (completion true))) : Freed s :=
  CanReach.cons h (e := .completion n true) trivial (by simp [step, hpos])

theorem freed_closed (hpos : 0 < (s.homes n).closings)
    (h : Freed (s.handle n quickViewClosed)) : Freed s :=
  CanReach.cons h (e := .quickViewClosed n) trivial (by simp [step, hpos])

/-- At most the composer is open, without the effect view: the plus button brings it forward, and
    Cancel closes it. -/
theorem freed_of_hidden (hn : s.current = some n) (hmenu : (s.homes n).menu = false)
    (heffect : (s.homes n).effect = .hidden) (hquick : (s.homes n).quickLook = .closed) : Freed s := by
  cases hcomposer : (s.homes n).composer with
  | false =>
    refine freed_of_clear hn ⟨?_, heffect⟩
    simp [opened_eq, hcomposer, hquick, hmenu]
  | true =>
    refine freed_touch .plusButtonAction hn (by simp [Touch.Reaches, heffect, hmenu]) ?_
    refine freed_touch (n := n) .canclePost hn ?_ ?_
    · simp [Touch.Reaches, Touch.handler, plusButtonAction, hmenu]
    · refine freed_of_clear (n := n) hn ⟨?_, ?_⟩
      · simp [opened_eq, Touch.handler, plusButtonAction, canclePost, hquick, hmenu]
      · simp [Touch.handler, canclePost]

/-- The ends of the closing animations take the effect view and the quick look away. -/
theorem freed_of_fading (hn : s.current = some n) (hmenu : (s.homes n).menu = false)
    (heffect : (s.homes n).effect = .fading) (hpos : 0 < (s.homes n).closings) : Freed s := by
  generalize hk : (s.homes n).closings = k at hpos
  induction k generalizing s with
  | zero => exact absurd hpos (Nat.lt_irrefl 0)
  | succ k ih =>
    refine freed_closed (n := n) (by omega) ?_
    by_cases hlast : k = 0
    · refine freed_of_hidden (n := n) hn ?_ ?_ ?_
      · simpa [quickViewClosed] using hmenu
      · simp [quickViewClosed, heffect, hk, hlast]
      · simp [quickViewClosed]
    · refine ih hn ?_ ?_ ?_ (Nat.pos_of_ne_zero hlast)
      · simpa [quickViewClosed] using hmenu
      · simp [quickViewClosed, heffect, hk, hlast]
      · simp [quickViewClosed, hk]

/-- A tap on the quick look starts the closing animation. -/
theorem freed_of_tapGesture (hn : s.current = some n) (hmenu : (s.homes n).menu = false)
    (heffect : (s.homes n).effect = .shown) (htap : (s.homes n).tapGesture = true) : Freed s := by
  refine freed_touch .closeQuickView hn ⟨heffect, htap, hmenu⟩ ?_
  refine freed_of_fading (n := n) hn ?_ ?_ ?_
  · simpa [Touch.handler, closeQuickView] using hmenu
  · simp [Touch.handler, closeQuickView]
  · simp [Touch.handler, closeQuickView]

/-- A quick look without the effect view is brought forward by another long press. -/
theorem freed_of_uncovered (hn : s.current = some n) (hmenu : (s.homes n).menu = false)
    (heffect : (s.homes n).effect = .hidden) : Freed s := by
  by_cases hquick : (s.homes n).quickLook = .closed
  · exact freed_of_hidden hn hmenu heffect hquick
  · refine freed_touch (.longPress true) hn (by simp [Touch.Reaches, heffect, hmenu]) ?_
    refine freed_of_tapGesture (n := n) hn ?_ ?_ ?_
    · simpa [Touch.handler, longPressGestureRecognizer] using hmenu
    · simp [Touch.handler, longPressGestureRecognizer]
    · simp [Touch.handler, longPressGestureRecognizer]

/-- With the menu closed, some overlay can be closed unless the screen is frozen. -/
theorem freed_of_not_frozen (hs : Fading s) (hn : s.current = some n)
    (hmenu : (s.homes n).menu = false) (hf : ¬ (s.homes n).Frozen) : Freed s := by
  cases heffect : (s.homes n).effect with
  | hidden => exact freed_of_uncovered hn hmenu heffect
  | fading => exact freed_of_fading hn hmenu heffect (hs n heffect)
  | shown =>
    cases hcomposer : (s.homes n).composer with
    | true =>
      refine freed_touch .canclePost hn ⟨heffect, hcomposer, hmenu⟩ ?_
      refine freed_of_uncovered (n := n) hn ?_ ?_
      · simpa [Touch.handler, canclePost] using hmenu
      · simp [Touch.handler, canclePost]
    | false =>
      cases htap : (s.homes n).tapGesture with
      | true => exact freed_of_tapGesture hn hmenu heffect htap
      | false =>
        have hpos : 0 < (s.homes n).pending :=
          Nat.pos_of_ne_zero fun hzero => hf ⟨heffect, hcomposer, htap, hzero⟩
        refine freed_completion hpos ?_
        refine freed_of_uncovered (n := n) hn ?_ ?_
        · simpa [completion, canclePost] using hmenu
        · simp [completion, canclePost]

end Handle

/-- In every reachable state, contradictory fields or not: without signing out, the screen can become
    clear again exactly if it is not frozen. -/
theorem freed_iff (es : List Event) (s : State) (hr : run step init es = some s) :
    Freed s ↔ ¬ s.screen.Frozen := by
  have hs : Fading s :=
    run_invariant (fun _ h => (by cases h)) (fun _ _ _ hf h => fading_step hf h) hr
  refine ⟨fun h hf => not_freed hf h, ?_⟩
  intro hf
  cases hn : s.current with
  | none =>
    refine CanReach.now ⟨?_, ?_⟩
    · simp [State.screen, hn, opened_eq, Home.new]
    · simp [State.screen, hn, Home.new]
  | some n =>
    rw [← screen_eq hn] at hf
    cases hmenu : (s.homes n).menu with
    | false => exact freed_of_not_frozen hs hn hmenu hf
    | true =>
      refine freed_touch .hideMenu hn hmenu ?_
      have hs' : Fading (s.handle n hideMenu) :=
        fading_step (e := .touch .hideMenu) hs (by simp [step, hn, Touch.Reaches, hmenu]; rfl)
      refine freed_of_not_frozen (n := n) hs' hn ?_ ?_
      · simp [Touch.handler, hideMenu]
      · intro hfrozen
        rw [handle_homes] at hfrozen
        exact hf ⟨hfrozen.effect, hfrozen.composer, hfrozen.tapGesture, hfrozen.pending⟩

/-- The quick look is opened again while it closes: the end of the first animation freezes the screen. -/
theorem freed_iff_reopened : ∃ (es : List Event) (s : State), run step init es = some s ∧
    s.screen.opened = [] ∧ s.screen.Frozen ∧ ¬ Freed s := by
  let es : List Event := [.authState true, .touch (.longPress true), .touch .closeQuickView,
    .touch (.longPress true), .quickViewClosed 0]
  obtain ⟨s, hs, hp⟩ := exists_of_run_any step init es
    (fun s => s.screen.opened = [] ∧ s.screen.effect = .shown ∧ s.screen.composer = false ∧
      s.screen.tapGesture = false ∧ s.screen.pending = 0) (by decide)
  obtain ⟨hopened, heffect, hcomposer, htap, hpending⟩ := decide_eq_true_iff.mp hp
  have hfrozen : s.screen.Frozen := ⟨heffect, hcomposer, htap, hpending⟩
  exact ⟨es, s, hs, hopened, hfrozen, fun h => (freed_iff es s hs).mp h hfrozen⟩

end PostApp.Overlays
