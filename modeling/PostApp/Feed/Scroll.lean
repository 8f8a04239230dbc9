import PostApp.Feed.Invariant
import PostApp.Schemes.Run

/-! The rows the feed scrolls to.

    `scrollPostsToLastOne` asks for more than one post before it scrolls. The completion of `savePost`
    takes `posts.count - 1` as it is, at the moment the answer arrives: by then the post may have been
    deleted again, or no value event has come yet, and the array is empty. All rows exist exactly when
    the value event before each such completion brought a post (`rows_exist_iff`). -/

namespace PostApp.Feed
open Schemes
variable [URLSyntax]

/-- The row lies in `0 ..< posts.count`. -/
def RowExists (r : Int × ℕ) : Prop := 0 ≤ r.1 ∧ r.1 < r.2

/-- Every row that a `HomeVC` has passed to `scrollToRow` existed. -/
def RowsExist (s : State) : Prop := ∀ k, ∀ vc ∈ (s.client k).homes, ∀ r ∈ vc.scrolled, RowExists r

/-- The value event that the run has delivered last to `HomeVC` number `n` of device `k` carried `v`. -/
def LastEvent (db₀ : Value) (es : List Event) (k n : ℕ) (v : Value) : Prop :=
  ∃ past later m vc ℓ, es = past ++ .device k (.home n .valueEvent) :: later ∧
    run step (init db₀) past = some m ∧ (m.client k).homes[n]? = some vc ∧
    vc.listener.fire = some (v, ℓ) ∧ Event.device k (.home n .valueEvent) ∉ later

/-- Some child of the `posts` node is a post. -/
def HoldsPost (v : Value) : Prop := ∃ key post, postOf ⟨postsRef ++ [key], v.child key⟩ = some post

/-- If a completion of `savePost` is to report success, the value event that its `HomeVC` got last held
    a post. -/
def FindsPost (db₀ : Value) (es : List Event) (s : State) : Event → Prop
  | .device k (.home n .completion) => ∀ vc, (s.client k).homes[n]? = some vc →
    vc.completions.head? = some true → ∃ v, LastEvent db₀ es k n v ∧ HoldsPost v
  | _ => True

section
omit [URLSyntax]

theorem rowExists_last {n : ℕ} : RowExists ((n : Int) - 1, n) ↔ n ≠ 0 := by
  unfold RowExists
  omega

end

theorem rowExists_scrollPostsToLastOne {posts : List Post} {r : Int × ℕ}
    (hr : r ∈ scrollPostsToLastOne posts) : RowExists r := by
  simp only [scrollPostsToLastOne] at hr
  split_ifs at hr with hpos hlast hlast
  · rw [List.mem_singleton.mp hr]
    unfold RowExists
    omega
  · exact (List.not_mem_nil hr).elim
  · exact absurd hlast (lt_irrefl 0)
  · exact (List.not_mem_nil hr).elim

theorem holdsPost_iff {v : Value} : HoldsPost v ↔ observePosts ⟨postsRef, v⟩ ≠ [] := by
  constructor
  · rintro ⟨key, post, hpost⟩
    exact List.ne_nil_of_mem (mem_observePosts.mpr ⟨key, hpost⟩)
  · intro hne
    obtain ⟨post, hpost⟩ := List.exists_mem_of_ne_nil _ hne
    obtain ⟨key, hkey⟩ := mem_observePosts.mp hpost
    exact ⟨key, post, hkey⟩

/-! ### The value event before -/

section Events
variable {db₀ : Value} {es : List Event} {s s' : State} {e : Event} {k n : ℕ} {v : Value}

/-- Each value event is the last one until the next. -/
theorem lastEvent_concat : LastEvent db₀ (es ++ [e]) k n v ↔
    (e ≠ .device k (.home n .valueEvent) ∧ LastEvent db₀ es k n v) ∨
    (e = .device k (.home n .valueEvent) ∧ ∃ m vc ℓ, run step (init db₀) es = some m ∧
      (m.client k).homes[n]? = some vc ∧ vc.listener.fire = some (v, ℓ)) := by
  constructor
  · rintro ⟨past, later, m, vc, ℓ, hes, hm, hvc, hf, hlater⟩
    rcases List.eq_nil_or_concat later with rfl | ⟨later, e', rfl⟩
    · obtain ⟨rfl, he⟩ := List.append_inj' hes rfl
      cases he
      exact Or.inr ⟨rfl, m, vc, ℓ, hm, hvc, hf⟩
    · rw [List.concat_eq_append, ← List.cons_append, ← List.append_assoc] at hes
      obtain ⟨rfl, he⟩ := List.append_inj' hes rfl
      cases he
      rw [List.concat_eq_append, List.mem_append, List.mem_singleton] at hlater
      obtain ⟨hlater, hne⟩ := not_or.mp hlater
      exact Or.inl ⟨Ne.symm hne, past, later, m, vc, ℓ, rfl, hm, hvc, hf, hlater⟩
  · rintro (⟨hne, past, later, m, vc, ℓ, rfl, hm, hvc, hf, hlater⟩ | ⟨rfl, m, vc, ℓ, hm, hvc, hf⟩)
    · refine ⟨past, later ++ [e], m, vc, ℓ, by simp, hm, hvc, hf, ?_⟩
      rw [List.mem_append, List.mem_singleton]
      exact not_or.mpr ⟨hlater, Ne.symm hne⟩
    · exact ⟨es, [], m, vc, ℓ, rfl, hm, hvc, hf, List.not_mem_nil⟩

/-- The arrays of all devices are those of the value events delivered last. -/
structure Filled (db₀ : Value) (es : List Event) (s : State) : Prop where
  run : run step (init db₀) es = some s
  shown : ∀ k n v, LastEvent db₀ es k n v →
    ∃ vc, (s.client k).homes[n]? = some vc ∧ vc.posts = observePosts ⟨postsRef, v⟩
  event : ∀ k n vc, (s.client k).homes[n]? = some vc → vc.posts ≠ [] →
    ∃ v, LastEvent db₀ es k n v

/-- No `HomeVC` goes away. -/
theorem home_persists (h : step s e = some s') {vc : HomeVC} (hvc : (s.client k).homes[n]? = some vc) :
    ∃ vc', (s'.client k).homes[n]? = some vc' := by
  have hlt := (List.getElem?_eq_some_iff.mp hvc).1
  have hlen := homes_step h k
  exact ⟨_, List.getElem?_eq_getElem (by omega)⟩

/-- Nothing but a value event fills the array. -/
theorem posts_own {currentUser : Option String} {vc vc' : HomeVC} {a : AtHome}
    (h : vc.step currentUser a = some vc') (ha : a ≠ .valueEvent) : vc'.posts = vc.posts := by
  cases a with
  | edit text =>
    cases h
    rfl
  | valueEvent => exact absurd rfl ha
  | editActions row =>
    obtain ⟨_, -, rfl⟩ := home_editActions h
    rfl
  | completion =>
    obtain ⟨_, _, -, ⟨-, rfl⟩ | ⟨-, rfl⟩⟩ := home_completion h
    · rfl
    · rfl

theorem posts_turn {c c' : Client} {vc' : HomeVC} (h : Turn k n c c' e vc')
    (he : e ≠ .device k (.home n .valueEvent)) :
    (c.homes[n]? = none ∧ vc'.posts = []) ∨
      ∃ vc, c.homes[n]? = some vc ∧ vc'.posts = vc.posts := by
  cases h with
  | load hnone => exact Or.inl ⟨hnone, rfl⟩
  | own hvc hstep =>
    refine Or.inr ⟨_, hvc, posts_own hstep ?_⟩
    rintro rfl
    exact he rfl
  | told _ hvc => exact Or.inr ⟨_, hvc, rfl⟩
  | answered _ hvc => exact Or.inr ⟨_, hvc, rfl⟩

theorem filled_step (hs : Filled db₀ es s) (h : step s e = some s') : Filled db₀ (es ++ [e]) s' := by
  refine ⟨run_concat.mpr ⟨s, hs.run, h⟩, ?_, ?_⟩
  · intro k n v hv
    rcases lastEvent_concat.mp hv with ⟨he, hv⟩ | ⟨rfl, m, vc, ℓ, hm, hvc, hf⟩
    · obtain ⟨vc, hvc, hposts⟩ := hs.shown k n v hv
      obtain ⟨vc', hvc'⟩ := home_persists h hvc
      refine ⟨vc', hvc', ?_⟩
      rcases posts_turn (turn_step h hvc') he with ⟨hnone, -⟩ | ⟨vc₁, hvc₁, hsame⟩
      · rw [hvc] at hnone
        cases hnone
      · cases hvc.symm.trans hvc₁
        exact hsame.trans hposts
    · cases hs.run.symm.trans hm
      obtain ⟨vc₁, vc', hvc₁, hstep, hvc'⟩ := step_home h
      cases hvc.symm.trans hvc₁
      obtain ⟨w, ℓ', hf', rfl⟩ := home_valueEvent hstep
      cases hf.symm.trans hf'
      exact ⟨_, hvc', rfl⟩
  · intro k n vc' hvc' hposts
    by_cases he : e = .device k (.home n .valueEvent)
    · subst he
      obtain ⟨vc, _, hvc, hstep, -⟩ := step_home h
      obtain ⟨v, ℓ, hf, -⟩ := home_valueEvent hstep
      exact ⟨v, lastEvent_concat.mpr (Or.inr ⟨rfl, s, vc, ℓ, hs.run, hvc, hf⟩)⟩
    · rcases posts_turn (turn_step h hvc') he with ⟨-, hnil⟩ | ⟨vc, hvc, hsame⟩
      · exact absurd hnil hposts
      · rw [hsame] at hposts
        obtain ⟨v, hv⟩ := hs.event k n vc hvc hposts
        exact ⟨v, lastEvent_concat.mpr (Or.inl ⟨he, hv⟩)⟩

theorem filled_init (db : Value) : Filled db [] (init db) where
  run := rfl
  shown := by
    rintro k n v ⟨past, later, _, _, _, hes, -⟩
    exact absurd hes (by simp)
  event := fun _ _ _ h => (by cases h)

/-- The array has a post exactly when the value event delivered last held one. -/
theorem Filled.posts_iff (hs : Filled db₀ es s) {vc : HomeVC} (hvc : (s.client k).homes[n]? = some vc) :
    vc.posts ≠ [] ↔ ∃ v, LastEvent db₀ es k n v ∧ HoldsPost v := by
  constructor
  · intro hposts
    obtain ⟨v, hv⟩ := hs.event k n vc hvc hposts
    obtain ⟨vc₁, hvc₁, hshown⟩ := hs.shown k n v hv
    cases hvc.symm.trans hvc₁
    rw [hshown] at hposts
    exact ⟨v, hv, holdsPost_iff.mpr hposts⟩
  · rintro ⟨v, hv, hpost⟩
    obtain ⟨vc₁, hvc₁, hshown⟩ := hs.shown k n v hv
    cases hvc.symm.trans hvc₁
    rw [hshown]
    exact holdsPost_iff.mp hpost

/-! ### The rows -/

/-- A `HomeVC` whose rows existed keeps to that by its own step exactly when a completion that reports
    success finds a post in the array. -/
theorem rows_own {currentUser : Option String} {vc vc' : HomeVC} {a : AtHome}
    (hrows : ∀ r ∈ vc.scrolled, RowExists r) (h : vc.step currentUser a = some vc') :
    (∀ r ∈ vc'.scrolled, RowExists r) ↔
      (a = .completion → vc.completions.head? = some true → vc.posts ≠ []) := by
  cases a with
  | edit text =>
    cases h
    exact iff_of_true hrows (by simp)
  | valueEvent =>
    obtain ⟨_, _, -, rfl⟩ := home_valueEvent h
    refine iff_of_true ?_ (by simp)
    intro r hr
    rcases List.mem_append.mp hr with hr | hr
    · exact hrows r hr
    · exact rowExists_scrollPostsToLastOne hr
  | editActions row =>
    obtain ⟨_, -, rfl⟩ := home_editActions h
    exact iff_of_true hrows (by simp)
  | completion =>
    obtain ⟨ok, rest, hcomp, ⟨rfl, rfl⟩ | ⟨rfl, rfl⟩⟩ := home_completion h
    · have hlast : (∀ r ∈ vc.scrolled ++ [((vc.posts.length : Int) - 1, vc.posts.length)],
          RowExists r) ↔ RowExists ((vc.posts.length : Int) - 1, vc.posts.length) := by
        rw [List.forall_mem_append, List.forall_mem_singleton]
        exact and_iff_right hrows
      refine hlast.trans (rowExists_last.trans ?_)
      simp [hcomp]
    · exact iff_of_true hrows (by simp [hcomp])

/-- Only its own steps let a `HomeVC` scroll. -/
theorem scrolled_turn {c c' : Client} {vc' : HomeVC} (h : Turn k n c c' e vc')
    (he : ∀ a, e ≠ .device k (.home n a)) :
    vc'.scrolled = [] ∨ ∃ vc ∈ c.homes, vc'.scrolled = vc.scrolled := by
  cases h with
  | load => exact Or.inl rfl
  | @own a => exact absurd rfl (he a)
  | told _ hvc => exact Or.inr ⟨_, List.mem_of_getElem? hvc, rfl⟩
  | answered _ hvc => exact Or.inr ⟨_, List.mem_of_getElem? hvc, rfl⟩

theorem rows_step (hf : Filled db₀ es s) (hs : RowsExist s) (h : step s e = some s') :
    RowsExist s' ↔ FindsPost db₀ es s e := by
  have hothers : ∀ k n vc', (s'.client k).homes[n]? = some vc' → (∀ a, e ≠ .device k (.home n a)) →
      ∀ r ∈ vc'.scrolled, RowExists r := by
    intro k n vc' hvc' he r hr
    rcases scrolled_turn (turn_step h hvc') he with hnil | ⟨vc, hvc, hsame⟩
    · rw [hnil] at hr
      exact absurd hr List.not_mem_nil
    · rw [hsame] at hr
      exact hs k vc hvc r hr
  by_cases he : ∃ k n a, e = .device k (.home n a)
  · obtain ⟨k, n, a, rfl⟩ := he
    obtain ⟨vc, vc', hvc, hstep, hvc'⟩ := step_home h
    -- only this one may have scrolled
    have hown : RowsExist s' ↔ ∀ r ∈ vc'.scrolled, RowExists r := by
      refine ⟨fun hrows => hrows k vc' (List.mem_of_getElem? hvc'), ?_⟩
      intro hrows k' vc₁ hvc₁
      obtain ⟨n', hn'⟩ := List.mem_iff_getElem?.mp hvc₁
      by_cases hsame : k' = k ∧ n' = n
      · obtain ⟨rfl, rfl⟩ := hsame
        cases hn'.symm.trans hvc'
        exact hrows
      · refine hothers k' n' vc₁ hn' ?_
        rintro b heq
        cases heq
        exact hsame ⟨rfl, rfl⟩
    rw [hown, rows_own (hs k vc (List.mem_of_getElem? hvc)) hstep]
    cases a with
    | completion =>
      rw [hf.posts_iff hvc]
      constructor
      · intro hfinds vc₁ hvc₁
        cases hvc.symm.trans hvc₁
        exact hfinds rfl
      · exact fun hfinds _ => hfinds vc hvc
    | edit | valueEvent | editActions => exact iff_of_true (by simp) trivial
  · have hfinds : FindsPost db₀ es s e := by
      unfold FindsPost
      split
      · next k n => exact absurd ⟨k, n, _, rfl⟩ he
      · exact trivial
    refine iff_of_true ?_ hfinds
    intro k vc' hvc'
    obtain ⟨n, hn⟩ := List.mem_iff_getElem?.mp hvc'
    exact hothers k n vc' hn (fun a heq => he ⟨k, n, a, heq⟩)

end Events

/-- Along a run, every row passed to `scrollToRow` exists exactly when before every completion of
    `savePost` that reports success the last value event of its `HomeVC` held a post. -/
theorem rows_exist_iff (db : Value) (es : List Event) :
    Along step (fun _ _ _ s' => RowsExist s') (init db) es ↔
      Along step (fun pre s e _ => FindsPost db pre s e) (init db) es := by
  refine along_congr (I := fun pre s => Filled db pre s ∧ RowsExist s) ?_ ?_ ?_
  · exact ⟨filled_init db, fun _ _ h => (List.not_mem_nil h).elim⟩
  · exact fun _ _ _ _ hI h => rows_step hI.1 hI.2 h
  · exact fun _ _ _ _ hI h hrows => ⟨filled_step hI.1 h, hrows⟩

omit [URLSyntax] in
/-- Ann saves a post, sees it at once and deletes it while the writes are still queued; then the
    answer to the save arrives. -/
theorem scrolls_to_missing_row : ¬ ∀ [URLSyntax] (db : Value) (es : List Event),
    Along step (fun _ _ _ s' => RowsExist s') (init db) es := by
  intro h
  let _ := nonEmptyURLs
  let es : List Event := [.device 0 (.profile (some ann)), .device 0 (.auth (some "A")),
    .device 0 .viewDidLoad, .device 0 (.home 0 .valueEvent), .device 0 (.home 0 (.edit "hi")),
    .savePost 0 0 "-L1" 1, .device 0 (.home 0 .valueEvent), .device 0 (.home 0 (.editActions 0)),
    .device 0 (.delete 0 0), .device 0 (.home 0 .valueEvent), .store 0 2, .store 0 3,
    .device 0 .receive, .device 0 .receive]
  let e : Event := .device 0 (.home 0 .completion)
  obtain ⟨s', hs', hp'⟩ := exists_of_run_any step (init .null) (es ++ [e])
    (fun s => (s.client 0).homes[0]?.any (fun vc => (-1, 0) ∈ vc.scrolled)) (by decide)
  obtain ⟨vc, hvc, hmem⟩ := (Option.any_eq_true _ _).mp hp'
  obtain ⟨s, hs, hstep⟩ := run_concat.mp hs'
  have hrows := h .null (es ++ [e]) es e [] rfl s s' hs hstep 0 vc (List.mem_of_getElem? hvc)
    (-1, 0) (decide_eq_true_iff.mp hmem)
  exact absurd hrows.1 (by decide)

end PostApp.Feed
