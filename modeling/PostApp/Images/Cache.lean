import PostApp.Images.ImageService

/-! What the image cache saves.

    `getImage` asks the cache first, and the handler of every download fills it. So the cache holds the
    last image that was decoded for a URL unless it was evicted since, whatever the order of the handlers
    (`cache_eq_last`), and a call completes at once with that image or starts one download
    (`getImage_by_history`). Calls that come before the first image do not wait for each other: a URL
    whose entry is never evicted is downloaded at most as often as it was asked for before its first image
    (`downloads_bounded`). -/

namespace PostApp.ImageService
open Schemes
variable [URLSyntax] {Data Image : Type} (imageOfData : Data → Option Image) (key : String)

/-- What an event leaves in the entry of the key, if it touches it. -/
def Event.effect : Event Data → Option (Option Image)
  | .handler call data =>
    if call.url.absoluteString = key then (data.bind imageOfData).map some else none
  | .evict k => if k = key then some none else none
  | .getImage _ | .downloadImage _ | .main => none

/-- The last image decoded for the key, unless it was evicted since. -/
def lastImage (es : List (Event Data)) : Option Image :=
  es.foldl (fun last e => (e.effect imageOfData key).getD last) none

variable {imageOfData key} {es : List (Event Data)} {s s' : State Image} {e : Event Data} {url : URL}

/-- A step changes the entry of the key by the effect of its event, and no other way. -/
theorem cache_step (h : step imageOfData s e = some s') :
    s'.cache key = (e.effect imageOfData key).getD (s.cache key) := by
  cases e with
  | getImage url =>
    cases h
    simp only [State.getImage]
    split <;> rfl
  | downloadImage url =>
    cases h
    rfl
  | handler call data =>
    obtain ⟨-, rfl⟩ := step_handler.mp h
    cases hdecoded : data.bind imageOfData with
    | none => simp [State.handler, Event.effect, hdecoded]
    | some image =>
      simp only [State.handler, Event.effect, hdecoded, Option.map_some]
      split_ifs with hkey
      · rw [← hkey, Function.update_self]
        rfl
      · rw [Function.update_of_ne (Ne.symm hkey)]
        rfl
  | main =>
    obtain ⟨c, rest, -, rfl⟩ := step_main.mp h
    rfl
  | evict k =>
    cases h
    simp only [Event.effect]
    split_ifs with hk
    · rw [hk, Function.update_self]
      rfl
    · rw [Function.update_of_ne (Ne.symm hk)]
      rfl

/-- Whatever the order of the downloads, the cache holds the last image decoded for a key, unless it was
    evicted since. -/
theorem cache_eq_last (h : run (step imageOfData) init es = some s) (key : String) :
    s.cache key = lastImage imageOfData key es :=
  run_fold (f := fun s => s.cache key) (I := fun _ => True) trivial (fun _ _ _ _ _ => trivial)
    (fun _ _ _ _ hs => cache_step hs) h

/-- What `getImage` does is decided by the history of its URL alone: if an image has been decoded for it
    and not evicted since, the last such image is given to the completion at once; if not, one download
    is started. -/
theorem getImage_by_history (h : run (step imageOfData) init es = some s)
    (hs : step imageOfData s (.getImage url) = some s') :
    (∀ image, lastImage imageOfData url.absoluteString es = some image →
      s'.completed = s.completed ++ [(s.next url, some image)] ∧ s'.tasks = s.tasks) ∧
    (lastImage imageOfData url.absoluteString es = none →
      s'.completed = s.completed ∧ s'.tasks = s.tasks ++ [s.next url]) := by
  rw [← cache_eq_last h]
  cases hs
  refine ⟨?_, ?_⟩
  · intro image hhit
    rw [State.getImage, next_url, hhit]
    exact ⟨rfl, rfl⟩
  · intro hmiss
    rw [State.getImage, next_url, hmiss]
    exact ⟨rfl, rfl⟩

omit [URLSyntax] in
/-- The second of two downloads has replaced the image of the first. -/
theorem getImage_by_history_replaced : ∃ (_ : URLSyntax) (es : List (Event String)) (url : URL)
    (s s' : State String), run (step some) init es = some s ∧
      step some s (.getImage url) = some s' ∧
      s'.completed = s.completed ++ [(s.next url, some "b")] ∧ s'.tasks = s.tasks := by
  let _ := nonEmptyURLs
  let url : URL := ann.photoURL
  let es : List (Event String) := [.getImage url, .getImage url, .handler ⟨1, url⟩ (some "a"),
    .handler ⟨0, url⟩ (some "b"), .main]
  obtain ⟨s, hs, -⟩ := exists_of_run_any (step some) init es (fun _ => true) (by decide)
  have hget : step some s (.getImage url) = some (s.getImage (s.next url)) := rfl
  obtain ⟨hhit, -⟩ := getImage_by_history hs hget
  exact ⟨nonEmptyURLs, es, url, s, _, hs, hget, hhit "b" (by decide)⟩

/-! ### How often a URL is downloaded -/

def Call.isFor (key : String) (call : Call) : Bool := call.url.absoluteString = key

/-- The event is a call of `getImage` for the key. -/
def Event.asks (key : String) : Event Data → Bool
  | .getImage url => url.absoluteString = key
  | _ => false

/-- The event is a call of `downloadImage` for the key, past the cache. -/
def Event.downloads (key : String) : Event Data → Bool
  | .downloadImage url => url.absoluteString = key
  | _ => false

/-- The event is the handler of a data task for the key. -/
def Event.answers (key : String) : Event Data → Bool
  | .handler call _ => call.isFor key
  | _ => false

/-- The event decodes an image for the key. -/
def Event.decodes (imageOfData : Data → Option Image) (key : String) : Event Data → Bool
  | .handler call data => call.isFor key && (data.bind imageOfData).isSome
  | _ => false

/-- The data tasks started for the key: those whose handler is to come and those whose handler has run. -/
def started (key : String) (es : List (Event Data)) (s : State Image) : ℕ :=
  s.tasks.countP (Call.isFor key) + es.countP (Event.answers key)

/-- The calls of `getImage` for the key before its first image. -/
def askedFirst (imageOfData : Data → Option Image) (key : String) (es : List (Event Data)) : ℕ :=
  (es.takeWhile (fun e => !e.decodes imageOfData key)).countP (Event.asks key)

/-- Without evictions, an image that has been decoded stays in the cache. -/
theorem cached_of_decoded (hkeep : .evict key ∉ es)
    (hdecoded : es.any (Event.decodes imageOfData key) = true) :
    ∃ image, lastImage imageOfData key es = some image := by
  induction es using List.reverseRecOn with
  | nil => cases hdecoded
  | append_singleton es e ih =>
    have hlast : lastImage imageOfData key (es ++ [e]) =
        (e.effect imageOfData key).getD (lastImage imageOfData key es) := by
      rw [lastImage, List.foldl_append]
      rfl
    rw [List.mem_append, not_or, List.mem_singleton] at hkeep
    rw [List.any_append, Bool.or_eq_true] at hdecoded
    have hbefore : e.decodes imageOfData key = false →
        ∃ image, lastImage imageOfData key es = some image := by
      intro hno
      simp only [List.any_cons, List.any_nil, hno, Bool.or_false, Bool.false_eq_true, or_false] at hdecoded
      exact ih hkeep.1 hdecoded
    rw [hlast]
    cases e with
    | getImage | downloadImage | main => exact hbefore rfl
    | evict k =>
      have hk : k ≠ key := fun heq => hkeep.2 (congrArg Event.evict heq.symm)
      rw [Event.effect, if_neg hk]
      exact hbefore rfl
    | handler call data =>
      by_cases hkey : call.url.absoluteString = key
      · rw [Event.effect, if_pos hkey]
        cases himage : data.bind imageOfData with
        | some image => exact ⟨image, rfl⟩
        | none => exact hbefore (by simp [Event.decodes, himage])
      · rw [Event.effect, if_neg hkey]
        exact hbefore (by simp [Event.decodes, Call.isFor, hkey])

/-- A step starts a task for the key only where it downloads, or asks in vain. -/
theorem started_step (h : step imageOfData s e = some s') : started key (es ++ [e]) s' ≤
    started key es s + (if e.downloads key then 1 else 0) +
      (if e.asks key ∧ s.cache key = none then 1 else 0) := by
  have hnew : ∀ url : URL, (s.tasks ++ [s.next url]).countP (Call.isFor key) =
      s.tasks.countP (Call.isFor key) + if url.absoluteString = key then 1 else 0 := by
    intro url
    rw [List.countP_append, List.countP_singleton, Call.isFor, next_url]
    simp only [decide_eq_true_eq]
  rw [started, started, List.countP_append]
  cases e with
  | getImage url =>
    cases h
    have hanswers : ([.getImage url] : List (Event Data)).countP (Event.answers key) = 0 := rfl
    simp only [State.getImage]
    split
    · simp only
      omega
    · next hmiss =>
      simp only [State.downloadImage, hnew, Event.asks, decide_eq_true_eq]
      rw [next_url] at hmiss
      by_cases hkey : url.absoluteString = key
      · rw [hkey] at hmiss
        simp only [hkey, hmiss, and_self, if_true]
        omega
      · simp only [hkey, false_and, if_false]
        omega
  | downloadImage url =>
    cases h
    have hanswers : ([.downloadImage url] : List (Event Data)).countP (Event.answers key) = 0 := rfl
    simp only [State.downloadImage, hnew, Event.downloads, decide_eq_true_eq]
    omega
  | handler call data =>
    obtain ⟨hcall, rfl⟩ := step_handler.mp h
    have hperm := (List.perm_cons_erase hcall).countP_eq (Call.isFor key)
    have hanswers : [Event.handler call data].countP (Event.answers key) =
        [call].countP (Call.isFor key) := rfl
    rw [← List.singleton_append, List.countP_append] at hperm
    simp only [State.handler]
    omega
  | main =>
    obtain ⟨c, rest, -, rfl⟩ := step_main.mp h
    have hanswers : ([.main] : List (Event Data)).countP (Event.answers key) = 0 := rfl
    simp only
    omega
  | evict k =>
    cases h
    have hanswers : ([.evict k] : List (Event Data)).countP (Event.answers key) = 0 := rfl
    simp only
    omega

theorem askedFirst_concat : askedFirst imageOfData key (es ++ [e]) = askedFirst imageOfData key es +
    if es.any (Event.decodes imageOfData key) then 0 else if e.asks key then 1 else 0 := by
  unfold askedFirst
  induction es with
  | nil =>
    cases e <;> simp [Event.asks, Event.decodes, List.takeWhile_cons]
  | cons x es ih =>
    cases hx : x.decodes imageOfData key with
    | true => simp [hx]
    | false =>
      simp only [List.cons_append, List.takeWhile_cons, hx, Bool.not_false, if_true, List.countP_cons,
        List.any_cons, Bool.false_or, ih]
      omega

/-- However often a URL is asked for, as long as its entry is not evicted it is downloaded at most once for
    each call before its first image, and for each call past the cache. -/
theorem downloads_bounded (h : run (step imageOfData) init es = some s) (hkeep : .evict key ∉ es) :
    started key es s ≤ es.countP (Event.downloads key) + askedFirst imageOfData key es := by
  have hrun := run_history (I := fun es s => run (step imageOfData) init es = some s ∧
    (.evict key ∉ es → started key es s ≤
      es.countP (Event.downloads key) + askedFirst imageOfData key es)) ⟨rfl, fun _ => by simp [started, init]⟩ ?_ h
  · exact hrun.2 hkeep
  · rintro es s e s' ⟨hr, hbound⟩ hs
    refine ⟨run_concat.mpr ⟨s, hr, hs⟩, ?_⟩
    intro hnot
    have hold : .evict key ∉ es := fun hmem => hnot (List.mem_append_left _ hmem)
    have hle := hbound hold
    have hstep : started key (es ++ [e]) s' ≤ _ := started_step hs
    rw [askedFirst_concat, List.countP_append, List.countP_singleton]
    cases hdecoded : es.any (Event.decodes imageOfData key) with
    | true =>
      -- the first image is in the cache, so nobody asks in vain
      obtain ⟨image, hlast⟩ := cached_of_decoded hold hdecoded
      have hcache : s.cache key = some image := (cache_eq_last hr key).trans hlast
      simp only [hcache, reduceCtorEq, and_false, if_false] at hstep
      simp only [if_true]
      omega
    | false =>
      have hasks : (if e.asks key = true ∧ s.cache key = none then 1 else 0) ≤
          if e.asks key = true then 1 else 0 := by
        split_ifs with hboth hask
        · exact le_rfl
        · exact absurd hboth.1 hask
        · exact Nat.zero_le _
        · exact le_rfl
      simp only [Bool.false_eq_true, if_false]
      omega

omit [URLSyntax] in
/-- Asked for four times, downloaded twice: the first two calls come before the first image. -/
theorem downloads_bounded_four : ∃ (_ : URLSyntax) (key : String) (es : List (Event String))
    (s : State String), run (step some) init es = some s ∧ es.countP (Event.asks key) = 4 ∧
      started key es s ≤ 2 := by
  let _ := nonEmptyURLs
  let url : URL := ann.photoURL
  let es : List (Event String) := [.getImage url, .getImage url, .handler ⟨1, url⟩ (some "a"), .main,
    .getImage url, .handler ⟨0, url⟩ (some "b"), .getImage url]
  obtain ⟨s, hs, -⟩ := exists_of_run_any (step some) init es (fun _ => true) (by decide)
  exact ⟨nonEmptyURLs, url.absoluteString, es, s, hs, by decide, downloads_bounded hs (by simp [es])⟩

end PostApp.ImageService
