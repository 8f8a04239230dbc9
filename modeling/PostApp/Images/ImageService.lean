import Mathlib.Data.List.Nodup
import PostApp.Model.Records
import PostApp.Schemes.Run

/-! `ImageService`: downloads and the image cache.

    `getImage` completes at once when the cache holds an image for the URL, and starts a data task
    otherwise. The handler of a task runs on a queue of its own: it decodes the data, caches what
    decodes, and queues the completion on the main queue. The cache may drop entries at any time.
    What decodes is UIKit's affair: `imageOfData` stands for `UIImage(data:)`. -/

namespace PostApp.ImageService
open Schemes
variable [URLSyntax]

/-- One call of `getImage` or `downloadImage`. -/
structure Call where
  id : ℕ
  url : URL
  deriving DecidableEq

instance : LawfulBEq Call := inferInstance

structure State (Image : Type) where
  cache : String → Option Image
  /-- the data tasks whose handler is to come -/
  tasks : List Call
  /-- the completions queued on the main queue -/
  main : List (Call × Option Image)
  /-- the completions that have run, oldest first -/
  completed : List (Call × Option Image)
  /-- all calls so far -/
  calls : List Call

inductive Event (Data : Type) where
  | getImage (url : URL)
  | downloadImage (url : URL)
  /-- the handler of a data task -/
  | handler (call : Call) (data : Option Data)
  /-- the main queue runs its first block -/
  | main
  | evict (key : String)

variable {Data Image : Type}

def init : State Image := ⟨fun _ => none, [], [], [], []⟩

/-- The next call, numbered in order. -/
def State.next (s : State Image) (url : URL) : Call := ⟨s.calls.length, url⟩

@[simp] theorem next_id (s : State Image) (url : URL) : (s.next url).id = s.calls.length := rfl
@[simp] theorem next_url (s : State Image) (url : URL) : (s.next url).url = url := rfl

def State.downloadImage (s : State Image) (call : Call) : State Image :=
  { s with tasks := s.tasks ++ [call], calls := s.calls ++ [call] }

def State.getImage (s : State Image) (call : Call) : State Image :=
  match s.cache call.url.absoluteString with
  | some image =>
    { s with completed := s.completed ++ [(call, some image)], calls := s.calls ++ [call] }
  | none => s.downloadImage call

/-- The handler that `downloadImage` gives its data task. -/
def State.handler (imageOfData : Data → Option Image) (s : State Image) (call : Call)
    (data : Option Data) : State Image :=
  let downloadImage := data.bind imageOfData
  { s with
    tasks := s.tasks.erase call
    cache := match downloadImage with
      | some image => Function.update s.cache call.url.absoluteString (some image)
      | none => s.cache
    main := s.main ++ [(call, downloadImage)] }

def step (imageOfData : Data → Option Image) (s : State Image) : Event Data → Option (State Image)
  | .getImage url => some (s.getImage (s.next url))
  | .downloadImage url => some (s.downloadImage (s.next url))
  | .handler call data => if call ∈ s.tasks then some (s.handler imageOfData call data) else none
  | .main =>
    match s.main with
    | [] => none
    | c :: rest => some { s with main := rest, completed := s.completed ++ [c] }
  | .evict key => some { s with cache := Function.update s.cache key none }

/-! ### Specification -/

/-- The URL an event asks for. -/
def Event.requested : Event Data → Option URL
  | .getImage url | .downloadImage url => some url
  | _ => none

/-- Every call so far is at one place exactly: in a data task, on the main queue or completed. -/
def OnceEach (s : State Image) : Prop :=
  s.calls.Nodup ∧ (s.tasks ++ s.main.map Prod.fst ++ s.completed.map Prod.fst).Perm s.calls

/-- No completion is outstanding. -/
def State.Settled (s : State Image) : Prop := s.tasks = [] ∧ s.main = []

/-- The image was decoded from data that a URL with this `absoluteString` gave. -/
def Fetched (imageOfData : Data → Option Image) (es : List (Event Data)) (key : String)
    (image : Image) : Prop :=
  ∃ call data, Event.handler call (some data) ∈ es ∧ call.url.absoluteString = key ∧
    imageOfData data = some image

/-- A completion is given nil only if the download of its own call gave no image, and otherwise an
    image that its URL gave. -/
def Justified (imageOfData : Data → Option Image) (es : List (Event Data)) (call : Call) :
    Option Image → Prop
  | none => ∃ data, Event.handler call data ∈ es ∧ data.bind imageOfData = none
  | some image => Fetched imageOfData es call.url.absoluteString image

/-- The server answers every URL with the same image, or never with one. -/
def Answers (imageOfData : Data → Option Image) (server : String → Option Image)
    (es : List (Event Data)) : Prop :=
  ∀ call data, Event.handler call data ∈ es →
    data.bind imageOfData = server call.url.absoluteString

/-- No call looks into the cache. -/
def Uncached (es : List (Event Data)) : Prop := ∀ url, Event.getImage url ∉ es

/-- The handlers and the blocks that are still to run, each handler with the answer it is given. -/
def State.rest (s : State Image) (answer : Call → Option Data) : List (Event Data) :=
  s.tasks.map (fun call => .handler call (answer call)) ++
    List.replicate (s.main.length + s.tasks.length) .main

/-! ### One step -/

variable {imageOfData : Data → Option Image}

theorem step_handler {s s' : State Image} {call : Call} {data : Option Data} :
    step imageOfData s (.handler call data) = some s' ↔
      call ∈ s.tasks ∧ s' = s.handler imageOfData call data := by
  rw [step, Option.ite_none_right_eq_some, Option.some.injEq, eq_comm (a := s')]

theorem step_main {s s' : State Image} : step imageOfData s .main = some s' ↔
    ∃ c rest, s.main = c :: rest ∧
      s' = { s with main := rest, completed := s.completed ++ [c] } := by
  cases h : s.main with
  | nil => simp [step, h]
  | cons c rest => simp [step, h, eq_comm]

/-- The calls whose completion is to come. -/
def State.pending (s : State Image) : List Call := s.tasks ++ s.main.map Prod.fst

/-- The calls are numbered in order, and each is pending or completed, once. -/
structure Counted (s : State Image) : Prop where
  ids : s.calls.map Call.id = List.range s.calls.length
  once : (s.pending ++ s.completed.map Prod.fst).Perm s.calls

theorem Counted.ordered {s : State Image} (hs : Counted s) :
    s.calls.Pairwise (fun c d => c.id < d.id) := by
  have h := List.pairwise_lt_range (n := s.calls.length)
  rw [← hs.ids, List.pairwise_map] at h
  exact h

theorem Counted.nodup {s : State Image} (hs : Counted s) : s.calls.Nodup :=
  hs.ordered.imp (fun h => ne_of_apply_ne Call.id (ne_of_lt h))

theorem Counted.id_lt {s : State Image} (hs : Counted s) {call : Call} (hcall : call ∈ s.calls) :
    call.id < s.calls.length := by
  have h := List.mem_map_of_mem (f := Call.id) hcall
  rw [hs.ids] at h
  exact List.mem_range.mp h

theorem Counted.id_inj {s : State Image} (hs : Counted s) {c d : Call} (hc : c ∈ s.calls)
    (hd : d ∈ s.calls) (h : c.id = d.id) : c = d := by
  have hnodup : (s.calls.map Call.id).Nodup := by
    rw [hs.ids]
    exact List.nodup_range
  exact List.inj_on_of_nodup_map hnodup hc hd h

/-- A call is completed exactly when it is not pending. -/
theorem Counted.completed_iff {s : State Image} (hs : Counted s) {call : Call}
    (hcall : call ∈ s.calls) : call ∈ s.completed.map Prod.fst ↔ call ∉ s.pending := by
  have hnodup := hs.once.nodup_iff.mpr hs.nodup
  constructor
  · intro hc hp
    exact List.disjoint_of_nodup_append hnodup hp hc
  · intro hp
    exact (List.mem_append.mp (hs.once.mem_iff.mpr hcall)).resolve_left hp

theorem counted_init : Counted (init : State Image) := ⟨rfl, List.Perm.nil⟩

/-- A new call is numbered next and goes to one place. -/
theorem Counted.new {s s' : State Image} {url : URL} (hs : Counted s)
    (hcalls : s'.calls = s.calls ++ [s.next url])
    (hp : (s'.pending ++ s'.completed.map Prod.fst).Perm
      (s.pending ++ s.completed.map Prod.fst ++ [s.next url])) : Counted s' where
  ids := by
    rw [hcalls, List.map_append, hs.ids, List.length_append, List.length_singleton,
      List.range_succ]
    rfl
  once := by
    rw [hcalls]
    exact hp.trans (hs.once.append_right _)

theorem counted_downloadImage {s : State Image} (hs : Counted s) (url : URL) :
    Counted (s.downloadImage (s.next url)) := by
  refine hs.new rfl ?_
  simp only [State.pending, State.downloadImage, List.append_assoc]
  refine List.Perm.append_left _ ?_
  exact List.perm_append_comm.trans (by simp)

theorem counted_getImage {s : State Image} (hs : Counted s) (url : URL) :
    Counted (s.getImage (s.next url)) := by
  simp only [State.getImage]
  split
  · refine hs.new rfl ?_
    simp [State.pending]
  · exact counted_downloadImage hs url

/-- The handler moves its call from the tasks to the main queue. -/
theorem pending_handler {s : State Image} {call : Call} {data : Option Data}
    (hcall : call ∈ s.tasks) : (s.handler imageOfData call data).pending.Perm s.pending := by
  have hmain : (s.handler imageOfData call data).pending
      = s.tasks.erase call ++ (s.main.map Prod.fst ++ [call]) := by
    simp [State.pending, State.handler]
  rw [hmain, ← List.append_assoc]
  exact (List.perm_append_singleton _ _).trans ((List.perm_cons_erase hcall).symm.append_right _)

theorem pending_main {s : State Image} {c : Call × Option Image} {rest : List (Call × Option Image)}
    (hmain : s.main = c :: rest) :
    s.pending.Perm (c.1 :: (s.tasks ++ rest.map Prod.fst)) := by
  rw [State.pending, hmain]
  exact List.perm_middle

theorem counted_step {s s' : State Image} {e : Event Data} (hs : Counted s)
    (h : step imageOfData s e = some s') : Counted s' := by
  cases e with
  | getImage url => cases h; exact counted_getImage hs url
  | downloadImage url => cases h; exact counted_downloadImage hs url
  | handler call data =>
    obtain ⟨hcall, rfl⟩ := step_handler.mp h
    exact ⟨hs.ids, ((pending_handler hcall).append_right _).trans hs.once⟩
  | main =>
    obtain ⟨c, rest, hmain, rfl⟩ := step_main.mp h
    refine ⟨hs.ids, List.Perm.trans ?_ hs.once⟩
    refine List.Perm.trans ?_ ((pending_main hmain).symm.append_right _)
    simp only [State.pending, List.map_append, ← List.append_assoc]
    exact List.perm_append_singleton _ _
  | evict key => cases h; exact ⟨hs.ids, hs.once⟩

/-- A step runs the first queued completion, or it completes at most the call it makes; then nothing
    changes for the calls before. -/
theorem step_cases {s s' : State Image} {e : Event Data} (h : step imageOfData s e = some s') :
    (∃ c rest, s.main = c :: rest ∧ e = .main ∧ s'.calls = s.calls ∧
      s'.completed = s.completed ++ [c] ∧ s.pending.Perm (c.1 :: s'.pending)) ∨
    (e ≠ .main ∧ s.calls <+: s'.calls ∧ ∃ new, s'.completed = s.completed ++ new ∧
      (∀ c ∈ new, c.1.id = s.calls.length) ∧
      ∀ call, call.id < s.calls.length → (call ∈ s'.pending ↔ call ∈ s.pending)) := by
  have hdownload : ∀ url : URL, ∀ call : Call, call.id < s.calls.length →
      (call ∈ (s.downloadImage (s.next url)).pending ↔ call ∈ s.pending) := by
    intro url call hlt
    have hne : call ≠ s.next url := ne_of_apply_ne Call.id (ne_of_lt hlt)
    simp [State.pending, State.downloadImage, hne]
  cases e with
  | getImage url =>
    cases h
    refine Or.inr ⟨nofun, ?_⟩
    simp only [State.getImage]
    split
    · exact ⟨List.prefix_append _ _, _, rfl, by simp, fun _ _ => Iff.rfl⟩
    · exact ⟨List.prefix_append _ _, [], (List.append_nil _).symm, by simp, hdownload url⟩
  | downloadImage url =>
    cases h
    exact Or.inr ⟨nofun, List.prefix_append _ _, [], (List.append_nil _).symm, by simp, hdownload url⟩
  | handler call data =>
    obtain ⟨hcall, rfl⟩ := step_handler.mp h
    exact Or.inr ⟨nofun, List.prefix_rfl, [], (List.append_nil _).symm, by simp,
      fun _ _ => (pending_handler hcall).mem_iff⟩
  | main =>
    obtain ⟨c, rest, hmain, rfl⟩ := step_main.mp h
    exact Or.inl ⟨c, rest, hmain, rfl, rfl, rfl, pending_main hmain⟩
  | evict key =>
    cases h
    exact Or.inr ⟨nofun, List.prefix_rfl, [], (List.append_nil _).symm, by simp,
      fun _ _ => Iff.rfl⟩

theorem Fetched.mono {es : List (Event Data)} {key : String} {image : Image} (e : Event Data)
    (h : Fetched imageOfData es key image) : Fetched imageOfData (es ++ [e]) key image := by
  obtain ⟨call, data, hmem, hkey, himage⟩ := h
  exact ⟨call, data, List.mem_append_left _ hmem, hkey, himage⟩

theorem Justified.mono {es : List (Event Data)} {call : Call} {result : Option Image}
    (e : Event Data) (h : Justified imageOfData es call result) :
    Justified imageOfData (es ++ [e]) call result := by
  cases result with
  | none =>
    obtain ⟨data, hmem, hnone⟩ := h
    exact ⟨data, List.mem_append_left _ hmem, hnone⟩
  | some image => exact Fetched.mono e h

/-- The answer of a task justifies its own completion. -/
theorem justified_handler {es : List (Event Data)} {call : Call} {data : Option Data}
    (h : Event.handler call data ∈ es) :
    Justified imageOfData es call (data.bind imageOfData) := by
  cases hdecoded : data.bind imageOfData with
  | none => exact ⟨data, h, hdecoded⟩
  | some image =>
    obtain ⟨data', rfl, hdata'⟩ := Option.bind_eq_some_iff.mp hdecoded
    exact ⟨call, data', h, rfl, hdata'⟩

/-- The history accounts for every call, every entry of the cache and every result. -/
structure Sourced (imageOfData : Data → Option Image) (es : List (Event Data)) (s : State Image) :
    Prop where
  requested : s.calls.map Call.url = es.filterMap Event.requested
  cached : ∀ key image, s.cache key = some image → Fetched imageOfData es key image
  justified : ∀ c ∈ s.main ++ s.completed, Justified imageOfData es c.1 c.2

theorem sourced_init : Sourced imageOfData [] (init : State Image) where
  requested := rfl
  cached := fun _ _ h => nomatch h
  justified := fun _ h => (List.not_mem_nil h).elim

/-- A step that makes no call leaves the calls accounted for. -/
theorem Sourced.requested_concat {es : List (Event Data)} {s : State Image} {e : Event Data}
    (hs : Sourced imageOfData es s) (he : e.requested = none) :
    s.calls.map Call.url = (es ++ [e]).filterMap Event.requested := by
  rw [hs.requested, List.filterMap_append, List.filterMap_cons_none he]
  exact (List.append_nil _).symm

theorem sourced_downloadImage {es : List (Event Data)} {s : State Image} {e : Event Data} {url : URL}
    (hs : Sourced imageOfData es s) (he : e.requested = some url) :
    Sourced imageOfData (es ++ [e]) (s.downloadImage (s.next url)) where
  requested := by
    rw [List.filterMap_append, List.filterMap_cons_some he, ← hs.requested]
    exact List.map_append
  cached := fun key image h => (hs.cached key image h).mono e
  justified := fun c hc => (hs.justified c hc).mono e

/-- What a call finds in the cache, its own URL has given. -/
theorem sourced_getImage {es : List (Event Data)} {s : State Image} {url : URL}
    (hs : Sourced imageOfData es s) :
    Sourced imageOfData (es ++ [.getImage url]) (s.getImage (s.next url)) := by
  have hmiss := sourced_downloadImage (e := .getImage url) hs rfl
  simp only [State.getImage]
  split
  · next image hhit =>
    refine ⟨hmiss.requested, hmiss.cached, ?_⟩
    intro c hc
    rw [← List.append_assoc] at hc
    rcases List.mem_append.mp hc with hc | hc
    · exact hmiss.justified c hc
    · rw [List.mem_singleton.mp hc]
      exact (hs.cached _ image hhit).mono _
  · exact hmiss

/-- An answer is cached under the URL of its own task, and only if it is an image. -/
theorem sourced_handler {es : List (Event Data)} {s : State Image} {call : Call}
    {data : Option Data} (hs : Sourced imageOfData es s) :
    Sourced imageOfData (es ++ [.handler call data]) (s.handler imageOfData call data) := by
  have hown : Justified imageOfData (es ++ [.handler call data]) call (data.bind imageOfData) :=
    justified_handler (by simp)
  refine ⟨hs.requested_concat rfl, ?_, ?_⟩
  · intro key image h
    cases hdecoded : data.bind imageOfData with
    | none =>
      simp only [State.handler, hdecoded] at h
      exact (hs.cached key image h).mono _
    | some image' =>
      simp only [State.handler, hdecoded] at h
      rcases eq_or_ne key call.url.absoluteString with hkey | hkey
      · rw [hkey, Function.update_self] at h
        rw [hdecoded, h] at hown
        exact hkey ▸ hown
      · rw [Function.update_of_ne hkey] at h
        exact (hs.cached key image h).mono _
  · intro c hc
    rcases List.mem_append.mp hc with hc | hc
    · rcases List.mem_append.mp hc with hc | hc
      · exact (hs.justified c (List.mem_append_left _ hc)).mono _
      · rw [List.mem_singleton.mp hc]
        exact hown
    · exact (hs.justified c (List.mem_append_right _ hc)).mono _

theorem sourced_step (es : List (Event Data)) (s : State Image) (e : Event Data) (s' : State Image)
    (hs : Sourced imageOfData es s) (h : step imageOfData s e = some s') :
    Sourced imageOfData (es ++ [e]) s' := by
  cases e with
  | getImage url => cases h; exact sourced_getImage hs
  | downloadImage url => cases h; exact sourced_downloadImage hs rfl
  | handler call data =>
    obtain ⟨-, rfl⟩ := step_handler.mp h
    exact sourced_handler hs
  | main =>
    obtain ⟨c, rest, hmain, rfl⟩ := step_main.mp h
    refine ⟨hs.requested_concat rfl, fun key image h => (hs.cached key image h).mono _, ?_⟩
    intro d hd
    refine (hs.justified d ?_).mono _
    rw [hmain]
    simp only [List.mem_append, List.mem_cons] at hd ⊢
    tauto
  | evict key =>
    cases h
    refine ⟨hs.requested_concat rfl, ?_, fun c hc => (hs.justified c hc).mono _⟩
    intro k image h
    rcases eq_or_ne k key with hk | hk
    · simp [hk] at h
    · simp only [Function.update_of_ne hk] at h
      exact (hs.cached k image h).mono _

theorem counted_run {es : List (Event Data)} {s : State Image}
    (h : run (step imageOfData) init es = some s) : Counted s :=
  run_invariant counted_init (fun _ _ _ => counted_step) h

theorem sourced_run {es : List (Event Data)} {s : State Image}
    (h : run (step imageOfData) init es = some s) : Sourced imageOfData es s :=
  run_history sourced_init sourced_step h

/-! ### Every completion is reached -/

variable (imageOfData) in
theorem run_handlers (answer : Call → Option Data) : ∀ {s : State Image} {tasks : List Call},
    s.tasks = tasks → ∃ s', run (step imageOfData) s
      (tasks.map (fun call => Event.handler call (answer call))) = some s' ∧ s'.tasks = [] ∧
      s'.main.length = s.main.length + tasks.length ∧ s'.calls = s.calls
  | s, [], h => ⟨s, rfl, h, rfl, rfl⟩
  | s, call :: tasks, h => by
    have hcall : call ∈ s.tasks := h ▸ List.mem_cons_self ..
    have htasks : (s.handler imageOfData call (answer call)).tasks = tasks := by
      simp [State.handler, h]
    obtain ⟨s', hrun, hnone, hlen, hcalls⟩ := run_handlers answer htasks
    refine ⟨s', ?_, hnone, ?_, hcalls⟩
    · rw [List.map_cons, run, step_handler.mpr ⟨hcall, rfl⟩]
      exact hrun
    · have hmain : (s.handler imageOfData call (answer call)).main.length = s.main.length + 1 := by
        simp [State.handler]
      rw [List.length_cons]
      omega

variable (imageOfData) in
theorem run_mains : ∀ {s : State Image} {n : ℕ}, s.main.length = n →
    ∃ s', run (step imageOfData) s (List.replicate n .main) = some s' ∧ s'.main = [] ∧
      s'.tasks = s.tasks ∧ s'.calls = s.calls
  | s, 0, h => ⟨s, rfl, List.eq_nil_of_length_eq_zero h, rfl, rfl⟩
  | s, n + 1, h => by
    obtain ⟨c, rest, hmain⟩ := List.exists_cons_of_length_eq_add_one h
    have hrest : rest.length = n := by simpa [hmain] using h
    obtain ⟨s', hrun, hnil, htasks, hcalls⟩ := run_mains
      (s := { s with main := rest, completed := s.completed ++ [c] }) hrest
    refine ⟨s', ?_, hnil, htasks, hcalls⟩
    rw [List.replicate_succ, run, step_main.mpr ⟨c, rest, hmain, rfl⟩]
    exact hrun

theorem run_rest (s : State Image) (answer : Call → Option Data) :
    ∃ s', run (step imageOfData) s (s.rest answer) = some s' ∧ s'.Settled ∧ s'.calls = s.calls := by
  obtain ⟨m, hm, hnone, hlen, hcalls⟩ := run_handlers imageOfData answer (s := s) rfl
  obtain ⟨s', hs', hnil, htasks, hcalls'⟩ := run_mains imageOfData hlen
  refine ⟨s', ?_, ⟨htasks.trans hnone, hnil⟩, hcalls'.trans hcalls⟩
  rw [State.rest, run_append, hm]
  exact hs'

/-! ### Transparency -/

/-- With such a server every completion is given what the server answers. -/
theorem Justified.eq_server {es : List (Event Data)} {call : Call} {result : Option Image}
    {server : String → Option Image} (h : Justified imageOfData es call result)
    (hserver : Answers imageOfData server es) : result = server call.url.absoluteString := by
  cases result with
  | none =>
    obtain ⟨data, hmem, hnone⟩ := h
    exact hnone.symm.trans (hserver call data hmem)
  | some image =>
    obtain ⟨call', data, hmem, hkey, himage⟩ := h
    have hdata := hserver call' (some data) hmem
    rw [Option.bind_some, himage, hkey] at hdata
    exact hdata

/-- Once settled, the completions are the calls with the answers of the server. -/
theorem perm_of_answers {es : List (Event Data)} {s : State Image} {server : String → Option Image}
    (hs : Sourced imageOfData es s) (hcount : Counted s) (hserver : Answers imageOfData server es)
    (hsettled : s.Settled) :
    s.completed.Perm (s.calls.map (fun call => (call, server call.url.absoluteString))) := by
  have hcalls : (s.completed.map Prod.fst).Perm s.calls := by
    have h := hcount.once
    rw [State.pending, hsettled.1, hsettled.2] at h
    exact h
  have hresults : s.completed
      = (s.completed.map Prod.fst).map (fun call => (call, server call.url.absoluteString)) := by
    rw [List.map_map]
    refine (List.map_id _).symm.trans (List.map_congr_left ?_)
    intro c hc
    have hc := (hs.justified c (List.mem_append_right _ hc)).eq_server hserver
    exact Prod.ext rfl hc
  rw [hresults]
  exact hcalls.map _

/-- In every history each call is completed exactly once: it is at one place at any moment, and the
    handlers and blocks still to run complete the rest. A completion is given nil only if the download
    of its own call failed, and otherwise an image that its URL gave. So where the server answers a URL
    always with the same image, calls that use the cache and calls that do not get the same results. -/
theorem cache_transparent {es : List (Event Data)} {s : State Image}
    (h : run (step imageOfData) init es = some s) :
    s.calls.map Call.url = es.filterMap Event.requested ∧ OnceEach s ∧
    (∀ answer : Call → Option Data, ∃ s', run (step imageOfData) s (s.rest answer) = some s' ∧
      s'.Settled ∧ s'.calls = s.calls) ∧
    (∀ call result, (call, result) ∈ s.completed → Justified imageOfData es call result) ∧
    ∀ server, Answers imageOfData server es → s.Settled →
      ∀ es' s', run (step imageOfData) init es' = some s' → Uncached es' →
        Answers imageOfData server es' → s'.Settled → s'.calls = s.calls →
        s.completed.Perm s'.completed := by
  have hs := sourced_run h
  have hcount := counted_run h
  refine ⟨hs.requested, ⟨hcount.nodup, hcount.once⟩, run_rest s, ?_, ?_⟩
  · intro call result hc
    exact hs.justified (call, result) (List.mem_append_right _ hc)
  · intro server hserver hsettled es' s' h' _ hserver' hsettled' hcalls
    have hperm := perm_of_answers (sourced_run h') (counted_run h') hserver' hsettled'
    rw [hcalls] at hperm
    exact (perm_of_answers hs hcount hserver hsettled).trans hperm.symm

omit [URLSyntax] in
/-- Two calls for one URL, the second answered from the cache, and the same two without it. -/
theorem cache_transparent_hit : ∃ (_ : URLSyntax) (es es' : List (Event String))
    (s s' : State String), run (step some) init es = some s ∧ run (step some) init es' = some s' ∧
      s.completed.length = 2 ∧ OnceEach s ∧ s.completed.Perm s'.completed := by
  let _ := nonEmptyURLs
  let url : URL := ann.photoURL
  let es : List (Event String) := [.getImage url, .handler ⟨0, url⟩ (some "a"), .main, .getImage url]
  let es' : List (Event String) := [.downloadImage url, .downloadImage url,
    .handler ⟨1, url⟩ (some "a"), .handler ⟨0, url⟩ (some "a"), .main, .main]
  obtain ⟨s, hs, hp⟩ := exists_of_run_any (step some) init es
    (fun s => s.tasks = [] ∧ s.main = [] ∧ s.calls = [⟨0, url⟩, ⟨1, url⟩] ∧
      s.completed.length = 2) (by decide)
  obtain ⟨s', hs', hp'⟩ := exists_of_run_any (step some) init es'
    (fun s => s.tasks = [] ∧ s.main = [] ∧ s.calls = [⟨0, url⟩, ⟨1, url⟩]) (by decide)
  obtain ⟨htasks, hmain, hcalls, hlen⟩ := decide_eq_true_iff.mp hp
  obtain ⟨htasks', hmain', hcalls'⟩ := decide_eq_true_iff.mp hp'
  obtain ⟨-, honce, -, -, hsame⟩ := cache_transparent hs
  refine ⟨nonEmptyURLs, es, es', s, s', hs, hs', hlen, honce, ?_⟩
  refine hsame (fun _ => some "a") ?_ ⟨htasks, hmain⟩ es' s' hs' ?_ ?_ ⟨htasks', hmain'⟩
    (hcalls'.trans hcalls.symm)
  · intro call data h
    obtain ⟨-, rfl⟩ : call = ⟨0, url⟩ ∧ data = some "a" := by simpa [es] using h
    rfl
  · intro url' h
    simp [es'] at h
  · intro call data h
    obtain ⟨-, rfl⟩ | ⟨-, rfl⟩ : (call = ⟨1, url⟩ ∧ data = some "a") ∨
        (call = ⟨0, url⟩ ∧ data = some "a") := by simpa [es'] using h
    · rfl
    · rfl

end PostApp.ImageService
