import PostApp.Chat.SendMessage
import PostApp.Schemes.Run
import Mathlib.Logic.Function.Basic

/-! All sends of all clients over one database.

    A leg of a send is asked for its snapshot, gets it at some later moment, and its callback queues
    the leg's writes on the device. A device's writes reach the database in issue order, those of
    different devices in any order; each is stored or rejected, and some time later the completion of
    the message write reports the outcome. A callback carries what is decided outside the database:
    the key of `childByAutoId` and the text the composer shows at that moment.

    A snapshot is of the database as the server has it. The database also shows a device its own writes
    before they are stored, by events raised at once on the device; these events and the snapshots they
    give are left out here. -/

namespace PostApp.Chat
open Schemes
/-- The fate of a `setValue` call. -/
inductive Outcome where | notIssued | pending | stored | failed
  deriving DecidableEq

/-- A leg after its snapshot callback. -/
structure Issued where
  /-- the snapshot had no such conversation, so a header is written too -/
  created : Bool
  key : String
  text : String
  header : Outcome
  message : Outcome
  /-- the completion of the message write has run -/
  reported : Bool
  deriving DecidableEq

def Issued.outcome (i : Issued) : Kind → Outcome
  | .header => i.header
  | .message => i.message

def Issued.settle (i : Issued) (o : Outcome) : Kind → Issued
  | .header => { i with header := o }
  | .message => { i with message := o }

/-- A message that waits for its outcome is not stored. -/
theorem not_stored_of_pending {i : Issued} (h : i.outcome .message = .pending) :
    i.message ≠ .stored := by
  intro hst
  rw [Issued.outcome, hst] at h
  cases h

@[simp] theorem outcome_settle (i : Issued) (o : Outcome) (kind : Kind) :
    (i.settle o kind).outcome kind = o := by cases kind <;> rfl

theorem outcome_settle_ne {kind kind' : Kind} (h : kind' ≠ kind) (i : Issued) (o : Outcome) :
    (i.settle o kind).outcome kind' = i.outcome kind' := by
  cases kind <;> cases kind' <;> first | rfl | exact absurd rfl h

@[simp] theorem key_settle (i : Issued) (o : Outcome) (kind : Kind) :
    (i.settle o kind).key = i.key := by cases kind <;> rfl

@[simp] theorem text_settle (i : Issued) (o : Outcome) (kind : Kind) :
    (i.settle o kind).text = i.text := by cases kind <;> rfl

@[simp] theorem created_settle (i : Issued) (o : Outcome) (kind : Kind) :
    (i.settle o kind).created = i.created := by cases kind <;> rfl

variable [URLSyntax]

inductive Phase where
  | idle
  | requested
  | snapped (snapshot : DataSnapshot)
  | issued (i : Issued)
  deriving DecidableEq

structure State where
  db : Value
  phase : Send → Side → Phase
  /-- the writes of each device that have not reached the database -/
  queue : ℕ → List Write
  /-- the keys `childByAutoId` has generated -/
  keys : List String

inductive Event where
  | tap (σ : Send)
  | snapshot (σ : Send) (side : Side)
  | callback (σ : Send) (side : Side) (key text : String)
  | store (σ : Send) (side : Side) (kind : Kind) (now : Rat)
  | reject (σ : Send) (side : Side) (kind : Kind)
  | complete (σ : Send) (side : Side)
  deriving DecidableEq

/-- The send an event belongs to. -/
def Event.send : Event → Send
  | tap σ | snapshot σ _ | callback σ _ _ _ | store σ _ _ _ | reject σ _ _ | complete σ _ => σ

def State.put (s : State) (σ : Send) (side : Side) (ph : Phase) : State :=
  { s with phase := fun τ sd => if τ = σ ∧ sd = side then ph else s.phase τ sd }

def init (db : Value) : State := ⟨db, fun _ _ => .idle, fun _ => [], []⟩

/-- The leg as its callback leaves it. -/
def issue (side : Side) (σ : Send) (snapshot : DataSnapshot) (key text : String) : Issued :=
  if snapshot.hasChild (side.peer σ) then ⟨false, key, text, .notIssued, .pending, false⟩
  else ⟨true, key, text, .pending, .pending, false⟩

/-- Take the named write off the front of its device's queue and record its fate. -/
def State.pop (s : State) (σ : Send) (side : Side) (kind : Kind) (o : Outcome) :
    Option (Write × State) :=
  match s.phase σ side, s.queue σ.client with
  | .issued i, w :: ws =>
    if w.send = σ ∧ w.side = side ∧ w.kind = kind then
      some (w, { s.put σ side (.issued (i.settle o kind)) with
        queue := Function.update s.queue σ.client ws })
    else none
  | _, _ => none

def step (s : State) : Event → Option State
  | .tap σ =>
    match s.phase σ .receiver, s.phase σ .sender with
    | .idle, .idle => some ((s.put σ .receiver .requested).put σ .sender .requested)
    | _, _ => none
  | .snapshot σ side =>
    match s.phase σ side with
    | .requested => some (s.put σ side (.snapped (snapshotAt (chatRef (side.owner σ)) s.db)))
    | _ => none
  | .callback σ side key text =>
    match s.phase σ side with
    | .snapped snapshot =>
      -- a generated key is new, also at its location
      if key ∈ s.keys ∨ s.db.get (messageRef (side.owner σ) (side.peer σ) key) ≠ .null then none
      else some { s.put σ side (.issued (issue side σ snapshot key text)) with
        queue := Function.update s.queue σ.client
          (s.queue σ.client ++ leg side σ snapshot key text)
        keys := key :: s.keys }
    | _ => none
  | .store σ side kind now => do
    let (w, s') ← s.pop σ side kind .stored
    some { s' with db := s'.db.set w.path (resolve now w.value) }
  | .reject σ side kind => do
    let (_, s') ← s.pop σ side kind .failed
    some s'
  | .complete σ side =>
    match s.phase σ side with
    | .issued i =>
      if (i.message = .stored ∨ i.message = .failed) ∧ i.reported = false then
        some (s.put σ side (.issued { i with reported := true }))
      else none
    | _ => none

/-! ### What a step can do -/

section Inversion
variable {s s' : State} {σ : Send} {side : Side} {kind : Kind} {key text : String} {now : Rat}

@[simp] theorem put_phase (s : State) (σ τ : Send) (side sd : Side) (ph : Phase) :
    (s.put σ side ph).phase τ sd = if τ = σ ∧ sd = side then ph else s.phase τ sd := rfl
@[simp] theorem put_db (s : State) (σ : Send) (side : Side) (ph : Phase) :
    (s.put σ side ph).db = s.db := rfl
@[simp] theorem put_queue (s : State) (σ : Send) (side : Side) (ph : Phase) :
    (s.put σ side ph).queue = s.queue := rfl
@[simp] theorem put_keys (s : State) (σ : Send) (side : Side) (ph : Phase) :
    (s.put σ side ph).keys = s.keys := rfl

theorem step_tap : step s (.tap σ) = some s' ↔
    s.phase σ .receiver = .idle ∧ s.phase σ .sender = .idle ∧
      s' = (s.put σ .receiver .requested).put σ .sender .requested := by
  simp only [step]
  split
  · next hr hs => simp [hr, hs, eq_comm]
  · next h => simp only [reduceCtorEq, false_iff]; rintro ⟨hr, hs, _⟩; exact h hr hs

theorem step_snapshot : step s (.snapshot σ side) = some s' ↔
    s.phase σ side = .requested ∧
      s' = s.put σ side (.snapped (snapshotAt (chatRef (side.owner σ)) s.db)) := by
  simp only [step]
  split
  · next h => simp [h, eq_comm]
  · next h => simp only [reduceCtorEq, false_iff]; rintro ⟨hr, _⟩; exact h hr

theorem step_callback : step s (.callback σ side key text) = some s' ↔
    ∃ snapshot, s.phase σ side = .snapped snapshot ∧ key ∉ s.keys ∧
      s.db.get (messageRef (side.owner σ) (side.peer σ) key) = .null ∧
      s' = { s.put σ side (.issued (issue side σ snapshot key text)) with
        queue := Function.update s.queue σ.client
          (s.queue σ.client ++ leg side σ snapshot key text)
        keys := key :: s.keys } := by
  simp only [step]
  split
  · next snapshot h =>
    simp only [h, Phase.snapped.injEq, exists_eq_left']
    split_ifs with hk
    · simp only [false_iff]; tauto
    · rw [not_or, not_ne_iff] at hk; simp [hk, eq_comm]
  · next h => simp only [reduceCtorEq, false_iff]; rintro ⟨snapshot, hs, _⟩; exact h snapshot hs

theorem pop_eq {o : Outcome} {w : Write} : s.pop σ side kind o = some (w, s') ↔
    ∃ i ws, s.phase σ side = .issued i ∧ s.queue σ.client = w :: ws ∧
      w.send = σ ∧ w.side = side ∧ w.kind = kind ∧
      s' = { s.put σ side (.issued (i.settle o kind)) with
        queue := Function.update s.queue σ.client ws } := by
  simp only [State.pop]
  split
  · next i w' ws hp hq =>
    simp only [hp, hq, Phase.issued.injEq, List.cons.injEq]
    split_ifs with h
    · simp only [Option.some.injEq, Prod.mk.injEq]
      constructor
      · rintro ⟨rfl, rfl⟩; exact ⟨i, ws, rfl, ⟨rfl, rfl⟩, h.1, h.2.1, h.2.2, rfl⟩
      · rintro ⟨_, _, rfl, ⟨rfl, rfl⟩, _, _, _, rfl⟩; exact ⟨rfl, rfl⟩
    · simp only [false_iff]
      rintro ⟨_, _, rfl, ⟨rfl, rfl⟩, h1, h2, h3, _⟩; exact h ⟨h1, h2, h3⟩
  · next h =>
    simp only [reduceCtorEq, false_iff]
    rintro ⟨i, ws, hp, hq, _⟩; exact h i w ws hp hq

theorem step_store : step s (.store σ side kind now) = some s' ↔
    ∃ w s₁, s.pop σ side kind .stored = some (w, s₁) ∧
      s' = { s₁ with db := s₁.db.set w.path (resolve now w.value) } := by
  simp only [step, Option.bind_eq_bind, Option.bind_eq_some_iff, Prod.exists, Option.some.injEq]
  exact ⟨fun ⟨w, s₁, hp, hs⟩ => ⟨w, s₁, hp, hs.symm⟩, fun ⟨w, s₁, hp, hs⟩ => ⟨w, s₁, hp, hs.symm⟩⟩

theorem step_reject : step s (.reject σ side kind) = some s' ↔
    ∃ w, s.pop σ side kind .failed = some (w, s') := by
  simp only [step, Option.bind_eq_bind, Option.bind_eq_some_iff, Prod.exists, Option.some.injEq]
  exact ⟨fun ⟨w, s₁, hp, hs⟩ => ⟨w, hs ▸ hp⟩, fun ⟨w, hp⟩ => ⟨w, s', hp, rfl⟩⟩

theorem step_complete : step s (.complete σ side) = some s' ↔
    ∃ i, s.phase σ side = .issued i ∧ (i.message = .stored ∨ i.message = .failed) ∧
      i.reported = false ∧ s' = s.put σ side (.issued { i with reported := true }) := by
  simp only [step]
  split
  · next i hp =>
    simp only [hp, Phase.issued.injEq, exists_eq_left']
    split_ifs with h
    · simp only [h.1, h.2, true_and, Option.some.injEq]; exact eq_comm
    · simp only [false_iff]; rintro ⟨h1, h2, _⟩; exact h ⟨h1, h2⟩
  · next h => simp only [reduceCtorEq, false_iff]; rintro ⟨i, hp, _⟩; exact h i hp

end Inversion

/-- Does the event move this leg? -/
def Event.moves (σ : Send) (side : Side) : Event → Prop
  | .tap τ => τ = σ
  | .snapshot τ sd | .callback τ sd _ _ | .store τ sd _ _ | .reject τ sd _ | .complete τ sd =>
    τ = σ ∧ sd = side

/-- How an event moves a leg, given the database before it. -/
inductive Advance (db : Value) (σ : Send) (side : Side) : Event → Phase → Phase → Prop
  | tap : Advance db σ side (.tap σ) .idle .requested
  | snapshot : Advance db σ side (.snapshot σ side) .requested
      (.snapped (snapshotAt (chatRef (side.owner σ)) db))
  | callback (snapshot : DataSnapshot) (key text : String) :
      Advance db σ side (.callback σ side key text) (.snapped snapshot)
        (.issued (issue side σ snapshot key text))
  | store (i : Issued) (kind : Kind) (now : Rat) :
      Advance db σ side (.store σ side kind now) (.issued i) (.issued (i.settle .stored kind))
  | reject (i : Issued) (kind : Kind) :
      Advance db σ side (.reject σ side kind) (.issued i) (.issued (i.settle .failed kind))
  | complete (i : Issued) : (i.message = .stored ∨ i.message = .failed) →
      Advance db σ side (.complete σ side) (.issued i) (.issued { i with reported := true })

/-- A step moves the legs it is about and leaves the others where they are. -/
theorem phase_step {s s' : State} {e : Event} (h : step s e = some s') (σ : Send) (side : Side) :
    (¬ e.moves σ side ∧ s'.phase σ side = s.phase σ side) ∨
      Advance s.db σ side e (s.phase σ side) (s'.phase σ side) := by
  have hput : ∀ (t : State) (τ : Send) (sd : Side) (ph : Phase), ¬ (τ = σ ∧ sd = side) →
      (t.put τ sd ph).phase σ side = t.phase σ side := by
    intro t τ sd ph hne
    rw [put_phase, if_neg]; rintro ⟨rfl, rfl⟩; exact hne ⟨rfl, rfl⟩
  have hself : ∀ (t : State) (ph : Phase), (t.put σ side ph).phase σ side = ph := by simp
  cases e with
  | tap τ =>
    obtain ⟨hr, hse, rfl⟩ := step_tap.mp h
    by_cases hτ : τ = σ
    · subst hτ
      right
      cases side with
      | receiver =>
        rw [hput _ _ _ _ (by simp), hself, hr]; exact .tap
      | sender => rw [hself, hse]; exact .tap
    · left
      refine ⟨hτ, ?_⟩
      rw [hput _ _ _ _ (fun h => hτ h.1), hput _ _ _ _ (fun h => hτ h.1)]
  | snapshot τ sd =>
    obtain ⟨hp, rfl⟩ := step_snapshot.mp h
    by_cases hτ : τ = σ ∧ sd = side
    · obtain ⟨rfl, rfl⟩ := hτ
      right; rw [hself, hp]; exact .snapshot
    · exact Or.inl ⟨hτ, hput _ _ _ _ hτ⟩
  | callback τ sd key text =>
    obtain ⟨snapshot, hp, -, -, rfl⟩ := step_callback.mp h
    by_cases hτ : τ = σ ∧ sd = side
    · obtain ⟨rfl, rfl⟩ := hτ
      right
      have hnew := hself s (.issued (issue sd τ snapshot key text))
      simp only [hnew, hp]; exact .callback snapshot key text
    · exact Or.inl ⟨hτ, hput _ _ _ _ hτ⟩
  | store τ sd kind now =>
    obtain ⟨w, s₁, hpop, rfl⟩ := step_store.mp h
    obtain ⟨i, ws, hp, -, -, -, -, rfl⟩ := pop_eq.mp hpop
    by_cases hτ : τ = σ ∧ sd = side
    · obtain ⟨rfl, rfl⟩ := hτ
      right
      have hnew := hself s (.issued (i.settle .stored kind))
      simp only [hnew, hp]; exact .store i kind now
    · exact Or.inl ⟨hτ, hput _ _ _ _ hτ⟩
  | reject τ sd kind =>
    obtain ⟨w, hpop⟩ := step_reject.mp h
    obtain ⟨i, ws, hp, -, -, -, -, rfl⟩ := pop_eq.mp hpop
    by_cases hτ : τ = σ ∧ sd = side
    · obtain ⟨rfl, rfl⟩ := hτ
      right
      have hnew := hself s (.issued (i.settle .failed kind))
      simp only [hnew, hp]; exact .reject i kind
    · exact Or.inl ⟨hτ, hput _ _ _ _ hτ⟩
  | complete τ sd =>
    obtain ⟨i, hp, hdone, -, rfl⟩ := step_complete.mp h
    by_cases hτ : τ = σ ∧ sd = side
    · obtain ⟨rfl, rfl⟩ := hτ
      right; rw [hself, hp]; exact .complete i hdone
    · exact Or.inl ⟨hτ, hput _ _ _ _ hτ⟩

/-- A step adds to the queue of a device what a callback issues, or takes its first write. -/
theorem queue_step {s s' : State} {e : Event} (h : step s e = some s') (c : ℕ) :
    (∃ ws, s'.queue c = s.queue c ++ ws) ∨ ∃ w, s.queue c = w :: s'.queue c := by
  have hpop : ∀ {σ : Send} {side : Side} {kind : Kind} {o : Outcome} {w : Write} {s₁ : State},
      s.pop σ side kind o = some (w, s₁) →
        (∃ ws, s₁.queue c = s.queue c ++ ws) ∨ ∃ w, s.queue c = w :: s₁.queue c := by
    intro σ side kind o w s₁ hp
    obtain ⟨i, ws, -, hq, -, -, -, rfl⟩ := pop_eq.mp hp
    by_cases hc : c = σ.client
    · subst hc
      exact Or.inr ⟨w, by simp only [Function.update_self, hq]⟩
    · exact Or.inl ⟨[], by simp only [Function.update_of_ne hc, List.append_nil]⟩
  cases e with
  | tap σ =>
    obtain ⟨-, -, rfl⟩ := step_tap.mp h
    exact Or.inl ⟨[], (List.append_nil _).symm⟩
  | snapshot σ side =>
    obtain ⟨-, rfl⟩ := step_snapshot.mp h
    exact Or.inl ⟨[], (List.append_nil _).symm⟩
  | callback σ side key text =>
    obtain ⟨snapshot, -, -, -, rfl⟩ := step_callback.mp h
    by_cases hc : c = σ.client
    · subst hc
      exact Or.inl ⟨_, Function.update_self ..⟩
    · exact Or.inl ⟨[], by simp only [Function.update_of_ne hc, List.append_nil]⟩
  | store σ side kind now =>
    obtain ⟨w, s₁, hp, rfl⟩ := step_store.mp h
    have hqueue := hpop hp
    exact hqueue
  | reject σ side kind =>
    obtain ⟨w, hp⟩ := step_reject.mp h
    exact hpop hp
  | complete σ side =>
    obtain ⟨i, -, -, -, rfl⟩ := step_complete.mp h
    exact Or.inl ⟨[], (List.append_nil _).symm⟩

/-! ### The writes of a leg -/

/-- The write of each kind that a leg issues. -/
def writeOf (σ : Send) (side : Side) (i : Issued) : Kind → Write
  | .header => ⟨σ, side, .header, side.conversation σ, headerObject (side.author σ)⟩
  | .message => ⟨σ, side, .message, messageRef (side.owner σ) (side.peer σ) i.key,
      messageObject side.isSender i.text⟩

/-- Where in its copy of the conversation a leg writes. -/
def Issued.below (i : Issued) : Kind → Path
  | .header => []
  | .message => ["messages", i.key]

theorem writeOf_path (σ : Send) (side : Side) (i : Issued) (kind : Kind) :
    (writeOf σ side i kind).path = side.conversation σ ++ i.below kind := by
  cases kind with
  | header => exact (List.append_nil _).symm
  | message => rfl

/-- A leg writes at or below its own copy of the conversation and nowhere in another. -/
theorem get_set_writeOf_of_ne {σ : Send} {side : Side} {x y : String} (i : Issued) (kind : Kind)
    (h : ¬ (side.owner σ = x ∧ side.peer σ = y)) (q : Path) (v db : Value) :
    (db.set (writeOf σ side i kind).path v).get (conversationRef x y ++ q) =
      db.get (conversationRef x y ++ q) := by
  rw [writeOf_path]
  exact Node.get_set_apart (apart_conversation_below (not_and_or.mp h) _ _) _ _

theorem leg_writes {σ : Send} {side : Side} {snapshot : DataSnapshot}
    (hs : snapshot.ref = chatRef (side.owner σ)) (key text : String) :
    leg side σ snapshot key text =
      if (issue side σ snapshot key text).created then
        [writeOf σ side (issue side σ snapshot key text) .header,
          writeOf σ side (issue side σ snapshot key text) .message]
      else [writeOf σ side (issue side σ snapshot key text) .message] := by
  rw [leg_eq]
  cases hc : snapshot.hasChild (side.peer σ) <;>
    simp [legWrites, issue, hc, writeOf, hs, Side.conversation, messageRef, conversationRef]

theorem writeOf_congr {σ : Send} {side : Side} {i i' : Issued} (hk : i'.key = i.key)
    (ht : i'.text = i.text) (kind : Kind) : writeOf σ side i' kind = writeOf σ side i kind := by
  cases kind <;> simp [writeOf, hk, ht]

/-- A header write empties the messages of its conversation and of no other. -/
theorem get_message_set_header (db : Value) (o p o' p' k : String) (now : Rat)
    (a : UserProfile) :
    (db.set (conversationRef o p) (resolve now (headerObject a))).get (messageRef o' p' k) =
      if o = o' ∧ p = p' then .null else db.get (messageRef o' p' k) := by
  split_ifs with h
  · obtain ⟨rfl, rfl⟩ := h
    have hm : (resolve now (headerObject a)).child "messages" = .null :=
      child_resolve_null (by simp [headerObject])
    rw [messageRef, Node.get_set]
    simp [hm]
  · refine Node.get_set_apart ?_ _ _
    have hap := apart_conversation_below (not_and_or.mp h) [] ["messages", k]
    simpa [messageRef] using hap

omit [URLSyntax] in
/-- A message write touches no other message. -/
theorem get_message_set_message {db v : Value} {o p k o' p' k' : String}
    (h : o ≠ o' ∨ p ≠ p' ∨ k ≠ k') :
    (db.set (messageRef o p k) v).get (messageRef o' p' k') = db.get (messageRef o' p' k') :=
  Node.get_set_apart (apart_message h) _ _

omit [URLSyntax] in
theorem messageObject_ne_null (isSender : Bool) (text : String) (now : Rat) :
    resolve now (messageObject isSender text) ≠ .null := by
  refine resolve_ne_null (Node.ne_null_of_child (k := "text") ?_)
  simp [messageObject]

end PostApp.Chat
