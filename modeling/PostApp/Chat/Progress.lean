import Mathlib.Algebra.GroupWithZero.Nat
import Mathlib.Algebra.Order.BigOperators.Group.List
import Mathlib.Data.Fintype.EquivFin
import PostApp.Chat.Outcome
import PostApp.Schemes.Settle

/-! Every send is answered.

    A tap sets off ten events at most: for each leg its snapshot, its callback, the fate of its writes
    and the completion. None of them waits for anything but an earlier one: a pending write is in the
    queue of its device, and the head of a queue can always be judged. So a chat in which nobody taps
    comes to rest, and then every tap has been answered (`comes_to_rest`). -/

namespace PostApp.Chat
open Schemes
variable [URLSyntax]

def Event.isTap : Event → Bool
  | .tap _ => true
  | _ => false

/-- The sends that have been tapped. -/
def taps (es : List Event) : List Send :=
  es.filterMap (fun e => match e with | .tap σ => some σ | _ => none)

def Outcome.rank : Outcome → ℕ
  | .pending => 1
  | .notIssued | .stored | .failed => 0

/-- The events that a leg is still waiting for, at most. -/
def Phase.rank : Phase → ℕ
  | .idle => 0
  | .requested => 5
  | .snapped _ => 4
  | .issued i => i.header.rank + i.message.rank + (!i.reported).toNat

/-- The events that the tapped sends are still waiting for, at most. -/
def State.rank (σs : List Send) (s : State) : ℕ :=
  (σs.map (fun σ => (s.phase σ .receiver).rank + (s.phase σ .sender).rank)).sum

/-- All writes of the leg have completed and its completion has run. -/
def Phase.Answered (ph : Phase) : Prop :=
  ∃ i, ph = .issued i ∧ i.Settled ∧ i.completion ≠ none

/-- Both legs of all these sends have been answered, and no write is queued. -/
def AllAnswered (σs : List Send) (s : State) : Prop :=
  (∀ σ ∈ σs, ∀ side, (s.phase σ side).Answered) ∧ ∀ c, s.queue c = []

/-- What progress rests on: a leg is under way only after its tap, its pending writes are queued, and
    its completion has not run before its message was judged. -/
structure Live (σs : List Send) (s : State) : Prop where
  wf : Wf s
  tapped : ∀ σ side, s.phase σ side ≠ .idle ↔ σ ∈ σs
  waits : ∀ σ side i kind, s.phase σ side = .issued i → i.outcome kind = .pending →
    writeOf σ side i kind ∈ s.queue σ.client
  issued : ∀ σ side i, s.phase σ side = .issued i → i.message ≠ .notIssued
  reported : ∀ σ side i, s.phase σ side = .issued i → i.reported = true → i.message ≠ .pending

/-! ### The invariant -/

theorem live_init (db : Value) : Live [] (init db) :=
  ⟨wf_init db, fun _ _ => by simp [init], fun _ _ _ _ h => (by cases h), fun _ _ _ h => (by cases h),
    fun _ _ _ h => (by cases h)⟩

section Step
variable {σs : List Send} {s s' : State} {σ : Send} {side : Side} {e : Event}

/-- A leg after a step: its message has been issued, and is judged before it is reported. -/
theorem judged_step (hs : Live σs s) (h : step s e = some s') {i : Issued}
    (hi : s'.phase σ side = .issued i) :
    i.message ≠ .notIssued ∧ (i.reported = true → i.message ≠ .pending) := by
  rcases phase_step h σ side with ⟨-, heq⟩ | hadv
  · rw [heq] at hi
    exact ⟨hs.issued σ side i hi, hs.reported σ side i hi⟩
  · rw [hi] at hadv
    generalize hph : s.phase σ side = ph at hadv
    cases hadv with
    | callback snapshot key text =>
      rw [issue]
      split_ifs <;> simp
    | store j kind now =>
      have hj := hs.issued σ side j hph
      have hrep := hs.reported σ side j hph
      cases kind with
      | header => exact ⟨hj, hrep⟩
      | message => simp [Issued.settle]
    | reject j kind =>
      have hj := hs.issued σ side j hph
      have hrep := hs.reported σ side j hph
      cases kind with
      | header => exact ⟨hj, hrep⟩
      | message => simp [Issued.settle]
    | complete j hdone =>
      refine ⟨hs.issued σ side j hph, fun _ hpend => ?_⟩
      rcases hdone with hst | hst <;> exact absurd (hst.symm.trans hpend) (by simp)

/-- Judging the head of a queue takes nothing else out of it. -/
theorem waits_pop {kind : Kind} {o : Outcome} {w : Write} (hs : Live σs s) (ho : o ≠ .pending)
    (h : s.pop σ side kind o = some (w, s')) {τ : Send} {sd : Side} {j : Issued} {kind' : Kind}
    (hj : s'.phase τ sd = .issued j) (hpend : j.outcome kind' = .pending) :
    writeOf τ sd j kind' ∈ s'.queue τ.client := by
  obtain ⟨i, ws, hp, -, rfl, hq, rfl⟩ := pop_wf hs.wf h
  -- what is queued and is not the head stays queued
  have hkeep : ∀ w' ∈ s.queue τ.client, w' ≠ writeOf σ side i kind →
      w' ∈ Function.update s.queue σ.client ws τ.client := by
    intro w' hw' hne
    by_cases hc : τ.client = σ.client
    · rw [hc, hq] at hw'
      rw [hc, Function.update_self]
      exact (List.mem_cons.mp hw').resolve_left hne
    · rwa [Function.update_of_ne hc]
  simp only [put_phase] at hj
  split_ifs at hj with heq
  · obtain ⟨rfl, rfl⟩ := heq
    cases hj
    have hkind : kind' ≠ kind := by
      rintro rfl
      rw [outcome_settle] at hpend
      exact ho hpend
    rw [outcome_settle_ne hkind] at hpend
    rw [writeOf_congr (key_settle ..) (text_settle ..)]
    refine hkeep _ (hs.waits τ sd i kind' hp hpend) ?_
    intro hw
    have hk := congrArg Write.kind hw
    cases kind <;> cases kind' <;> first | exact hkind rfl | cases hk
  · refine hkeep _ (hs.waits τ sd j kind' hj hpend) ?_
    intro hw
    have hsend := congrArg Write.send hw
    have hside := congrArg Write.side hw
    cases kind <;> cases kind' <;> exact heq ⟨hsend, hside⟩

/-- A pending write is in the queue of its device. -/
theorem waits_step (hs : Live σs s) (h : step s e = some s') {i : Issued} {kind : Kind}
    (hi : s'.phase σ side = .issued i) (hpend : i.outcome kind = .pending) :
    writeOf σ side i kind ∈ s'.queue σ.client := by
  cases e with
  | tap τ =>
    obtain ⟨-, -, rfl⟩ := step_tap.mp h
    simp only [put_phase] at hi
    split_ifs at hi
    exact hs.waits σ side i kind hi hpend
  | snapshot τ sd =>
    obtain ⟨-, rfl⟩ := step_snapshot.mp h
    simp only [put_phase] at hi
    split_ifs at hi
    exact hs.waits σ side i kind hi hpend
  | callback τ sd key text =>
    obtain ⟨snapshot, hp, -, -, rfl⟩ := step_callback.mp h
    have hwrites := leg_writes (hs.wf.snapped τ sd snapshot hp) key text
    simp only [put_phase] at hi
    split_ifs at hi with heq
    · obtain ⟨rfl, rfl⟩ := heq
      cases hi
      simp only [Function.update_self]
      refine List.mem_append_right _ ?_
      rw [hwrites]
      cases kind with
      | message => split_ifs <;> simp
      | header =>
        -- a header is pending only if the callback wrote one
        have hc : (issue side σ snapshot key text).created = true := by
          rw [issue] at hpend ⊢
          split_ifs at hpend ⊢
          · cases hpend
          · rfl
        rw [if_pos hc]
        exact List.mem_cons_self ..
    · have hold := hs.waits σ side i kind hi hpend
      by_cases hc : σ.client = τ.client
      · rw [hc] at hold ⊢
        simp only [Function.update_self]
        exact List.mem_append_left _ hold
      · simp only [Function.update_of_ne hc]
        exact hold
  | store τ sd kind' now =>
    obtain ⟨w, s₁, hpop, rfl⟩ := step_store.mp h
    exact waits_pop hs (by simp) hpop hi hpend
  | reject τ sd kind' =>
    obtain ⟨w, hpop⟩ := step_reject.mp h
    exact waits_pop hs (by simp) hpop hi hpend
  | complete τ sd =>
    obtain ⟨j, hp, -, -, rfl⟩ := step_complete.mp h
    simp only [put_phase] at hi
    split_ifs at hi with heq
    · obtain ⟨rfl, rfl⟩ := heq
      cases hi
      have hpend' : j.outcome kind = .pending := by cases kind <;> exact hpend
      have hold := hs.waits σ side j kind hp hpend'
      cases kind <;> exact hold
    · exact hs.waits σ side i kind hi hpend

/-- A tap sets a leg going, and nothing sets it back. -/
theorem tapped_step (hs : Live σs s) (h : step s e = some s') :
    s'.phase σ side ≠ .idle ↔ σ ∈ σs ++ taps [e] := by
  rw [List.mem_append, ← hs.tapped σ side]
  rcases phase_step h σ side with ⟨hmoves, heq⟩ | hadv
  · rw [heq]
    refine (or_iff_left ?_).symm
    intro hmem
    cases e with
    | tap τ => exact hmoves (List.mem_singleton.mp hmem).symm
    | snapshot | callback | store | reject | complete => cases hmem
  · generalize s.phase σ side = ph at hadv
    generalize s'.phase σ side = ph' at hadv
    cases hadv <;> simp [taps]

theorem live_step (hs : Live σs s) (h : step s e = some s') : Live (σs ++ taps [e]) s' where
  wf := wf_step hs.wf h
  tapped := fun _ _ => tapped_step hs h
  waits := fun _ _ _ _ hi hpend => waits_step hs h hi hpend
  issued := fun _ _ _ hi => (judged_step hs h hi).1
  reported := fun _ _ _ hi => (judged_step hs h hi).2

end Step

theorem live_run {db : Value} {es : List Event} {s : State} (h : run step (init db) es = some s) :
    Live (taps es) s := by
  refine run_history (I := fun pre s => Live (taps pre) s) (live_init db) ?_ h
  intro pre s e s' hs h
  rw [taps, List.filterMap_append]
  exact live_step hs h

/-! ### The rank -/

section Rank
variable {σs : List Send} {s s' : State} {σ : Send} {side : Side} {kind : Kind} {e : Event}

omit [URLSyntax] in
theorem Outcome.rank_eq_zero {o : Outcome} (h : o ≠ .pending) : o.rank = 0 := by
  cases o <;> first | rfl | exact absurd rfl h

omit [URLSyntax] in
/-- Recording the fate of a pending write lowers the rank of its leg. -/
theorem rank_settle {i : Issued} {o : Outcome} (hpend : i.outcome kind = .pending)
    (ho : o ≠ .pending) : (Phase.issued (i.settle o kind)).rank < (Phase.issued i).rank := by
  have hzero := Outcome.rank_eq_zero ho
  have hone : (i.outcome kind).rank = 1 := congrArg Outcome.rank hpend
  cases kind with
  | header =>
    simp only [Phase.rank, Issued.settle, Issued.outcome] at hone ⊢
    omega
  | message =>
    simp only [Phase.rank, Issued.settle, Issued.outcome] at hone ⊢
    omega

/-- An event lowers the rank of the leg it moves. -/
theorem rank_moves (hs : Live σs s) (h : step s e = some s') (he : e.isTap = false)
    (hmoves : e.moves σ side) : (s'.phase σ side).rank < (s.phase σ side).rank := by
  cases e with
  | tap τ => cases he
  | snapshot τ sd =>
    obtain ⟨rfl, rfl⟩ := hmoves
    obtain ⟨hp, rfl⟩ := step_snapshot.mp h
    simp [hp, Phase.rank]
  | callback τ sd key text =>
    obtain ⟨rfl, rfl⟩ := hmoves
    obtain ⟨snapshot, hp, -, -, rfl⟩ := step_callback.mp h
    simp only [put_phase, and_self, if_true, hp, issue]
    split_ifs <;> simp [Phase.rank, Outcome.rank]
  | store τ sd kind now =>
    obtain ⟨rfl, rfl⟩ := hmoves
    obtain ⟨w, s₁, hpop, rfl⟩ := step_store.mp h
    obtain ⟨i, ws, hp, hpend, -, -, rfl⟩ := pop_wf hs.wf hpop
    simp only [put_phase, and_self, if_true, hp]
    exact rank_settle hpend (by simp)
  | reject τ sd kind =>
    obtain ⟨rfl, rfl⟩ := hmoves
    obtain ⟨w, hpop⟩ := step_reject.mp h
    obtain ⟨i, ws, hp, hpend, -, -, rfl⟩ := pop_wf hs.wf hpop
    simp only [put_phase, and_self, if_true, hp]
    exact rank_settle hpend (by simp)
  | complete τ sd =>
    obtain ⟨rfl, rfl⟩ := hmoves
    obtain ⟨i, hp, -, hrep, rfl⟩ := step_complete.mp h
    simp [hp, Phase.rank, hrep]

theorem rank_le (hs : Live σs s) (h : step s e = some s') (he : e.isTap = false) (σ : Send)
    (side : Side) : (s'.phase σ side).rank ≤ (s.phase σ side).rank := by
  by_cases hmoves : e.moves σ side
  · exact Nat.le_of_lt (rank_moves hs h he hmoves)
  · rcases phase_step h σ side with ⟨-, heq⟩ | hadv
    · rw [heq]
    · refine absurd ?_ hmoves
      generalize s.phase σ side = ph at hadv
      generalize s'.phase σ side = ph' at hadv
      cases hadv <;> first | exact ⟨rfl, rfl⟩ | rfl

/-- Every event other than a tap moves one leg. -/
theorem exists_moves (he : e.isTap = false) : ∃ σ side, e.moves σ side := by
  cases e with
  | tap τ => cases he
  | snapshot τ sd | callback τ sd _ _ | store τ sd _ _ | reject τ sd _ | complete τ sd =>
    exact ⟨τ, sd, rfl, rfl⟩

theorem rank_step (hs : Live σs s) (h : step s e = some s') (he : e.isTap = false) :
    s'.rank σs < s.rank σs := by
  obtain ⟨σ, side, hmoves⟩ := exists_moves he
  have hlt := rank_moves hs h he hmoves
  have hσ : σ ∈ σs := by
    refine (hs.tapped σ side).mp ?_
    intro hidle
    rw [hidle] at hlt
    exact absurd hlt (Nat.not_lt_zero _)
  refine List.sum_lt_sum _ _ ?_ ⟨σ, hσ, ?_⟩
  · intro τ _
    exact Nat.add_le_add (rank_le hs h he τ .receiver) (rank_le hs h he τ .sender)
  · have hr := rank_le hs h he σ .receiver
    have hse := rank_le hs h he σ .sender
    cases side with
    | receiver => omega
    | sender => omega

omit [URLSyntax] in
theorem Phase.rank_le (ph : Phase) : ph.rank ≤ 5 := by
  have hle : ∀ o : Outcome, o.rank ≤ 1 := by
    intro o
    cases o <;> simp [Outcome.rank]
  cases ph with
  | idle | requested | snapped _ => simp [Phase.rank]
  | issued i =>
    have hh := hle i.header
    have hm := hle i.message
    have hb := Bool.toNat_le (!i.reported)
    simp only [Phase.rank]
    omega

theorem rank_taps_le (σs : List Send) (s : State) : s.rank σs ≤ 10 * σs.length := by
  induction σs with
  | nil => exact Nat.le_refl _
  | cons σ σs ih =>
    have hr := Phase.rank_le (s.phase σ .receiver)
    have hse := Phase.rank_le (s.phase σ .sender)
    simp only [State.rank, List.map_cons, List.sum_cons, List.length_cons] at ih ⊢
    omega

theorem taps_of_not_tap (he : e.isTap = false) : taps [e] = [] := by
  cases e <;> first | rfl | cases he

/-- Without new taps, every event lowers the rank of the chat. -/
theorem lowers (σs : List Send) : Lowers step (Live σs) (fun e => e.isTap = false) (State.rank σs) where
  keeps := by
    intro s e s' hs he h
    have hlive := live_step hs h
    rwa [taps_of_not_tap he, List.append_nil] at hlive
  lower := fun _ _ _ hs he h => rank_step hs h he

end Rank

/-! ### What is still enabled -/

section Enabled
variable {σs : List Send} {s : State} {σ : Send} {side : Side}

/-- `childByAutoId` can always make a new key. -/
theorem exists_fresh (s : State) (σ : Send) (side : Side) : ∃ key, key ∉ s.keys ∧
    s.db.get (messageRef (side.owner σ) (side.peer σ) key) = .null := by
  let node : Value := s.db.get (side.conversation σ ++ ["messages"])
  obtain ⟨key, hkey⟩ := Infinite.exists_notMem_finset
    (s.keys ++ node.children.map Prod.fst).toFinset
  rw [List.mem_toFinset, List.mem_append, not_or] at hkey
  refine ⟨key, hkey.1, ?_⟩
  have hpath : messageRef (side.owner σ) (side.peer σ) key =
      (side.conversation σ ++ ["messages"]) ++ [key] := by
    simp [messageRef, Side.conversation]
  rw [hpath, Node.get_append]
  by_contra hne
  exact hkey.2 (List.mem_map.mpr ⟨(key, _), Node.mem_children.mpr ⟨rfl, hne⟩, rfl⟩)

/-- The head of a queue can be judged. -/
theorem head_enabled (hs : Live σs s) {c : ℕ} (hq : s.queue c ≠ []) :
    ∃ e s', e.isTap = false ∧ step s e = some s' := by
  obtain ⟨w, ws, hcons⟩ := List.exists_cons_of_ne_nil hq
  obtain ⟨hc, i, hp, -, -⟩ := hs.wf.queued c w (by rw [hcons]; exact List.mem_cons_self ..)
  rw [← hc] at hcons
  have hpop := (pop_eq (o := .failed)).mpr ⟨i, ws, hp, hcons, rfl, rfl, rfl, rfl⟩
  exact ⟨.reject w.send w.side w.kind, _, rfl, step_reject.mpr ⟨w, hpop⟩⟩

/-- A leg that has been tapped and not answered keeps something enabled. -/
theorem leg_enabled (hs : Live σs s) (hσ : s.phase σ side ≠ .idle)
    (hno : ¬ (s.phase σ side).Answered) : ∃ e s', e.isTap = false ∧ step s e = some s' := by
  cases hp : s.phase σ side with
  | idle => exact absurd hp hσ
  | requested => exact ⟨.snapshot σ side, _, rfl, step_snapshot.mpr ⟨hp, rfl⟩⟩
  | snapped snapshot =>
    obtain ⟨key, hkey, hnull⟩ := exists_fresh s σ side
    exact ⟨.callback σ side key "", _, rfl, step_callback.mpr ⟨snapshot, hp, hkey, hnull, rfl⟩⟩
  | issued i =>
    have hqueue : ∀ kind, i.outcome kind = .pending → ∃ e s', e.isTap = false ∧ step s e = some s' :=
      fun kind hpend => head_enabled hs (List.ne_nil_of_mem (hs.waits σ side i kind hp hpend))
    by_cases hh : i.header = .pending
    · exact hqueue .header hh
    · by_cases hm : i.message = .pending
      · exact hqueue .message hm
      · have hjudged : i.message = .stored ∨ i.message = .failed := by
          have hne := hs.issued σ side i hp
          cases hmsg : i.message <;> simp_all
        have hrep : i.reported = false := by
          by_contra hne
          refine hno ⟨i, hp, ⟨hh, hm⟩, ?_⟩
          rw [Bool.not_eq_false] at hne
          rw [Issued.completion, if_pos hne]
          simp
        exact ⟨.complete σ side, _, rfl, step_complete.mpr ⟨i, hp, hjudged, hrep, rfl⟩⟩

theorem progress (hs : Live σs s) (hno : ¬ AllAnswered σs s) :
    ∃ e s', e.isTap = false ∧ step s e = some s' := by
  by_cases hlegs : ∀ σ ∈ σs, ∀ side, (s.phase σ side).Answered
  · have hqueue : ∃ c, s.queue c ≠ [] := by
      by_contra hall
      rw [not_exists] at hall
      exact hno ⟨hlegs, fun c => not_ne_iff.mp (hall c)⟩
    obtain ⟨c, hq⟩ := hqueue
    exact head_enabled hs hq
  · simp only [not_forall] at hlegs
    obtain ⟨σ, hσ, side, hleg⟩ := hlegs
    exact leg_enabled hs ((hs.tapped σ side).mpr hσ) hleg

end Enabled

/-- From any state that a run reaches, the events other than taps lead to rest: no run of them is
    longer than ten events for each tap made so far, one that cannot be continued has answered both
    legs of every tap and emptied every queue, and there is such a run. -/
theorem comes_to_rest (db : Value) (es : List Event) (s : State)
    (h : run step (init db) es = some s) :
    (∀ es' s', (∀ e ∈ es', e.isTap = false) → run step s es' = some s' →
      es'.length ≤ 10 * (taps es).length ∧
        ((∀ e, e.isTap = false → step s' e = none) → AllAnswered (taps es) s')) ∧
    ∃ es' s', (∀ e ∈ es', e.isTap = false) ∧ run step s es' = some s' ∧
      AllAnswered (taps es) s' := by
  have hlive := live_run h
  refine ⟨?_, (lowers (taps es)).exists_rest (fun s hs hno => progress hs hno) s hlive⟩
  intro es' s' hquiet h'
  obtain ⟨hs', hlen⟩ := (lowers (taps es)).length_le hlive hquiet h'
  have hrank := rank_taps_le (taps es) s
  refine ⟨by omega, ?_⟩
  intro hstuck
  by_contra hno
  obtain ⟨e, s'', he, hstep⟩ := progress hs' hno
  rw [hstuck e he] at hstep
  cases hstep

omit [URLSyntax] in
/-- A tap whose snapshots have not come yet: its send will be answered. -/
theorem comes_to_rest_tap : ∃ (_ : URLSyntax) (σ : Send) (s : State),
    run step (init .null) [.tap σ] = some s ∧
      ∃ es' s', (∀ e ∈ es', e.isTap = false) ∧ run step s es' = some s' ∧ AllAnswered [σ] s' := by
  let _ := nonEmptyURLs
  let σ : Send := ⟨0, 0, 0, ann, bob⟩
  obtain ⟨s, hs, -⟩ := exists_of_run_any step (init .null) [.tap σ] (fun _ => true) (by decide)
  exact ⟨nonEmptyURLs, σ, s, hs, (comes_to_rest .null [.tap σ] s hs).2⟩

end PostApp.Chat
