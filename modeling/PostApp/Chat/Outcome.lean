import PostApp.Chat.Invariant

/-! One send and the fate of its writes.

    A send makes up to four `setValue` calls: in each of the two copies the message, preceded by the
    author header where the conversation is new. Each of them succeeds or fails on its own and
    nothing is rolled back, so each copy is what its own writes have made of it, and the send is
    all-or-nothing only when the two legs happen to fare alike (`copies_by_outcome`). -/

namespace PostApp.Chat
open Schemes
variable [URLSyntax]

/-- What the completion of the message write reports, once it has run. -/
def Issued.completion (i : Issued) : Option Bool :=
  if i.reported then some (decide (i.message = .stored)) else none

/-- All writes of the leg have completed. -/
def Issued.Settled (i : Issued) : Prop := i.header ≠ .pending ∧ i.message ≠ .pending

/-- The leg's copy holds the message the leg wrote. -/
def Holds (s : State) (σ : Send) (side : Side) (i : Issued) : Prop :=
  ∃ now, s.db.get (messageRef (side.owner σ) (side.peer σ) i.key) =
    resolve now (messageObject side.isSender i.text)

/-- The leg's copy of the conversation has an author header. -/
def HasHeader (db : Value) (σ : Send) (side : Side) : Prop :=
  (db.get (side.conversation σ)).child "author" ≠ .null

/-- Both copies hold the message under an author header, or neither copy has changed. -/
def AllOrNothing (db : Value) (s : State) (σ : Send) (i : Side → Issued) : Prop :=
  (∀ side, Holds s σ side (i side) ∧ HasHeader s.db σ side) ∨
    ∀ side : Side, s.db.get (side.conversation σ) = db.get (side.conversation σ)

/-! ### The header goes first -/

/-- A pending header waits in the queue, and its message behind it. -/
def HeaderFirst (s : State) : Prop :=
  ∀ σ side i, s.phase σ side = .issued i → i.header = .pending →
    List.Sublist [writeOf σ side i .header, writeOf σ side i .message] (s.queue σ.client)

theorem headerFirst_init (db : Value) : HeaderFirst (init db) := fun _ _ _ h => (by cases h)

theorem message_pending {s : State} {σ : Send} {side : Side} {i : Issued} (hs : Wf s)
    (hf : HeaderFirst s) (hp : s.phase σ side = .issued i) (hh : i.header = .pending) :
    i.message = .pending := by
  have hmem : writeOf σ side i .message ∈ s.queue σ.client :=
    (hf σ side i hp hh).subset (by simp)
  obtain ⟨-, j, hj, -, hpend⟩ := hs.queued _ _ hmem
  rw [show (writeOf σ side i .message).send = σ from rfl,
    show (writeOf σ side i .message).side = side from rfl, hp] at hj
  cases hj
  exact hpend

/-- Popping a write keeps the order of what is left. -/
theorem headerFirst_pop {s s' : State} {σ : Send} {side : Side} {kind : Kind} {o : Outcome}
    {w : Write} (hs : Wf s) (hf : HeaderFirst s) (ho : o ≠ .pending)
    (h : s.pop σ side kind o = some (w, s')) : HeaderFirst s' := by
  obtain ⟨i, ws, hp, -, rfl, hq, rfl⟩ := pop_wf hs h
  have hnd := hs.nodup σ.client
  rw [hq] at hnd
  -- a sublist of the queue that does not start with the popped write stays one
  have htail : ∀ a l, List.Sublist (a :: l) (writeOf σ side i kind :: ws) →
      a ≠ writeOf σ side i kind → List.Sublist (a :: l) ws := by
    intro a l hsub hne
    cases hsub with
    | cons _ h => exact h
    | cons_cons _ h => exact absurd rfl hne
  intro τ sd j hj hh
  simp only [put_phase] at hj
  split_ifs at hj with heq
  · obtain ⟨rfl, rfl⟩ := heq
    cases hj
    cases kind with
    | header => exact absurd hh ho
    | message =>
      have hsub := hf τ sd i hp hh
      rw [hq] at hsub
      have hws := htail _ _ hsub (by simp [writeOf])
      -- the message itself would be queued twice
      exact absurd (hws.subset (by simp)) (List.nodup_cons.mp hnd).1
  · have hsub := hf τ sd j hj hh
    by_cases hc : τ.client = σ.client
    · rw [hc, hq] at hsub
      rw [hc]
      simp only [Function.update_self]
      refine htail _ _ hsub ?_
      intro hw
      have hsend := congrArg Write.send hw
      have hside := congrArg Write.side hw
      cases kind <;> exact heq ⟨hsend, hside⟩
    · simp only [Function.update_of_ne hc]
      exact hsub

theorem headerFirst_step {s s' : State} {e : Event} (hs : Wf s) (hf : HeaderFirst s)
    (h : step s e = some s') : HeaderFirst s' := by
  -- legs that are not issued have no header to queue
  have hput : ∀ (t : State) (σ : Send) (side : Side) (ph : Phase), HeaderFirst t →
      (∀ i, ph ≠ .issued i) → HeaderFirst (t.put σ side ph) := by
    intro t σ side ph ht hph τ sd i hi
    rw [put_phase] at hi
    split_ifs at hi
    · exact absurd hi (hph i)
    · exact ht τ sd i hi
  cases e with
  | tap σ =>
    obtain ⟨-, -, rfl⟩ := step_tap.mp h
    exact hput _ _ _ _ (hput _ _ _ _ hf (by simp)) (by simp)
  | snapshot σ side =>
    obtain ⟨-, rfl⟩ := step_snapshot.mp h
    exact hput _ _ _ _ hf (by simp)
  | callback σ side key text =>
    obtain ⟨snapshot, hp, -, -, rfl⟩ := step_callback.mp h
    have hwrites := leg_writes (hs.snapped σ side snapshot hp) key text
    intro τ sd j hj hh
    simp only [put_phase] at hj
    split_ifs at hj with heq
    · obtain ⟨rfl, rfl⟩ := heq
      cases hj
      simp only [Function.update_self]
      have hc : (issue sd τ snapshot key text).created = true := by
        rw [issue] at hh ⊢
        split_ifs at hh ⊢
        rfl
      rw [hwrites, if_pos hc]
      exact List.sublist_append_right ..
    · have hsub := hf τ sd j hj hh
      by_cases hc : τ.client = σ.client
      · rw [hc] at hsub ⊢
        simp only [Function.update_self]
        exact hsub.trans (List.sublist_append_left ..)
      · simp only [Function.update_of_ne hc]
        exact hsub
  | store σ side kind now =>
    obtain ⟨w, s₁, hpop, rfl⟩ := step_store.mp h
    have hf₁ := headerFirst_pop (o := .stored) hs hf (by simp) hpop
    exact hf₁
  | reject σ side kind =>
    obtain ⟨w, hpop⟩ := step_reject.mp h
    exact headerFirst_pop (o := .failed) hs hf (by simp) hpop
  | complete σ side =>
    obtain ⟨i, hp, -, -, rfl⟩ := step_complete.mp h
    intro τ sd j hj hh
    rw [put_phase] at hj
    split_ifs at hj with heq
    · obtain ⟨rfl, rfl⟩ := heq
      cases hj
      exact hf τ sd i hp hh
    · exact hf τ sd j hj hh

/-! ### A send on its own -/

/-- What the writes stored so far have made of the conversation `prior`. -/
def Written (prior content : Value) (σ : Send) (side : Side) (i : Issued) : Prop :=
  ∃ base t t',
    base = (if i.header = .stored then resolve t (headerObject (side.author σ)) else prior) ∧
    content = if i.message = .stored then
      base.set ["messages", i.key] (resolve t' (messageObject side.isSender i.text)) else base

/-- A state in which only the send `σ` has done anything since the database was `db`. -/
structure Alone (db : Value) (σ : Send) (s : State) : Prop where
  wf : Wf s
  first : HeaderFirst s
  before : ∀ side, (∀ i, s.phase σ side ≠ .issued i) →
    s.db.get (side.conversation σ) = db.get (side.conversation σ)
  snapped : ∀ side snapshot, s.phase σ side = .snapped snapshot →
    snapshot.value.child (side.peer σ) = db.get (side.conversation σ)
  /-- a header is written only where there was no conversation -/
  created : ∀ side i, s.phase σ side = .issued i → i.header ≠ .notIssued →
    db.get (side.conversation σ) = .null
  fresh : ∀ side i, s.phase σ side = .issued i →
    (db.get (side.conversation σ)).get ["messages", i.key] = .null
  written : ∀ side i, s.phase σ side = .issued i →
    Written (db.get (side.conversation σ)) (s.db.get (side.conversation σ)) σ side i

theorem alone_init (db : Value) (σ : Send) : Alone db σ (init db) :=
  ⟨wf_init db, headerFirst_init db, fun _ _ => rfl, fun _ _ h => (by cases h),
    fun _ _ h => (by cases h), fun _ _ h => (by cases h), fun _ _ h => (by cases h)⟩

/-- Neither leg touches the other copy. -/
theorem apart_other {σ : Send} (hne : σ.curentUser.uId ≠ σ.user.uId) {side sd : Side}
    (h : sd ≠ side) (i : Issued) (kind : Kind) :
    Apart (writeOf σ sd i kind).path (side.conversation σ) := by
  have hap : ∀ q, Apart (sd.conversation σ ++ q) (side.conversation σ ++ []) := by
    intro q
    refine apart_conversation_below (Or.inl ?_) q []
    cases side <;> cases sd <;> first | exact absurd rfl h | skip
    · exact hne
    · exact Ne.symm hne
  rw [List.append_nil] at hap
  cases kind with
  | header => simpa [writeOf] using hap []
  | message => exact hap ["messages", i.key]

/-- A step changes a copy only by storing a write of its leg there. -/
theorem conversation_step {s s' : State} {e : Event} {σ : Send} (hs : Wf s)
    (hne : σ.curentUser.uId ≠ σ.user.uId) (he : e.send = σ) (h : step s e = some s')
    (side : Side) :
    (s'.db.get (side.conversation σ) = s.db.get (side.conversation σ) ∧
        ∀ kind now, e ≠ .store σ side kind now) ∨
      ∃ kind now i, e = .store σ side kind now ∧ s.phase σ side = .issued i ∧
        i.outcome kind = .pending ∧ s'.db.get (side.conversation σ) =
          match kind with
          | .header => resolve now (headerObject (side.author σ))
          | .message => (s.db.get (side.conversation σ)).set ["messages", i.key]
              (resolve now (messageObject side.isSender i.text)) := by
  rcases db_step hs h with ⟨hdb, hno⟩ | ⟨τ, sd, kind, now, i, rfl, hp, hpend, -, hdb⟩
  · exact Or.inl ⟨by rw [hdb], fun kind now => hno σ side kind now⟩
  · obtain rfl : τ = σ := he
    by_cases hsd : sd = side
    · subst hsd
      refine Or.inr ⟨kind, now, i, rfl, hp, hpend, ?_⟩
      rw [hdb]
      cases kind with
      | header => exact Node.get_set_self ..
      | message => exact Node.get_set_append ..
    · refine Or.inl ⟨?_, fun kind' now' heq => hsd (by cases heq; rfl)⟩
      rw [hdb, Node.get_set_apart (apart_other hne hsd i kind)]

theorem written_congr {prior content : Value} {σ : Send} {side : Side} {i j : Issued}
    (hkey : j.key = i.key) (htext : j.text = i.text)
    (hh : j.header = .stored ↔ i.header = .stored)
    (hm : j.message = .stored ↔ i.message = .stored) (h : Written prior content σ side i) :
    Written prior content σ side j := by
  simpa only [Written, hkey, htext, hh, hm] using h

/-- How one of the leg's own events changes what its copy is known to be. -/
theorem alone_leg {db : Value} {s s' : State} {e : Event} {σ : Send} {side : Side} {i j : Issued}
    (hs : Alone db σ s) (hne : σ.curentUser.uId ≠ σ.user.uId) (he : e.send = σ)
    (h : step s e = some s') (hi : s.phase σ side = .issued i) (hj : s'.phase σ side = .issued j) :
    (j.header ≠ .notIssued → i.header ≠ .notIssued) ∧ j.key = i.key ∧
      Written (db.get (side.conversation σ)) (s'.db.get (side.conversation σ)) σ side j := by
  have hw := hs.written side i hi
  rcases conversation_step hs.wf hne he h side with ⟨hsame, hno⟩ | ⟨kind, now, i', rfl, hp, hpend, hc⟩
  · rw [hsame]
    rcases phase_step h σ side with ⟨-, heq⟩ | hadv
    · rw [heq, hi] at hj
      cases hj
      exact ⟨id, rfl, hw⟩
    · rw [hi, hj] at hadv
      cases hadv with
      | store _ kind now => exact absurd rfl (hno kind now)
      | complete _ _ => exact ⟨id, rfl, hw⟩
      | reject _ kind =>
        obtain ⟨w, hpop⟩ := step_reject.mp h
        obtain ⟨i', ws, hp, hpend, -⟩ := pop_wf hs.wf hpop
        rw [hi] at hp; cases hp
        cases kind with
        | header =>
          have hpend : i.header = .pending := hpend
          exact ⟨by simp [hpend], rfl, written_congr (i := i) rfl rfl (by simp [Issued.settle, hpend])
            Iff.rfl hw⟩
        | message =>
          have hpend : i.message = .pending := hpend
          exact ⟨id, rfl, written_congr (i := i) rfl rfl Iff.rfl (by simp [Issued.settle, hpend]) hw⟩
  · rw [hi] at hp; cases hp
    rcases phase_step h σ side with ⟨hm, -⟩ | hadv
    · exact absurd ⟨rfl, rfl⟩ hm
    · rw [hi, hj] at hadv
      cases hadv
      obtain ⟨base, t, t', hbase, hcontent⟩ := hw
      cases kind with
      | header =>
        have hpend : i.header = .pending := hpend
        have hmsg := message_pending hs.wf hs.first hi hpend
        refine ⟨by simp [hpend], rfl, _, now, t', rfl, ?_⟩
        simp [Issued.settle, hmsg, hc]
      | message =>
        have hpend : i.message = .pending := hpend
        rw [hpend, if_neg (by simp)] at hcontent
        refine ⟨id, rfl, base, t, now, hbase, hc.trans ?_⟩
        rw [hcontent]
        rfl

theorem alone_step {db : Value} {s s' : State} {e : Event} {σ : Send} (hs : Alone db σ s)
    (hne : σ.curentUser.uId ≠ σ.user.uId) (he : e.send = σ) (h : step s e = some s') :
    Alone db σ s' := by
  -- a leg that is not issued has not changed its copy
  have hkeep : ∀ side, (∀ i, s.phase σ side ≠ .issued i) →
      s'.db.get (side.conversation σ) = db.get (side.conversation σ) := by
    intro side hno
    rcases conversation_step hs.wf hne he h side with ⟨hsame, -⟩ | ⟨_, _, i, _, hp, _⟩
    · rw [hsame, hs.before side hno]
    · exact absurd hp (hno i)
  -- an issued leg was issued before, or this is its callback
  have hissued : ∀ side j, s'.phase σ side = .issued j →
      (∃ i, s.phase σ side = .issued i) ∨ ∃ snapshot key text,
        e = .callback σ side key text ∧ s.phase σ side = .snapped snapshot ∧
          j = issue side σ snapshot key text := by
    intro side j hj
    rcases phase_step h σ side with ⟨-, heq⟩ | hadv
    · exact Or.inl ⟨j, by rw [← heq, hj]⟩
    · generalize hph : s.phase σ side = ph at hadv
      rw [hj] at hadv
      cases hadv with
      | callback snapshot key text => exact Or.inr ⟨snapshot, key, text, rfl, rfl, rfl⟩
      | store i | reject i | complete i => exact Or.inl ⟨i, rfl⟩
  refine ⟨wf_step hs.wf h, headerFirst_step hs.wf hs.first h, ?_, ?_, ?_, ?_, ?_⟩
  · intro side hno
    refine hkeep side ?_
    intro i hi
    rcases phase_step h σ side with ⟨-, heq⟩ | hadv
    · exact hno i (by rw [heq, hi])
    · rw [hi] at hadv
      generalize hph : s'.phase σ side = ph' at hadv
      cases hadv <;> exact hno _ hph
  · intro side snapshot hsnap
    rcases phase_step h σ side with ⟨-, heq⟩ | hadv
    · exact hs.snapped side snapshot (by rw [← heq, hsnap])
    · generalize hph : s.phase σ side = ph at hadv
      rw [hsnap] at hadv
      cases hadv
      rw [← hs.before side (by simp [hph]), Side.conversation, conversationRef, Node.get_append]
      rfl
  · intro side j hj hhdr
    rcases hissued side j hj with ⟨i, hi⟩ | ⟨snapshot, key, text, rfl, hph, rfl⟩
    · exact hs.created side i hi ((alone_leg hs hne he h hi hj).1 hhdr)
    · rw [← hs.snapped side snapshot hph]
      rw [issue] at hhdr
      split_ifs at hhdr with hc
      · exact absurd rfl hhdr
      · rwa [hasChild_iff, not_not] at hc
  · intro side j hj
    rcases hissued side j hj with ⟨i, hi⟩ | ⟨snapshot, key, text, rfl, hph, rfl⟩
    · rw [(alone_leg hs hne he h hi hj).2.1]
      exact hs.fresh side i hi
    · obtain ⟨_, -, -, hnull, -⟩ := step_callback.mp h
      have hkey : (issue side σ snapshot key text).key = key := by rw [issue]; split_ifs <;> rfl
      rw [hkey, ← hs.before side (by simp [hph]), ← Node.get_append]
      exact hnull
  · intro side j hj
    rcases hissued side j hj with ⟨i, hi⟩ | ⟨snapshot, key, text, rfl, hph, rfl⟩
    · exact (alone_leg hs hne he h hi hj).2.2
    · refine ⟨_, 0, 0, rfl, ?_⟩
      rw [hkeep side (by simp [hph]), issue]
      split_ifs <;> simp_all

/-! ### What the copies hold -/

section Copies
variable {db : Value} {s : State} {σ : Send} {side : Side} {i : Issued}

theorem holds_iff (hs : Alone db σ s) (hi : s.phase σ side = .issued i) :
    Holds s σ side i ↔ i.message = .stored := by
  constructor
  · rintro ⟨now, hget⟩
    by_contra hno
    rw [hs.wf.unstored σ side i hi hno] at hget
    exact messageObject_ne_null _ _ _ hget.symm
  · intro hm
    obtain ⟨base, t, t', -, hcontent⟩ := hs.written side i hi
    refine ⟨t', ?_⟩
    rw [messageRef, Node.get_append, ← Side.conversation, hcontent, if_pos hm]
    exact Node.get_set_self ..

theorem headerObject_author_ne_null (a : UserProfile) (now : Rat) :
    (resolve now (headerObject a)).child "author" ≠ .null := by
  have hname := (decodeProfile_fields.mp (decodeProfile_header a.uId now a)).2.1
  exact Node.ne_null_of_child (ne_null_of_asString hname)

theorem hasHeader_iff (hs : Alone db σ s) (hi : s.phase σ side = .issued i) :
    HasHeader s.db σ side ↔ i.header = .stored ∨ HasHeader db σ side := by
  obtain ⟨base, t, t', hbase, hcontent⟩ := hs.written side i hi
  -- the message goes below another key than the header
  have hauthor : (s.db.get (side.conversation σ)).child "author" = base.child "author" := by
    rw [hcontent]
    split_ifs
    · exact Node.get_set_apart (q := ["author"]) (by simp [Apart]) _ base
    · rfl
  rw [HasHeader, HasHeader, hauthor, hbase]
  split_ifs with hh
  · exact iff_of_true (headerObject_author_ne_null _ _) (Or.inl hh)
  · simp [hh]

theorem unchanged_iff (hs : Alone db σ s) (hi : s.phase σ side = .issued i) :
    s.db.get (side.conversation σ) = db.get (side.conversation σ) ↔
      i.header ≠ .stored ∧ i.message ≠ .stored := by
  obtain ⟨base, t, t', hbase, hcontent⟩ := hs.written side i hi
  constructor
  · intro hsame
    rw [hsame] at hcontent
    have hm : i.message ≠ .stored := by
      intro hm
      have hget := hs.fresh side i hi
      rw [hcontent, if_pos hm, Node.get_set_self] at hget
      exact messageObject_ne_null _ _ _ hget
    refine ⟨?_, hm⟩
    intro hh
    rw [if_neg hm, hbase, if_pos hh, hs.created side i hi (by simp [hh])] at hcontent
    exact headerObject_author_ne_null (side.author σ) t (by rw [← hcontent]; rfl)
  · rintro ⟨hh, hm⟩
    rw [hcontent, if_neg hm, hbase, if_neg hh]

end Copies

theorem alone_run {db : Value} {σ : Send} {es : List Event} {s : State}
    (hne : σ.curentUser.uId ≠ σ.user.uId) (hσ : ∀ e ∈ es, e.send = σ)
    (hr : run step (init db) es = some s) : Alone db σ s := by
  refine along_history (I := fun _ => Alone db σ) (R := fun _ _ e _ => e.send = σ)
    (alone_init db σ) (fun _ _ _ _ hs h he => alone_step hs hne he h) ?_ es []
    (List.append_nil es).symm s hr
  rintro pre e post rfl _ _ - -
  exact hσ e (by simp)

/-- When only the send itself has acted on a database, then at any moment after both callbacks, and
    so once all writes have completed: a copy holds the message exactly when its message write
    succeeded; it has an author header exactly when its header write succeeded or there was one; it
    is unchanged exactly when none of its writes succeeded. The send is all-or-nothing exactly when
    the two legs fare alike, and what a completion reports is true of its own leg's copy. -/
theorem copies_by_outcome (db : Value) (σ : Send) (es : List Event) (s : State)
    (i : Side → Issued) (hne : σ.curentUser.uId ≠ σ.user.uId) (hσ : ∀ e ∈ es, e.send = σ)
    (hr : run step (init db) es = some s) (hi : ∀ side, s.phase σ side = .issued (i side)) :
    (∀ side, (Holds s σ side (i side) ↔ (i side).message = .stored) ∧
      (HasHeader s.db σ side ↔ (i side).header = .stored ∨ HasHeader db σ side) ∧
      (s.db.get (side.conversation σ) = db.get (side.conversation σ) ↔
        (i side).header ≠ .stored ∧ (i side).message ≠ .stored)) ∧
    (AllOrNothing db s σ i ↔
      (∀ side, (i side).message = .stored ∧
        ((i side).header = .stored ∨ HasHeader db σ side)) ∨
      ∀ side, (i side).header ≠ .stored ∧ (i side).message ≠ .stored) ∧
    ∀ side, (i side).completion = some true → Holds s σ side (i side) := by
  have hs := alone_run hne hσ hr
  refine ⟨?_, ?_, ?_⟩
  · intro side
    exact ⟨holds_iff hs (hi side), hasHeader_iff hs (hi side), unchanged_iff hs (hi side)⟩
  · rw [AllOrNothing]
    refine or_congr (forall_congr' fun side => ?_) (forall_congr' fun side => ?_)
    · rw [holds_iff hs (hi side), hasHeader_iff hs (hi side)]
    · rw [unchanged_iff hs (hi side)]
  · intro side hc
    rw [holds_iff hs (hi side)]
    rw [Issued.completion] at hc
    split_ifs at hc
    simpa using hc

/-- The records of the two legs of a concrete run. -/
def legs (receiver sender : Issued) : Side → Issued
  | .receiver => receiver
  | .sender => sender

omit [URLSyntax] in
/-- A first message whose write into the partner's copy fails: the sender's copy keeps it, the
    partner's is left with a header only, and the sender leg reports success. -/
theorem half_sent : ∃ (_ : URLSyntax) (db : Value) (σ : Send) (es : List Event) (s : State)
    (i : Side → Issued), σ.curentUser.uId ≠ σ.user.uId ∧ (∀ e ∈ es, e.send = σ) ∧
      run step (init db) es = some s ∧ (∀ side, s.phase σ side = .issued (i side)) ∧
      (∀ side, (i side).Settled) ∧ ¬ AllOrNothing db s σ i ∧
      ∃ side sd, (i side).completion = some true ∧ ¬ Holds s σ sd (i sd) := by
  let _ := nonEmptyURLs
  let σ : Send := ⟨0, 0, 0, ann, bob⟩
  let es : List Event := [.tap σ, .snapshot σ .receiver, .snapshot σ .sender,
    .callback σ .receiver "-L1" "hi", .callback σ .sender "-L2" "hi", .store σ .receiver .header 1,
    .reject σ .receiver .message, .store σ .sender .header 2, .store σ .sender .message 3,
    .complete σ .receiver, .complete σ .sender]
  let i : Side → Issued :=
    legs ⟨true, "-L1", "hi", .stored, .failed, true⟩ ⟨true, "-L2", "hi", .stored, .stored, true⟩
  obtain ⟨s, hs, hp⟩ := exists_of_run_any step (init .null) es
    (fun s => (s.phase σ .receiver = .issued (i .receiver) ∧
      s.phase σ .sender = .issued (i .sender)) ∧ s.db.get (messageRef "B" "A" "-L1") = .null ∧
      s.db.get (conversationRef "A" "B") ≠ .null) (by decide)
  obtain ⟨⟨hr, hse⟩, hlost, hgained⟩ := decide_eq_true_iff.mp hp
  have hnot : ¬ Holds s σ .receiver (i .receiver) := by
    rintro ⟨now, hget⟩
    exact messageObject_ne_null _ _ _ (hget.symm.trans hlost)
  refine ⟨nonEmptyURLs, .null, σ, es, s, i, by decide, by decide, hs, ?_, ?_, ?_, .sender, .receiver,
    rfl, hnot⟩
  · rintro (_ | _)
    · exact hr
    · exact hse
  · rintro (_ | _) <;> exact ⟨by decide, by decide⟩
  · rintro (hall | hnone)
    · exact hnot (hall .receiver).1
    · exact hgained ((hnone .sender).trans (Node.get_null _))

omit [URLSyntax] in
/-- The same run, with the message stored in both copies. -/
theorem copies_by_outcome_sent : ∃ (_ : URLSyntax) (σ : Send) (es : List Event) (s : State)
    (i : Side → Issued), run step (init .null) es = some s ∧ AllOrNothing .null s σ i ∧
      ∀ side, Holds s σ side (i side) := by
  let _ := nonEmptyURLs
  let σ : Send := ⟨0, 0, 0, ann, bob⟩
  let es : List Event := [.tap σ, .snapshot σ .receiver, .snapshot σ .sender,
    .callback σ .receiver "-L1" "hi", .callback σ .sender "-L2" "hi", .store σ .receiver .header 1,
    .store σ .receiver .message 2, .store σ .sender .header 3, .store σ .sender .message 4]
  let i : Side → Issued :=
    legs ⟨true, "-L1", "hi", .stored, .stored, false⟩ ⟨true, "-L2", "hi", .stored, .stored, false⟩
  obtain ⟨s, hs, hp⟩ := exists_of_run_any step (init .null) es
    (fun s => s.phase σ .receiver = .issued (i .receiver) ∧
      s.phase σ .sender = .issued (i .sender)) (by decide)
  have hi : ∀ side, s.phase σ side = .issued (i side) := by
    obtain ⟨hr, hse⟩ := decide_eq_true_iff.mp hp
    rintro (_ | _)
    · exact hr
    · exact hse
  obtain ⟨hcopies, hatomic, -⟩ := copies_by_outcome .null σ es s i (by decide) (by decide) hs hi
  refine ⟨nonEmptyURLs, σ, es, s, i, hs, hatomic.mpr (Or.inl ?_), fun side => ?_⟩
  · rintro (_ | _) <;> exact ⟨rfl, Or.inl rfl⟩
  · exact (hcopies side).1.mpr (by cases side <;> rfl)

end PostApp.Chat
