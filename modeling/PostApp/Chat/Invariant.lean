import PostApp.Chat.Network

/-! What every reachable state of the chat satisfies.

    `Wf` is the bookkeeping the later results rest on: a queued write is the pending write of an
    issued leg, no two legs share a generated key, and nothing is stored under a key whose message
    is not. Every step keeps it (`wf_step`). Then the location of a leg's key holds its message or
    nothing (`own_run`). -/

namespace PostApp.Chat
open Schemes
variable [URLSyntax]

/-- Bookkeeping of legs, queues and generated keys. -/
structure Wf (s : State) : Prop where
  /-- a queued write is the pending write of an issued leg of its device -/
  queued : ∀ c, ∀ w ∈ s.queue c, w.send.client = c ∧ ∃ i, s.phase w.send w.side = .issued i ∧
    w = writeOf w.send w.side i w.kind ∧ i.outcome w.kind = .pending
  nodup : ∀ c, (s.queue c).Nodup
  snapped : ∀ σ side snapshot, s.phase σ side = .snapped snapshot →
    snapshot.ref = chatRef (side.owner σ)
  used : ∀ σ side i, s.phase σ side = .issued i → i.key ∈ s.keys
  distinct : ∀ σ side i τ sd j, s.phase σ side = .issued i → s.phase τ sd = .issued j →
    i.key = j.key → σ = τ ∧ side = sd
  /-- nothing is stored under a key whose message is not -/
  unstored : ∀ σ side i, s.phase σ side = .issued i → i.message ≠ .stored →
    s.db.get (messageRef (side.owner σ) (side.peer σ) i.key) = .null

theorem wf_init (db : Value) : Wf (init db) :=
  ⟨fun _ _ hw => (List.not_mem_nil hw).elim, fun _ => List.nodup_nil, fun _ _ _ h => (by cases h),
    fun _ _ _ h => (by cases h), fun _ _ _ _ _ _ h => (by cases h), fun _ _ _ h => (by cases h)⟩

/-- The front write of a device's queue, once popped. -/
theorem pop_wf {s s' : State} {σ : Send} {side : Side} {kind : Kind} {o : Outcome} {w : Write}
    (hs : Wf s) (h : s.pop σ side kind o = some (w, s')) :
    ∃ i ws, s.phase σ side = .issued i ∧ i.outcome kind = .pending ∧ w = writeOf σ side i kind ∧
      s.queue σ.client = w :: ws ∧
      s' = { s.put σ side (.issued (i.settle o kind)) with
        queue := Function.update s.queue σ.client ws } := by
  obtain ⟨i, ws, hp, hq, rfl, rfl, rfl, rfl⟩ := pop_eq.mp h
  obtain ⟨-, j, hj, hw, ho⟩ := hs.queued _ w (by rw [hq]; exact List.mem_cons_self ..)
  rw [hp] at hj; cases hj
  exact ⟨i, ws, hp, ho, hw, hq, rfl⟩

/-- Changing a leg that is not issued, to a phase that is not issued. -/
theorem wf_put {s : State} {σ : Send} {side : Side} {ph : Phase} (hs : Wf s)
    (hold : ∀ i, s.phase σ side ≠ .issued i) (hnew : ∀ i, ph ≠ .issued i)
    (hsnap : ∀ snapshot, ph = .snapped snapshot → snapshot.ref = chatRef (side.owner σ)) :
    Wf (s.put σ side ph) := by
  have hiss : ∀ τ sd i, (s.put σ side ph).phase τ sd = .issued i ↔ s.phase τ sd = .issued i := by
    intro τ sd i
    rw [put_phase]
    split_ifs with h
    · obtain ⟨rfl, rfl⟩ := h
      exact iff_of_false (hnew i) (hold i)
    · rfl
  refine ⟨?_, hs.nodup, ?_, ?_, ?_, ?_⟩
  · intro c w hw
    obtain ⟨hc, i, hi, h⟩ := hs.queued c w hw
    exact ⟨hc, i, (hiss ..).mpr hi, h⟩
  · intro τ sd snapshot h
    rw [put_phase] at h
    split_ifs at h with heq
    · obtain ⟨rfl, rfl⟩ := heq; exact hsnap snapshot h
    · exact hs.snapped τ sd snapshot h
  · intro τ sd i hi; exact hs.used τ sd i ((hiss ..).mp hi)
  · intro τ sd i τ' sd' j hi hj
    exact hs.distinct τ sd i τ' sd' j ((hiss ..).mp hi) ((hiss ..).mp hj)
  · intro τ sd i hi; exact hs.unstored τ sd i ((hiss ..).mp hi)

/-- Replacing the record of an issued leg by one with the same key and text, while queues shrink. -/
theorem wf_reissue {s : State} {σ : Send} {side : Side} {i j : Issued} {q : ℕ → List Write}
    (hs : Wf s) (hp : s.phase σ side = .issued i) (hkey : j.key = i.key) (htext : j.text = i.text)
    (hsub : ∀ c, List.Sublist (q c) (s.queue c))
    (hout : ∀ w ∈ q σ.client, w.send = σ → w.side = side → j.outcome w.kind = i.outcome w.kind)
    (hst : j.message ≠ .stored → i.message ≠ .stored) :
    Wf { s.put σ side (.issued j) with queue := q } := by
  -- a leg that is issued afterwards was issued before, under the same key
  have hback : ∀ τ sd j', (s.put σ side (.issued j)).phase τ sd = .issued j' →
      ∃ i', s.phase τ sd = .issued i' ∧ i'.key = j'.key ∧
        (j'.message ≠ .stored → i'.message ≠ .stored) := by
    intro τ sd j' hj'
    rw [put_phase] at hj'
    split_ifs at hj' with heq
    · obtain ⟨rfl, rfl⟩ := heq
      cases hj'
      exact ⟨i, hp, hkey.symm, hst⟩
    · exact ⟨j', hj', rfl, id⟩
  refine ⟨?_, fun c => (hs.nodup c).sublist (hsub c), ?_, ?_, ?_, ?_⟩
  · intro c w hw
    obtain ⟨hc, i', hi', hwi', hoi'⟩ := hs.queued c w ((hsub c).subset hw)
    refine ⟨hc, ?_⟩
    simp only [put_phase]
    split_ifs with heq
    · obtain ⟨hσ, hsd⟩ := heq
      rw [hσ, hsd, hp] at hi'; cases hi'
      refine ⟨j, rfl, ?_, ?_⟩
      · rw [hσ, hsd, writeOf_congr hkey htext]; rwa [hσ, hsd] at hwi'
      · subst hc
        rw [hσ] at hw
        rw [hout w hw hσ hsd]; exact hoi'
    · exact ⟨i', hi', hwi', hoi'⟩
  · intro τ sd snapshot h
    simp only [put_phase] at h
    split_ifs at h
    exact hs.snapped τ sd snapshot h
  · intro τ sd j' hj'
    obtain ⟨i', hi', hk, -⟩ := hback τ sd j' hj'
    rw [← hk]; exact hs.used τ sd i' hi'
  · intro τ sd j' τ' sd' j'' hj' hj'' hk
    obtain ⟨i', hi', hk', -⟩ := hback τ sd j' hj'
    obtain ⟨i'', hi'', hk'', -⟩ := hback τ' sd' j'' hj''
    exact hs.distinct τ sd i' τ' sd' i'' hi' hi'' (by rw [hk', hk'', hk])
  · intro τ sd j' hj' hne
    obtain ⟨i', hi', hk, hm⟩ := hback τ sd j' hj'
    rw [← hk]; exact hs.unstored τ sd i' hi' (hm hne)

/-- Recording the fate of the front write, and dropping it from its queue. -/
theorem wf_pop {s s' : State} {σ : Send} {side : Side} {kind : Kind} {o : Outcome} {w : Write}
    (hs : Wf s) (h : s.pop σ side kind o = some (w, s')) : Wf s' := by
  obtain ⟨i, ws, hp, hpend, hw, hq, rfl⟩ := pop_wf hs h
  have hnd := hs.nodup σ.client
  rw [hq] at hnd
  refine wf_reissue hs hp (key_settle ..) (text_settle ..) ?_ ?_ ?_
  · intro c
    by_cases hc : c = σ.client
    · subst hc; rw [Function.update_self, hq]; exact List.sublist_cons_self ..
    · rw [Function.update_of_ne hc]
  · -- the popped write was the only one of its kind
    intro w' hw' hσ hsd
    rw [Function.update_self] at hw'
    have hkind : w'.kind ≠ kind := by
      intro hk
      obtain ⟨-, j, hj, hwj, -⟩ := hs.queued _ w' (by rw [hq]; exact List.mem_cons_of_mem _ hw')
      rw [hσ, hsd, hp] at hj; cases hj
      rw [hσ, hsd, hk, ← hw] at hwj
      rw [hwj] at hw'
      exact (List.nodup_cons.mp hnd).1 hw'
    exact outcome_settle_ne hkind i o
  · cases kind with
    | header => exact id
    | message => exact fun _ => not_stored_of_pending hpend

theorem wf_store {s s' : State} {σ : Send} {side : Side} {kind : Kind} {now : Rat}
    (hs : Wf s) (h : step s (.store σ side kind now) = some s') : Wf s' := by
  obtain ⟨w, s₁, hpop, rfl⟩ := step_store.mp h
  have h₁ := wf_pop hs hpop
  obtain ⟨i, ws, hp, hpend, rfl, hq, rfl⟩ := pop_wf hs hpop
  refine ⟨h₁.queued, h₁.nodup, h₁.snapped, h₁.used, h₁.distinct, ?_⟩
  intro τ sd j hj hne
  have hold := h₁.unstored τ sd j hj hne
  cases kind with
  | header =>
    have hget := get_message_set_header s.db (side.owner σ) (side.peer σ) (sd.owner τ) (sd.peer τ)
      j.key now (side.author σ)
    refine hget.trans ?_
    split_ifs
    · rfl
    · exact hold
  | message =>
    have hkey : i.key ≠ j.key := by
      intro hk
      have hself : (s.put σ side (.issued (i.settle .stored .message))).phase σ side =
          .issued (i.settle .stored .message) := by simp
      obtain ⟨rfl, rfl⟩ := h₁.distinct σ side _ τ sd j hself hj hk
      rw [hself] at hj; cases hj
      exact hne rfl
    exact (get_message_set_message (Or.inr (Or.inr hkey))).trans hold

/-- A snapshot callback issues its writes under a new key. -/
theorem wf_callback {s s' : State} {σ : Send} {side : Side} {key text : String} (hs : Wf s)
    (h : step s (.callback σ side key text) = some s') : Wf s' := by
  obtain ⟨snapshot, hp, hkey, hnull, rfl⟩ := step_callback.mp h
  have hwrites := leg_writes (hs.snapped σ side snapshot hp) key text
  set i := issue side σ snapshot key text with hi
  have hikey : i.key = key := by rw [hi, issue]; split_ifs <;> rfl
  have hmsg : i.message = .pending := by rw [hi, issue]; split_ifs <;> rfl
  have hhdr : i.created = true → i.header = .pending := by rw [hi, issue]; split_ifs <;> simp
  -- the legs that were issued before keep their record and have another key
  have hold : ∀ τ sd j, (s.put σ side (.issued i)).phase τ sd = .issued j →
      (τ = σ ∧ sd = side ∧ j = i) ∨ (s.phase τ sd = .issued j ∧ j.key ≠ key) := by
    intro τ sd j hj
    rw [put_phase] at hj
    split_ifs at hj with heq
    · exact Or.inl ⟨heq.1, heq.2, by cases hj; rfl⟩
    · exact Or.inr ⟨hj, fun hk => hkey (hk ▸ hs.used τ sd j hj)⟩
  have hnew : ∀ w ∈ leg side σ snapshot key text, w = writeOf σ side i w.kind ∧
      i.outcome w.kind = .pending := by
    intro w hw
    rw [hwrites] at hw
    split_ifs at hw with hc
    · rcases List.mem_cons.mp hw with rfl | hw
      · exact ⟨rfl, hhdr hc⟩
      · rw [List.mem_singleton.mp hw]; exact ⟨rfl, hmsg⟩
    · rw [List.mem_singleton.mp hw]; exact ⟨rfl, hmsg⟩
  have hofσ : ∀ w ∈ leg side σ snapshot key text, w.send = σ ∧ w.side = side := by
    intro w hw
    rw [(hnew w hw).1]
    cases w.kind <;> exact ⟨rfl, rfl⟩
  refine ⟨?_, ?_, ?_, ?_, ?_, ?_⟩
  · intro c w hw
    have hcase : w ∈ s.queue c ∨ (c = σ.client ∧ w ∈ leg side σ snapshot key text) := by
      by_cases hc : c = σ.client
      · subst hc
        simp only [Function.update_self] at hw
        exact (List.mem_append.mp hw).imp_right (fun h => ⟨rfl, h⟩)
      · simp only [Function.update_of_ne hc] at hw
        exact Or.inl hw
    rcases hcase with hold | ⟨rfl, hleg⟩
    · obtain ⟨hc, j, hj, h⟩ := hs.queued c w hold
      refine ⟨hc, j, ?_, h⟩
      simp only [put_phase]
      split_ifs with heq
      · rw [heq.1, heq.2, hp] at hj; cases hj
      · exact hj
    · obtain ⟨hσ, hsd⟩ := hofσ w hleg
      refine ⟨by rw [hσ], i, by simp [hσ, hsd], ?_⟩
      rw [hσ, hsd]; exact hnew w hleg
  · intro c
    by_cases hc : c = σ.client
    · subst hc
      simp only [Function.update_self]
      refine List.nodup_append.mpr ⟨hs.nodup _, ?_, ?_⟩
      · rw [hwrites]; split_ifs <;> simp [writeOf]
      · rintro w hw w' hw' rfl
        obtain ⟨hσ, hsd⟩ := hofσ w hw'
        obtain ⟨-, j, hj, -⟩ := hs.queued _ w hw
        rw [hσ, hsd, hp] at hj; cases hj
    · simp only [Function.update_of_ne hc]; exact hs.nodup c
  · intro τ sd snapshot' h
    simp only [put_phase] at h
    split_ifs at h
    exact hs.snapped τ sd snapshot' h
  · intro τ sd j hj
    rcases hold τ sd j hj with ⟨rfl, rfl, rfl⟩ | ⟨hj, -⟩
    · rw [hikey]; exact List.mem_cons_self ..
    · exact List.mem_cons_of_mem _ (hs.used τ sd j hj)
  · intro τ sd j τ' sd' j' hj hj' hk
    rcases hold τ sd j hj with ⟨rfl, rfl, rfl⟩ | ⟨hj, hne⟩ <;>
      rcases hold τ' sd' j' hj' with ⟨rfl, rfl, rfl⟩ | ⟨hj', hne'⟩
    · exact ⟨rfl, rfl⟩
    · exact absurd (hk.symm.trans hikey) hne'
    · exact absurd (hk.trans hikey) hne
    · exact hs.distinct τ sd j τ' sd' j' hj hj' hk
  · intro τ sd j hj hst
    rcases hold τ sd j hj with ⟨rfl, rfl, rfl⟩ | ⟨hj, -⟩
    · rw [hikey]; exact hnull
    · exact hs.unstored τ sd j hj hst

theorem wf_step {s s' : State} {e : Event} (hs : Wf s) (h : step s e = some s') : Wf s' := by
  cases e with
  | tap σ =>
    obtain ⟨hr, hse, rfl⟩ := step_tap.mp h
    refine wf_put (wf_put hs (by simp [hr]) (by simp) (by simp)) ?_ (by simp) (by simp)
    simp [hse]
  | snapshot σ side =>
    obtain ⟨hp, rfl⟩ := step_snapshot.mp h
    refine wf_put hs (by simp [hp]) (by simp) ?_
    rintro _ h; cases h; rfl
  | callback σ side key text => exact wf_callback hs h
  | store σ side kind now => exact wf_store hs h
  | reject σ side kind =>
    obtain ⟨w, hpop⟩ := step_reject.mp h
    exact wf_pop hs hpop
  | complete σ side =>
    obtain ⟨i, hp, -, -, rfl⟩ := step_complete.mp h
    refine wf_reissue (q := s.queue) hs hp rfl rfl (fun c => List.Sublist.refl _) ?_ id
    intro w _ _ _
    cases w.kind <;> rfl

/-- A write from elsewhere that stores no message. -/
theorem wf_db {s : State} {db : Value} (hs : Wf s)
    (h : ∀ x y k, s.db.get (messageRef x y k) = .null → db.get (messageRef x y k) = .null) :
    Wf { s with db := db } :=
  ⟨hs.queued, hs.nodup, hs.snapped, hs.used, hs.distinct,
    fun σ side i hi hm => h _ _ _ (hs.unstored σ side i hi hm)⟩

/-- Only an applied write changes the database, and it is the pending write of its leg. -/
theorem db_step {s s' : State} {e : Event} (hs : Wf s) (h : step s e = some s') :
    (s'.db = s.db ∧ ∀ σ side kind now, e ≠ .store σ side kind now) ∨
      ∃ σ side kind now i, e = .store σ side kind now ∧ s.phase σ side = .issued i ∧
        i.outcome kind = .pending ∧ s'.phase σ side = .issued (i.settle .stored kind) ∧
        s'.db = s.db.set (writeOf σ side i kind).path (resolve now (writeOf σ side i kind).value) := by
  cases e with
  | tap σ =>
    obtain ⟨-, -, rfl⟩ := step_tap.mp h
    exact Or.inl ⟨rfl, by simp⟩
  | snapshot σ side =>
    obtain ⟨-, rfl⟩ := step_snapshot.mp h
    exact Or.inl ⟨rfl, by simp⟩
  | callback σ side key text =>
    obtain ⟨_, -, -, -, rfl⟩ := step_callback.mp h
    exact Or.inl ⟨rfl, by simp⟩
  | store σ side kind now =>
    obtain ⟨w, s₁, hpop, rfl⟩ := step_store.mp h
    obtain ⟨i, ws, hp, hpend, rfl, -, rfl⟩ := pop_wf hs hpop
    exact Or.inr ⟨σ, side, kind, now, i, rfl, hp, hpend, by simp, rfl⟩
  | reject σ side kind =>
    obtain ⟨w, hpop⟩ := step_reject.mp h
    obtain ⟨i, ws, -, -, -, -, rfl⟩ := pop_wf hs hpop
    exact Or.inl ⟨rfl, by simp⟩
  | complete σ side =>
    obtain ⟨i, -, -, -, rfl⟩ := step_complete.mp h
    exact Or.inl ⟨rfl, by simp⟩

/-- What a step does to the location of a message: nothing, or the header of its conversation erases
    it, or the message of a leg is stored there for the first time. -/
theorem message_step {s s' : State} {e : Event} (hs : Wf s) (h : step s e = some s')
    (x y k : String) :
    (s'.db.get (messageRef x y k) = s.db.get (messageRef x y k) ∧
        ∀ σ side now, e = .store σ side .header now → ¬ (side.owner σ = x ∧ side.peer σ = y)) ∨
      (∃ σ side now i, e = .store σ side .header now ∧ side.owner σ = x ∧ side.peer σ = y ∧
        s.phase σ side = .issued i ∧ i.header = .pending ∧ s'.db.get (messageRef x y k) = .null) ∨
      ∃ σ side now i, e = .store σ side .message now ∧ side.owner σ = x ∧ side.peer σ = y ∧
        s.phase σ side = .issued i ∧ i.key = k ∧ s.db.get (messageRef x y k) = .null ∧
        s'.db.get (messageRef x y k) = resolve now (messageObject side.isSender i.text) := by
  rcases db_step hs h with ⟨hdb, hne⟩ | ⟨σ, side, kind, now, i, rfl, hp, hpend, -, hdb⟩
  · exact Or.inl ⟨by rw [hdb], fun σ side now he => absurd he (hne σ side .header now)⟩
  · cases kind with
    | header =>
      have hget := get_message_set_header s.db (side.owner σ) (side.peer σ) x y k now
        (side.author σ)
      rw [hdb]
      by_cases hc : side.owner σ = x ∧ side.peer σ = y
      · rw [if_pos hc] at hget
        exact Or.inr (Or.inl ⟨σ, side, now, i, rfl, hc.1, hc.2, hp, hpend, hget⟩)
      · rw [if_neg hc] at hget
        refine Or.inl ⟨hget, ?_⟩
        rintro τ sd n he
        cases he; exact hc
    | message =>
      have hnull := hs.unstored σ side i hp (not_stored_of_pending hpend)
      rw [hdb]
      by_cases hc : side.owner σ = x ∧ side.peer σ = y ∧ i.key = k
      · obtain ⟨rfl, rfl, rfl⟩ := hc
        exact Or.inr (Or.inr ⟨σ, side, now, i, rfl, rfl, rfl, hp, rfl, hnull,
          Node.get_set_self ..⟩)
      · refine Or.inl ⟨get_message_set_message ?_, by simp⟩
        rw [not_and_or, not_and_or] at hc
        exact hc

/-! ### What a leg leaves -/

/-- A leg that is under way was tapped. -/
theorem tap_mem {db : Value} {ces : List Event} {s : State}
    (h : run step (init db) ces = some s) {σ : Send} {side : Side}
    (hσ : s.phase σ side ≠ .idle) : .tap σ ∈ ces := by
  revert σ side hσ
  refine run_history (I := fun pre s => ∀ {σ side}, s.phase σ side ≠ .idle → .tap σ ∈ pre) ?_ ?_ h
  · intro σ side hσ
    exact absurd rfl hσ
  · intro pre s e s' hs h σ side hσ
    rw [List.mem_append]
    rcases phase_step h σ side with ⟨-, heq⟩ | hadv
    · rw [heq] at hσ
      exact Or.inl (hs hσ)
    · by_cases hidle : s.phase σ side = .idle
      · rw [hidle] at hadv
        generalize s'.phase σ side = ph' at hadv
        cases hadv
        exact Or.inr (List.mem_singleton_self _)
      · exact Or.inl (hs hidle)

/-- Under the key of a leg there is its message or nothing. -/
def Own (s : State) : Prop :=
  ∀ σ side i, s.phase σ side = .issued i →
    s.db.get (messageRef (side.owner σ) (side.peer σ) i.key) = .null ∨
    ∃ now, s.db.get (messageRef (side.owner σ) (side.peer σ) i.key) =
      resolve now (messageObject side.isSender i.text)

/-- A leg is issued by a callback that has not stored anything, or it was issued before. -/
theorem issued_step {s s' : State} {e : Event} {σ : Send} {side : Side} {i' : Issued}
    (h : step s e = some s') (hi' : s'.phase σ side = .issued i') :
    i'.message = .pending ∨
      ∃ i, s.phase σ side = .issued i ∧ i.key = i'.key ∧ i.text = i'.text := by
  rcases phase_step h σ side with ⟨-, heq⟩ | hadv
  · exact Or.inr ⟨i', heq.symm.trans hi', rfl, rfl⟩
  · rw [hi'] at hadv
    generalize hph : s.phase σ side = ph at hadv
    cases hadv with
    | callback snapshot key text =>
      left
      rw [issue]
      split_ifs <;> rfl
    | store i kind now => exact Or.inr ⟨i, rfl, (key_settle ..).symm, (text_settle ..).symm⟩
    | reject i kind => exact Or.inr ⟨i, rfl, (key_settle ..).symm, (text_settle ..).symm⟩
    | complete i _ => exact Or.inr ⟨i, rfl, rfl, rfl⟩

theorem own_step {s s' : State} {e : Event} (hs : Wf s) (ho : Own s)
    (h : step s e = some s') : Own s' := by
  intro σ side i' hi'
  rcases issued_step h hi' with hpend | ⟨i, hi, hkey, htext⟩
  · exact Or.inl ((wf_step hs h).unstored σ side i' hi' (by rw [hpend]; simp))
  · rw [← hkey, ← htext]
    rcases message_step hs h (side.owner σ) (side.peer σ) i.key with ⟨heq, -⟩ |
      ⟨_, _, _, _, -, -, -, -, -, hnull⟩ | ⟨τ, sd, now, j, -, -, -, hj, hk, -, hnew⟩
    · rw [heq]
      exact ho σ side i hi
    · exact Or.inl hnull
    · -- the key is the leg's own
      obtain ⟨rfl, rfl⟩ := hs.distinct τ sd j σ side i hj hi hk
      rw [hi] at hj
      cases hj
      exact Or.inr ⟨now, hnew⟩

theorem own_run {db : Value} {ces : List Event} {s : State}
    (h : run step (init db) ces = some s) : Own s := by
  refine (run_invariant (I := fun s => Wf s ∧ Own s) ⟨wf_init db, ?_⟩ ?_ h).2
  · intro σ side i hi
    cases hi
  · rintro s e s' ⟨hs, ho⟩ h
    exact ⟨wf_step hs h, own_step hs ho h⟩

end PostApp.Chat
