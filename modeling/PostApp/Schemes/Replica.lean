import Mathlib.Data.List.Basic

/-! Replicas that show their own writes at once.

    A server applies writes in some order and sends each applied one to every replica. A replica
    holds a `cache` of what it has received and shows on top of it the local guess of its own writes
    that are still unanswered: those in `queue` have not reached the server, those in `answered` have
    been judged there, with the answer on its way. `Synced` is the invariant of the traffic; once
    nothing is on its way, a replica shows the server's data (`Synced.view`). A property of data that all
    writes under way preserve holds of what is shown (`Carries.view`); one that the server's data has
    arrives with the messages (`CarriesAfter`). The server sends a write it applied before the answer to
    it, so once the answer has been taken, the write is in the cache (`Trails`). -/

namespace Schemes

/-- What the server sends: a write it applied, or its answer to the replica's oldest unanswered one. -/
inductive Update (U : Type) where
  | data (u : U)
  | answer (ok : Bool)
  deriving DecidableEq

/-- `W` are the writes a replica issues, `U` those the server applies. -/
structure Replica (D U W : Type) where
  cache : D
  inbox : List (Update U)
  answered : List W
  queue : List W

namespace Replica
variable {D U W : Type}

def start (d : D) : Replica D U W := ⟨d, [], [], []⟩

/-- Issue a write. -/
def enqueue (w : W) (r : Replica D U W) : Replica D U W := { r with queue := r.queue ++ [w] }

/-- The server sends a write it applied. -/
def send (u : U) (r : Replica D U W) : Replica D U W := { r with inbox := r.inbox ++ [.data u] }

/-- The server answers the oldest write that has not been answered. -/
def answer (ok : Bool) (r : Replica D U W) : Replica D U W :=
  match r.queue with
  | [] => r
  | w :: ws => { r with
      inbox := r.inbox ++ [.answer ok]
      answered := r.answered ++ [w]
      queue := ws }

section
variable (write : D → U → D) (guess : W → U)

/-- What the replica shows. -/
def view (r : Replica D U W) : D :=
  (r.answered ++ r.queue).foldl (fun d w => write d (guess w)) r.cache

/-- Take the oldest message; an answer comes with the write it is about. -/
def receive (r : Replica D U W) : Option (Option (W × Bool) × Replica D U W) :=
  match r.inbox, r.answered with
  | .data u :: us, _ => some (none, { r with cache := write r.cache u, inbox := us })
  | .answer ok :: us, w :: ws => some (some (w, ok), { r with inbox := us, answered := ws })
  | _, _ => none

/-- What a message changes in the cache. -/
def arrive (d : D) : Update U → D
  | .data u => write d u
  | .answer _ => d

/-- The messages on their way bring the cache up to the server's data `d`, and each judged write has
    its answer among them. -/
structure Synced (d : D) (r : Replica D U W) : Prop where
  cache : r.inbox.foldl (arrive write) r.cache = d
  answers : r.answered.length = (r.inbox.filter (fun u => u matches .answer _)).length

end

variable {write : D → U → D} {guess : W → U} {d : D} {r : Replica D U W}

/-- Answering moves a write along without changing what is shown. -/
theorem view_answer (ok : Bool) (r : Replica D U W) :
    (r.answer ok).view write guess = r.view write guess := by
  unfold answer
  split
  · rfl
  · next w ws hq => simp [view, hq]

/-- Judging the oldest write leaves the younger ones. -/
theorem queue_answer (ok : Bool) (r : Replica D U W) : (r.answer ok).queue.Sublist r.queue := by
  unfold answer
  split
  · exact List.Sublist.refl _
  · next w ws hq =>
    rw [hq]
    exact List.sublist_cons_self w ws

@[simp] theorem view_send (u : U) (r : Replica D U W) :
    (r.send u).view write guess = r.view write guess := rfl

theorem synced_start (d : D) : Synced write d (start d : Replica D U W) := ⟨rfl, rfl⟩

theorem Synced.enqueue (hr : Synced write d r) (w : W) : Synced write d (r.enqueue w) :=
  ⟨hr.cache, hr.answers⟩

/-- A write applied by the server is sent to every replica. -/
theorem Synced.send (hr : Synced write d r) (u : U) : Synced write (write d u) (r.send u) := by
  refine ⟨?_, ?_⟩
  · simp [Replica.send, List.foldl_append, hr.cache, arrive]
  · simp [Replica.send, List.filter_append, hr.answers]

theorem Synced.answer (hr : Synced write d r) (ok : Bool) : Synced write d (r.answer ok) := by
  unfold Replica.answer
  split
  · exact hr
  · refine ⟨?_, ?_⟩
    · simp [List.foldl_append, hr.cache, arrive]
    · simp [List.filter_append, hr.answers]

/-- The two kinds of message. -/
theorem receive_eq {o : Option (W × Bool)} {r' : Replica D U W} :
    r.receive write = some (o, r') ↔
      (∃ u us, r.inbox = .data u :: us ∧ o = none ∧
        r' = { r with cache := write r.cache u, inbox := us }) ∨
      ∃ ok us w ws, r.inbox = .answer ok :: us ∧ r.answered = w :: ws ∧ o = some (w, ok) ∧
        r' = { r with inbox := us, answered := ws } := by
  unfold receive
  split <;> grind

theorem Synced.receive {o : Option (W × Bool)} {r' : Replica D U W} (hr : Synced write d r)
    (h : r.receive write = some (o, r')) : Synced write d r' := by
  have hcache := hr.cache
  have hanswers := hr.answers
  rcases receive_eq.mp h with ⟨u, us, hin, -, rfl⟩ | ⟨ok, us, w, ws, hin, ha, -, rfl⟩
  · rw [hin] at hcache hanswers
    exact ⟨hcache, by simpa using hanswers⟩
  · rw [hin] at hcache hanswers
    rw [ha] at hanswers
    exact ⟨hcache, by simpa using hanswers⟩

/-- With nothing on its way in either direction, a replica shows the server's data. -/
theorem Synced.view (hr : Synced write d r) (hin : r.inbox = []) (hq : r.queue = []) :
    r.view write guess = d := by
  have hanswered : r.answered = [] := by
    have hlen := hr.answers
    rw [hin] at hlen
    exact List.eq_nil_of_length_eq_zero hlen
  have hcache := hr.cache
  rw [hin] at hcache
  rw [Replica.view, hanswered, hq]
  exact hcache

/-- A property that the own writes keep is shown if the cache has it or some own write brings it. -/
theorem view_of {P : D → Prop}
    (hkeep : ∀ w ∈ r.answered ++ r.queue, ∀ d, P d → P (write d (guess w)))
    (h : P r.cache ∨ ∃ w ∈ r.answered ++ r.queue, ∀ d, P (write d (guess w))) :
    P (r.view write guess) := by
  rw [Replica.view]
  generalize r.answered ++ r.queue = ws at hkeep h
  generalize r.cache = d at h
  induction ws generalizing d with
  | nil =>
    rcases h with h | ⟨w, hw, -⟩
    · exact h
    · exact absurd hw List.not_mem_nil
  | cons w ws ih =>
    refine ih (fun w' hw' => hkeep w' (List.mem_cons_of_mem _ hw')) _ ?_
    rcases h with h | ⟨w', hw', hbring⟩
    · exact Or.inl (hkeep w (List.mem_cons_self ..) d h)
    · rcases List.mem_cons.mp hw' with rfl | hw'
      · exact Or.inl (hbring d)
      · exact Or.inr ⟨w', hw', hbring⟩

/-- Where no message on its way changes anything, the cache is up to date. -/
theorem Synced.cache_eq {V : Type} (hr : Synced write d r) {f : D → V}
    (h : ∀ u, .data u ∈ r.inbox → ∀ d, f (write d u) = f d) : f r.cache = f d := by
  rw [← hr.cache]
  generalize r.inbox = us at h
  generalize r.cache = c
  induction us generalizing c with
  | nil => rfl
  | cons u us ih =>
    rw [List.foldl_cons, ← ih (fun u' hu' => h u' (List.mem_cons_of_mem _ hu'))]
    cases u with
    | data u => exact (h u (List.mem_cons_self ..) c).symm
    | answer ok => rfl

/-! ### What is carried -/

/-- The cache has the property `P` and all writes under way are of the kind `G`. -/
structure Carries (guess : W → U) (P : D → Prop) (G : U → Prop) (r : Replica D U W) : Prop where
  cache : P r.cache
  inbox : ∀ u, .data u ∈ r.inbox → G u
  waiting : ∀ w ∈ r.answered ++ r.queue, G (guess w)

section
variable {P P' : D → Prop} {G G' : U → Prop}

theorem carries_start (hd : P d) : Carries guess P G (start d : Replica D U W) :=
  ⟨hd, fun _ h => absurd h List.not_mem_nil, fun _ h => absurd h List.not_mem_nil⟩

theorem Carries.mono (h : Carries guess P G r) (hP : ∀ d, P d → P' d) (hG : ∀ u, G u → G' u) :
    Carries guess P' G' r :=
  ⟨hP _ h.cache, fun u hu => hG u (h.inbox u hu), fun w hw => hG _ (h.waiting w hw)⟩

theorem Carries.enqueue (h : Carries guess P G r) {w : W} (hw : G (guess w)) :
    Carries guess P G (r.enqueue w) := by
  refine ⟨h.cache, h.inbox, ?_⟩
  intro w' hw'
  simp only [Replica.enqueue, ← List.append_assoc] at hw'
  rcases List.mem_append.mp hw' with hw' | hw'
  · exact h.waiting w' hw'
  · rw [List.mem_singleton.mp hw']
    exact hw

theorem Carries.send (h : Carries guess P G r) {u : U} (hu : G u) : Carries guess P G (r.send u) := by
  refine ⟨h.cache, ?_, h.waiting⟩
  intro u' hu'
  rcases List.mem_append.mp hu' with hu' | hu'
  · exact h.inbox u' hu'
  · cases List.mem_singleton.mp hu'
    exact hu

theorem Carries.answer (h : Carries guess P G r) (ok : Bool) : Carries guess P G (r.answer ok) := by
  have hwaiting := h.waiting
  unfold Replica.answer
  split
  · exact h
  · next w ws hq =>
    rw [hq] at hwaiting
    refine ⟨h.cache, ?_, by simpa using hwaiting⟩
    intro u hu
    exact h.inbox u (by simpa using hu)

theorem Carries.receive (h : Carries guess P G r) (hkeep : ∀ d u, P d → G u → P (write d u))
    {o : Option (W × Bool)} {r' : Replica D U W} (hr : r.receive write = some (o, r')) :
    Carries guess P G r' := by
  rcases receive_eq.mp hr with ⟨u, us, hin, -, rfl⟩ | ⟨ok, us, w, ws, hin, ha, -, rfl⟩
  · refine ⟨hkeep _ u h.cache (h.inbox u ?_), fun u' hu' => h.inbox u' ?_, h.waiting⟩
    · rw [hin]
      exact List.mem_cons_self ..
    · rw [hin]
      exact List.mem_cons_of_mem _ hu'
  · refine ⟨h.cache, fun u' hu' => h.inbox u' ?_, fun w' hw' => h.waiting w' ?_⟩
    · rw [hin]
      exact List.mem_cons_of_mem _ hu'
    · rw [ha]
      exact List.mem_cons_of_mem _ hw'

/-- What is shown has the property too. -/
theorem Carries.view (h : Carries guess P G r) (hkeep : ∀ d u, P d → G u → P (write d u)) :
    P (r.view write guess) :=
  view_of (fun w hw d hd => hkeep d _ hd (h.waiting w hw)) (Or.inl h.cache)

end

/-! ### What will be carried -/

/-- The answers among these messages. -/
def answerCount (us : List (Update U)) : ℕ := (us.filter (fun u => u matches .answer _)).length

/-- Once `n` more messages have been taken, the replica carries `P` and `G`. -/
def CarriesAfter (write : D → U → D) (guess : W → U) (P : D → Prop) (G : U → Prop) (n : ℕ)
    (r : Replica D U W) : Prop :=
  ∃ old new, r.inbox = old ++ new ∧ old.length ≤ n ∧ P (old.foldl (arrive write) r.cache) ∧
    (∀ u, .data u ∈ new → G u) ∧ ∀ w ∈ r.answered.drop (answerCount old) ++ r.queue, G (guess w)

section
variable {P : D → Prop} {G : U → Prop} {n : ℕ}

/-- What holds of the server's data will hold here when the messages on their way have been taken. -/
theorem Synced.carriesAfter (hr : Synced write d r) (hd : P d) (hq : ∀ w ∈ r.queue, G (guess w)) :
    CarriesAfter write guess P G r.inbox.length r := by
  refine ⟨r.inbox, [], (List.append_nil _).symm, Nat.le_refl _, by rwa [hr.cache],
    fun _ h => absurd h List.not_mem_nil, ?_⟩
  intro w hw
  rw [answerCount, ← hr.answers, List.drop_length] at hw
  exact hq w hw

theorem CarriesAfter.carries (h : CarriesAfter write guess P G 0 r) : Carries guess P G r := by
  obtain ⟨old, new, hin, hold, hP, hnew, hw⟩ := h
  obtain rfl := List.eq_nil_of_length_eq_zero (Nat.le_zero.mp hold)
  refine ⟨hP, ?_, hw⟩
  rw [hin]
  exact hnew

theorem CarriesAfter.enqueue (h : CarriesAfter write guess P G n r) {w : W} (hw : G (guess w)) :
    CarriesAfter write guess P G n (r.enqueue w) := by
  obtain ⟨old, new, hin, hold, hP, hnew, hws⟩ := h
  refine ⟨old, new, hin, hold, hP, hnew, ?_⟩
  intro w' hw'
  simp only [Replica.enqueue, ← List.append_assoc] at hw'
  rcases List.mem_append.mp hw' with hw' | hw'
  · exact hws w' hw'
  · rw [List.mem_singleton.mp hw']
    exact hw

theorem CarriesAfter.send (h : CarriesAfter write guess P G n r) {u : U} (hu : G u) :
    CarriesAfter write guess P G n (r.send u) := by
  obtain ⟨old, new, hin, hold, hP, hnew, hws⟩ := h
  refine ⟨old, new ++ [.data u], by simp [Replica.send, hin], hold, hP, ?_, hws⟩
  intro u' hu'
  rcases List.mem_append.mp hu' with hu' | hu'
  · exact hnew u' hu'
  · cases List.mem_singleton.mp hu'
    exact hu

theorem CarriesAfter.answer (h : CarriesAfter write guess P G n r) (ok : Bool) :
    CarriesAfter write guess P G n (r.answer ok) := by
  obtain ⟨old, new, hin, hold, hP, hnew, hws⟩ := h
  unfold Replica.answer
  split
  · exact ⟨old, new, hin, hold, hP, hnew, hws⟩
  · next w ws hq =>
    rw [hq] at hws
    refine ⟨old, new ++ [.answer ok], by simp [hin], hold, hP, ?_, ?_⟩
    · exact fun u hu => hnew u (by simpa using hu)
    · intro w' hw'
      refine hws w' ?_
      rw [List.drop_append, List.append_assoc] at hw'
      rcases List.mem_append.mp hw' with hw' | hw'
      · exact List.mem_append_left _ hw'
      · refine List.mem_append_right _ ?_
        rcases List.mem_append.mp hw' with hw' | hw'
        · rw [List.mem_singleton.mp (List.mem_of_mem_drop hw')]
          exact List.mem_cons_self ..
        · exact List.mem_cons_of_mem _ hw'

/-- One message less to wait for. -/
theorem CarriesAfter.receive (h : CarriesAfter write guess P G n r)
    (hkeep : ∀ d u, P d → G u → P (write d u)) {o : Option (W × Bool)} {r' : Replica D U W}
    (hr : r.receive write = some (o, r')) : CarriesAfter write guess P G (n - 1) r' := by
  obtain ⟨old, new, hin, hold, hP, hnew, hws⟩ := h
  cases old with
  | nil =>
    have hcarries : Carries guess P G r := CarriesAfter.carries ⟨[], new, hin, Nat.le_refl _, hP, hnew, hws⟩
    have hcarries' := hcarries.receive hkeep hr
    exact ⟨[], r'.inbox, rfl, Nat.zero_le _, hcarries'.cache, hcarries'.inbox, hcarries'.waiting⟩
  | cons u old =>
    rw [List.length_cons] at hold
    rcases receive_eq.mp hr with ⟨v, us, hin', -, rfl⟩ | ⟨ok, us, w, ws, hin', ha, -, rfl⟩
    · obtain ⟨rfl, rfl⟩ := List.cons.inj (hin'.symm.trans hin)
      exact ⟨old, new, rfl, by omega, hP, hnew, hws⟩
    · obtain ⟨rfl, rfl⟩ := List.cons.inj (hin'.symm.trans hin)
      rw [ha] at hws
      exact ⟨old, new, rfl, by omega, hP, hnew, hws⟩

end

/-! ### What comes first -/

/-- No update that a write made is still behind the answer to that write. -/
inductive Trails (made : W → U → Prop) : List (Update U) → List W → Prop
  | nil : Trails made [] []
  | data {u : U} {us : List (Update U)} {ws : List W} : Trails made us ws →
      Trails made (.data u :: us) ws
  | answer {ok : Bool} {us : List (Update U)} {w : W} {ws : List W} : Trails made us ws →
      (∀ u, made w u → .data u ∉ us) → Trails made (.answer ok :: us) (w :: ws)

section
variable {made : W → U → Prop} {us : List (Update U)} {ws : List W}

theorem Trails.mono {made' : W → U → Prop} (h : Trails made us ws)
    (hle : ∀ w ∈ ws, ∀ u, made' w u → made w u) : Trails made' us ws := by
  induction h with
  | nil => exact .nil
  | data _ ih => exact .data (ih hle)
  | answer _ hbefore ih =>
    refine .answer (ih fun w hw => hle w (List.mem_cons_of_mem _ hw)) ?_
    exact fun u hmade => hbefore u (hle _ (List.mem_cons_self ..) u hmade)

/-- An update that none of the answered writes made can come at any time. -/
theorem Trails.send (h : Trails made us ws) {u : U} (hu : ∀ w ∈ ws, ¬ made w u) :
    Trails made (us ++ [.data u]) ws := by
  induction h with
  | nil => exact .data .nil
  | data _ ih => exact .data (ih hu)
  | answer _ hbefore ih =>
    refine .answer (ih fun w hw => hu w (List.mem_cons_of_mem _ hw)) ?_
    intro u' hmade hmem
    rcases List.mem_append.mp hmem with hmem | hmem
    · exact hbefore u' hmade hmem
    · cases List.mem_singleton.mp hmem
      exact hu _ (List.mem_cons_self ..) hmade

theorem Trails.answer_concat (h : Trails made us ws) (ok : Bool) (w : W) :
    Trails made (us ++ [.answer ok]) (ws ++ [w]) := by
  induction h with
  | nil => exact .answer .nil (fun _ _ hmem => absurd hmem List.not_mem_nil)
  | data _ ih => exact .data ih
  | answer _ hbefore ih =>
    refine .answer ih ?_
    intro u hmade hmem
    rcases List.mem_append.mp hmem with hmem | hmem
    · exact hbefore u hmade hmem
    · cases List.mem_singleton.mp hmem

end

end Replica
end Schemes
