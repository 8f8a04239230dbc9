import Mathlib.Algebra.GroupWithZero.Nat
import Mathlib.Algebra.Order.BigOperators.Group.Finset
import PostApp.Feed.Posts
import PostApp.Schemes.Settle

/-! All feeds come to agree.

    Saves and removals are under way, writes of one device on their way to the others, value events not
    delivered. When the users of some devices leave them alone, these devices come to rest, and then
    every `HomeVC` on them shows the same rows, one for each stored post (`feeds_converge`). The rank
    that pays for it: a write that is applied costs a message to every device, and a message costs a
    value event in every `HomeVC` and a completion at most. -/

namespace PostApp.Feed
open Schemes
variable [URLSyntax]

/-- What happens on these devices and to their writes while nobody touches them. -/
def Background (F : Finset ℕ) : Event → Prop
  | .device client .receive => client ∈ F
  | .device client (.home _ .valueEvent) => client ∈ F
  | .device client (.home _ .completion) => client ∈ F
  | .store client _ => client ∈ F
  | .reject client => client ∈ F
  | _ => False

/-- The completions and value events that a `HomeVC` is waiting for. -/
def HomeVC.owes (vc : HomeVC) : ℕ := vc.completions.length + vc.listener.pending.length

/-- The background events that a device is waiting for or gives rise to, at most, where a write costs
    `price`. -/
def Client.owes (price : ℕ) (c : Client) : ℕ :=
  (c.homes.map HomeVC.owes).sum + (c.homes.length + 2) * c.replica.inbox.length +
    price * c.replica.queue.length

/-- More than the messages about one write can cost. -/
def State.price (F : Finset ℕ) (s : State) : ℕ :=
  2 * F.sum (fun k => (s.client k).homes.length + 2) + 1

def State.owes (F : Finset ℕ) (s : State) : ℕ := F.sum (fun k => (s.client k).owes (s.price F))

/-- Nothing is on its way to the device or from it. -/
structure Quiet (c : Client) : Prop where
  queue : c.replica.queue = []
  inbox : c.replica.inbox = []
  completions : ∀ vc ∈ c.homes, vc.completions = []
  listeners : ∀ vc ∈ c.homes, vc.listener.pending = []

/-- The saves of these devices have been judged and completed, and their feeds show the same rows, one
    for each stored post. -/
structure Agree (F : Finset ℕ) (s : State) : Prop where
  judged : ∀ c ∈ F, saves (s.client c).replica = [] ∧
    ∀ vc ∈ (s.client c).homes, vc.completions = []
  same : ∀ c ∈ F, ∀ vc ∈ (s.client c).homes, vc.posts = observePosts (snapshotAt postsRef s.db) ∧
    (vc.posts.map entryOf).Perm s.stored

/-! ### The rank -/

section Device
variable {c c' : Client} {price n : ℕ}

/-- A `HomeVC` settles something. -/
theorem owes_home {vc vc' : HomeVC} (hvc : c.homes[n]? = some vc) (hlt : vc'.owes < vc.owes) :
    Client.owes price { c with homes := c.homes.set n vc' } < c.owes price := by
  have hsum := sum_map_set (f := HomeVC.owes) hvc vc'
  simp only [Client.owes, List.length_set]
  omega

theorem owes_valueEvent (h : c.step (.home n .valueEvent) = some c') : c'.owes price < c.owes price := by
  obtain ⟨vc, vc', hvc, hstep, rfl⟩ := client_home h
  obtain ⟨v, ℓ, hf, rfl⟩ := home_valueEvent hstep
  obtain ⟨vs, hp, rfl⟩ := Listener.fire_eq.mp hf
  refine owes_home hvc ?_
  simp only [HomeVC.owes, hp, List.length_cons]
  omega

theorem owes_completion (h : c.step (.home n .completion) = some c') : c'.owes price < c.owes price := by
  obtain ⟨vc, vc', hvc, hstep, rfl⟩ := client_home h
  refine owes_home hvc ?_
  obtain ⟨ok, rest, hcomp, ⟨-, rfl⟩ | ⟨-, rfl⟩⟩ := home_completion hstep
  · simp only [HomeVC.owes, hcomp, List.length_cons]
    omega
  · simp only [HomeVC.owes, hcomp, List.length_cons]
    omega

/-- A new state of the replica costs one value event at most in every `HomeVC`. -/
theorem owes_sync (c : Client) (r : Replica Value (Path × Value) Write) :
    ((c.sync r).homes.map HomeVC.owes).sum ≤ (c.homes.map HomeVC.owes).sum + c.homes.length := by
  rw [Client.sync, List.map_map]
  refine sum_map_le (fun vc => ?_)
  simp only [Function.comp_apply, HomeVC.owes, HomeVC.told, Listener.notify]
  split_ifs
  · omega
  · simp only [List.length_append, List.length_singleton]
    omega

/-- An answer costs one completion at most. -/
theorem owes_deliver (homes : List HomeVC) (answer : Option (Write × Bool)) :
    ((deliver homes answer).map HomeVC.owes).sum ≤ (homes.map HomeVC.owes).sum + 1 := by
  unfold deliver
  split
  · next w ok =>
    split
    · next n _ =>
      rw [List.modify_eq_set_getElem?]
      cases hvc : homes[n]? with
      | none => exact Nat.le_succ _
      | some vc =>
        have hsum := sum_map_set (f := HomeVC.owes) hvc (vc.answered ok)
        have hvc' : (vc.answered ok).owes = vc.owes + 1 := by
          simp only [HomeVC.owes, HomeVC.answered, List.length_append, List.length_singleton]
          omega
        simp only [Option.map_eq_map, Option.map_some, Option.getD_some]
        omega
    · exact Nat.le_succ _
  · exact Nat.le_succ _

theorem owes_receive (h : c.step .receive = some c') : c'.owes price < c.owes price := by
  obtain ⟨answer, r, hr, rfl⟩ := client_receive h
  have hsync := owes_sync c r
  have hdeliver := owes_deliver (c.sync r).homes answer
  have hless : r.inbox.length + 1 = c.replica.inbox.length ∧ r.queue = c.replica.queue := by
    rcases Replica.receive_eq.mp hr with ⟨u, us, hin, -, rfl⟩ | ⟨ok, us, w, ws, hin, -, -, rfl⟩
    · exact ⟨by simp [hin], rfl⟩
    · exact ⟨by simp [hin], rfl⟩
  obtain ⟨hin, hq⟩ := hless
  have hlen : (deliver (c.sync r).homes answer).length = c.homes.length := by simp [Client.sync]
  simp only [Client.owes, hlen, ← hin, Nat.mul_succ]
  simp only [Client.sync] at hsync hdeliver ⊢
  rw [hq]
  omega

theorem owes_send (c : Client) (u : Path × Value) :
    Client.owes price { c with replica := c.replica.send u } =
      c.owes price + (c.homes.length + 2) := by
  simp only [Client.owes, Replica.send, List.length_append, List.length_singleton, Nat.mul_succ]
  omega

/-- The answer to the oldest write costs a message, and the write is judged. -/
theorem owes_answer (c : Client) (price : ℕ) {w : Write} {ws : List Write} (ok : Bool)
    (hq : c.replica.queue = w :: ws) :
    Client.owes price { c with replica := c.replica.answer ok } + price =
      c.owes price + (c.homes.length + 2) := by
  simp only [Client.owes, Replica.answer, hq, List.length_append, List.length_cons, List.length_nil,
    Nat.mul_succ]
  omega

theorem owes_rejected {w : Write} {ws : List Write} (hq : c.replica.queue = w :: ws)
    (hprice : c.homes.length + 2 < price) :
    Client.owes price { c with replica := c.replica.answer false } < c.owes price := by
  have hanswer := owes_answer c price false hq
  omega

end Device

section Rank
variable {F : Finset ℕ} {db₀ : Value} {s s' : State} {e : Event}

/-- In the background no `HomeVC` is loaded. -/
theorem price_step (hF : Background F e) (h : step s e = some s') : s'.price F = s.price F := by
  have hsame : ∀ k, (s'.client k).homes.length = (s.client k).homes.length := by
    intro k
    rw [homes_step h k, if_neg, Nat.add_zero]
    rintro rfl
    exact hF
  simp only [State.price, hsame]

/-- A device takes a step by itself. -/
theorem owes_update {client : ℕ} {c : Client} (hF : client ∈ F)
    (hprice : State.price F { s with client := Function.update s.client client c } = s.price F)
    (hlt : c.owes (s.price F) < (s.client client).owes (s.price F)) :
    State.owes F { s with client := Function.update s.client client c } < s.owes F := by
  rw [State.owes, State.owes, hprice]
  refine Finset.sum_lt_sum ?_ ⟨client, hF, ?_⟩
  · intro k _
    exact (Function.forall_update_iff s.client
      (fun k c => c.owes (s.price F) ≤ (s.client k).owes (s.price F))).mpr
      ⟨Nat.le_of_lt hlt, fun _ _ => Nat.le_refl _⟩ k
  · simpa only [Function.update_self] using hlt

theorem owes_store {client : ℕ} {now : Rat} (hF : client ∈ F)
    (h : step s (.store client now) = some s') : s'.owes F < s.owes F := by
  have hprice : s'.price F = s.price F := price_step (e := .store client now) hF h
  rw [State.owes, State.owes, hprice]
  obtain ⟨w, ws, hq, rfl⟩ := step_store h
  set u : Path × Value := (w.path, resolve now w.value) with hu
  set p : ℕ := s.price F with hp
  have hothers : ∀ k ∈ F.erase client, ((s.accept client now w).client k).owes p =
      (s.client k).owes p + ((s.client k).homes.length + 2) := by
    intro k hk
    simp only [State.accept, if_neg (Finset.ne_of_mem_erase hk)]
    exact owes_send _ _
  have hown : ((s.accept client now w).client client).owes p + p =
      (s.client client).owes p + 2 * ((s.client client).homes.length + 2) := by
    have hanswer := owes_answer
      { s.client client with replica := (s.client client).replica.send u } p true hq
    rw [owes_send] at hanswer
    simp only [State.accept, if_true]
    rw [Nat.two_mul, ← Nat.add_assoc]
    exact hanswer
  have hsum : (F.erase client).sum (fun k => ((s.accept client now w).client k).owes p) =
      (F.erase client).sum (fun k => (s.client k).owes p) +
        (F.erase client).sum (fun k => (s.client k).homes.length + 2) := by
    rw [Finset.sum_congr rfl hothers, Finset.sum_add_distrib]
  have hall : (s.client client).homes.length + 2 +
      (F.erase client).sum (fun k => (s.client k).homes.length + 2) =
      F.sum (fun k => (s.client k).homes.length + 2) :=
    Finset.add_sum_erase F (fun k => (s.client k).homes.length + 2) hF
  rw [← Finset.add_sum_erase F _ hF, ← Finset.add_sum_erase F (fun k => (s.client k).owes p) hF, hsum]
  rw [State.price, ← hall] at hp
  omega

theorem owes_reject {client : ℕ} (hF : client ∈ F) (h : step s (.reject client) = some s') :
    s'.owes F < s.owes F := by
  have hprice : s'.price F = s.price F := price_step (e := .reject client) hF h
  cases hq : (s.client client).replica.queue with
  | nil => simp [step, hq] at h
  | cons w ws =>
    obtain rfl := step_reject h
    refine owes_update hF hprice (owes_rejected hq ?_)
    have hle : (s.client client).homes.length + 2 ≤
        F.sum (fun k => (s.client k).homes.length + 2) :=
      Finset.single_le_sum (f := fun k => (s.client k).homes.length + 2) (fun _ _ => Nat.zero_le _) hF
    have hpay : s.price F = 2 * F.sum (fun k => (s.client k).homes.length + 2) + 1 := rfl
    omega

theorem owes_step (hF : Background F e) (h : step s e = some s') : s'.owes F < s.owes F := by
  have hprice := price_step hF h
  cases e with
  | device client a =>
    obtain ⟨c, hc, rfl⟩ := step_device h
    cases a with
    | receive => exact owes_update hF hprice (owes_receive hc)
    | home n b =>
      cases b with
      | valueEvent => exact owes_update hF hprice (owes_valueEvent hc)
      | completion => exact owes_update hF hprice (owes_completion hc)
      | edit | editActions => exact hF.elim
    | profile | auth | viewDidLoad | delete => exact hF.elim
  | savePost client n key estimate => exact hF.elim
  | store client now => exact owes_store hF h
  | reject client => exact owes_reject hF h

theorem lowers (db₀ : Value) (F : Finset ℕ) :
    Lowers step (Ledger db₀) (Background F) (State.owes F) where
  keeps := fun _ _ _ hs _ h => ledger_step hs h
  lower := fun _ _ _ _ hF h => owes_step hF h

/-! ### What is still enabled -/

/-- A message can always be taken: an answer comes with its write. -/
theorem receive_enabled {r : Replica Value (Path × Value) Write} {db : Value}
    (hr : Replica.Synced put db r) (hin : r.inbox ≠ []) : ∃ o r', r.receive put = some (o, r') := by
  obtain ⟨u, us, hcons⟩ := List.exists_cons_of_ne_nil hin
  cases u with
  | data u => exact ⟨none, _, Replica.receive_eq.mpr (Or.inl ⟨u, us, hcons, rfl, rfl⟩)⟩
  | answer ok =>
    have hanswers := hr.answers
    rw [hcons] at hanswers
    obtain ⟨w, ws, hw⟩ := List.exists_cons_of_length_eq_add_one hanswers
    exact ⟨some (w, ok), _, Replica.receive_eq.mpr (Or.inr ⟨ok, us, w, ws, hcons, hw, rfl, rfl⟩)⟩

theorem device_enabled (hs : Ledger db₀ s) {client : ℕ} (hno : ¬ Quiet (s.client client)) :
    ∃ e s', (∀ F : Finset ℕ, client ∈ F → Background F e) ∧ step s e = some s' := by
  by_cases hq : (s.client client).replica.queue = []
  · by_cases hin : (s.client client).replica.inbox = []
    · by_cases hcomp : ∀ vc ∈ (s.client client).homes, vc.completions = []
      · have hlistener : ∃ vc ∈ (s.client client).homes, vc.listener.pending ≠ [] := by
          by_contra hall
          push Not at hall
          exact hno ⟨hq, hin, hcomp, hall⟩
        obtain ⟨vc, hvc, hp⟩ := hlistener
        obtain ⟨n, hn⟩ := List.mem_iff_getElem?.mp hvc
        obtain ⟨v, vs, hcons⟩ := List.exists_cons_of_ne_nil hp
        have hfire := Listener.fire_eq.mpr ⟨vs, hcons, rfl⟩
        exact ⟨.device client (.home n .valueEvent), _, fun _ hF => hF,
          by simp only [step, Client.step, HomeVC.step, hn, hfire, Option.bind_eq_bind,
            Option.bind_some]; rfl⟩
      · push Not at hcomp
        obtain ⟨vc, hvc, hne⟩ := hcomp
        obtain ⟨n, hn⟩ := List.mem_iff_getElem?.mp hvc
        obtain ⟨ok, rest, hcons⟩ := List.exists_cons_of_ne_nil hne
        have hstep : ∃ vc', vc.step (s.client client).currentUser .completion = some vc' := by
          cases ok with
          | true => exact ⟨_, by simp only [HomeVC.step, hcons, if_true]; rfl⟩
          | false => exact ⟨_, by simp only [HomeVC.step, hcons]; rfl⟩
        obtain ⟨vc', hvc'⟩ := hstep
        exact ⟨.device client (.home n .completion), _, fun _ hF => hF,
          by simp only [step, Client.step, hn, hvc', Option.bind_eq_bind, Option.bind_some]; rfl⟩
    · obtain ⟨o, r, hr⟩ := receive_enabled (hs.serves client).synced hin
      exact ⟨.device client .receive, _, fun _ hF => hF,
        by simp only [step, Client.step, hr, Option.bind_eq_bind, Option.bind_some]; rfl⟩
  · obtain ⟨w, ws, hcons⟩ := List.exists_cons_of_ne_nil hq
    exact ⟨.reject client, _, fun _ hF => hF, by simp only [step, hcons]; rfl⟩

/-- A quiet device shows what the server has stored. -/
theorem agree_of_quiet (hs : Ledger db₀ s) (hquiet : ∀ c ∈ F, Quiet (s.client c)) : Agree F s := by
  refine ⟨?_, ?_⟩
  · intro c hc
    exact ⟨by simp [saves, (hquiet c hc).queue], (hquiet c hc).completions⟩
  · intro c hc vc hvc
    have hposts := (hs.serves c).posts_eq hvc ((hquiet c hc).listeners vc hvc) (hquiet c hc).inbox
      (hquiet c hc).queue
    refine ⟨hposts, ?_⟩
    rw [hposts]
    refine (List.perm_ext_iff_of_nodup ((entries_once s.db).of_map _) (hs.once.of_map _)).mpr ?_
    intro e
    rw [hs.stored]
    exact mem_entries

theorem progress (hs : Ledger db₀ s) (hno : ¬ Agree F s) :
    ∃ e s', Background F e ∧ step s e = some s' := by
  have hbusy : ∃ c ∈ F, ¬ Quiet (s.client c) := by
    by_contra hall
    push Not at hall
    exact hno (agree_of_quiet hs hall)
  obtain ⟨c, hc, hquiet⟩ := hbusy
  obtain ⟨e, s', hF, h⟩ := device_enabled hs hquiet
  exact ⟨e, s', hF F hc, h⟩

end Rank

/-- From any state that a run reaches, devices left alone come to agree: no run of background events is
    longer than what they owe, one that cannot be continued ends with all saves judged and all their
    feeds showing the same rows, one for each stored post, and there is such a run. -/
theorem feeds_converge (db₀ : Value) (es : List Event) (s : State) (F : Finset ℕ)
    (hr : run step (init db₀) es = some s) :
    (∀ es' s', (∀ e ∈ es', Background F e) → run step s es' = some s' →
      es'.length ≤ s.owes F ∧ ((∀ e, Background F e → step s' e = none) → Agree F s')) ∧
    ∃ es' s', (∀ e ∈ es', Background F e) ∧ run step s es' = some s' ∧ Agree F s' := by
  have hs : Ledger db₀ s := run_invariant (ledger_init db₀) (fun _ _ _ => ledger_step) hr
  refine ⟨?_, (lowers db₀ F).exists_rest (fun _ hs hno => progress hs hno) s hs⟩
  intro es' s' hF h'
  obtain ⟨hs', hlen⟩ := (lowers db₀ F).length_le hs hF h'
  refine ⟨by omega, ?_⟩
  intro hstuck
  by_contra hno
  obtain ⟨e, s'', he, hstep⟩ := progress hs' hno
  rw [hstuck e he] at hstep
  cases hstep

omit [URLSyntax] in
/-- Two devices, each with a save of its own that the other has not seen. -/
theorem feeds_converge_two : ∃ (_ : URLSyntax) (es : List Event) (s : State),
    run step (init .null) es = some s ∧ s.taps.length = 2 ∧
      (s.client 0).homes.map HomeVC.posts ≠ (s.client 1).homes.map HomeVC.posts ∧
      ∃ es' s', (∀ e ∈ es', Background {0, 1} e) ∧ run step s es' = some s' ∧ Agree {0, 1} s' := by
  let _ := nonEmptyURLs
  let es : List Event := [.device 0 (.profile (some ann)), .device 1 (.profile (some bob)),
    .device 0 .viewDidLoad, .device 1 .viewDidLoad, .device 0 (.home 0 (.edit "hi")),
    .device 1 (.home 0 (.edit "yo")), .savePost 0 0 "-L1" 1, .savePost 1 0 "-L2" 2,
    .device 0 (.home 0 .valueEvent), .device 0 (.home 0 .valueEvent)]
  obtain ⟨s, hs, hp⟩ := exists_of_run_any step (init .null) es
    (fun s => s.taps.length = 2 ∧ (s.client 0).homes.map (fun vc => vc.posts.length) ≠
      (s.client 1).homes.map (fun vc => vc.posts.length)) (by decide)
  obtain ⟨htaps, hne⟩ := decide_eq_true_iff.mp hp
  refine ⟨nonEmptyURLs, es, s, hs, htaps, ?_, (feeds_converge .null es s {0, 1} hs).2⟩
  intro hsame
  have hlengths := congrArg (List.map List.length) hsame
  rw [List.map_map, List.map_map] at hlengths
  exact hne hlengths

end PostApp.Feed
