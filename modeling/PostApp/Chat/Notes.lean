import Mathlib.Data.List.Perm.Basic
import PostApp.Chat.Mailbox

/-! A chat with oneself.

    `AllPersonVC` lists everybody, its user too, so a user can open a chat with themselves. Both legs of a
    send then write to the same copy of the conversation, under opposite flags: every note is on the
    screen twice, once in each bubble (`notes_doubled`). -/

namespace PostApp.Mailbox
open Schemes Chat Screen
variable [URLSyntax]

/-- The deliveries of one side to the mailbox that `x` keeps for themselves. -/
def ownSide (side : Side) (x : String) (log : List Delivery) : List Delivery :=
  (deliveries x x log).filter (fun d => decide (d.side = side))

section Notes
variable {db : Value} {es : List Chat.Event} {s : Chat.State} {log : List Delivery} {x : String}
  {side : Side} {d : Delivery} {σ : Send}

/-- Either leg of a send to oneself goes to the one mailbox. -/
theorem to_own : d.To x x ↔ Between d.send x x := by
  cases hside : d.side <;> simp [Delivery.To, Between, hside, Side.owner, Side.peer, and_comm]

theorem mem_ownSide : d ∈ ownSide side x log ↔ d ∈ log ∧ Between d.send x x ∧ d.side = side := by
  rw [ownSide, List.mem_filter, mem_deliveries, to_own, decide_eq_true_iff, and_assoc]

/-- A side delivers a send once. -/
theorem nodup_ownSide (hnodup : (log.map Delivery.origin).Nodup) :
    ((ownSide side x log).map Delivery.send).Nodup := by
  refine List.Nodup.map_on ?_ (((List.Nodup.of_map _ hnodup).filter _).filter _)
  intro d hd d' hd' heq
  obtain ⟨hd, -, hside⟩ := mem_ownSide.mp hd
  obtain ⟨hd', -, hside'⟩ := mem_ownSide.mp hd'
  exact List.inj_on_of_nodup_map hnodup hd hd' (Prod.ext heq (hside.trans hside'.symm))

/-- Each side has delivered every send to oneself. -/
theorem mem_ownSide_sends (hr : run Chat.step (Chat.init db) es = some s) (hR : Refines s log)
    (hall : ∀ σ, .tap σ ∈ es → Between σ x x → DeliveredAlike s σ) :
    σ ∈ (ownSide side x log).map Delivery.send ↔ .tap σ ∈ es ∧ Between σ x x := by
  constructor
  · intro hmem
    obtain ⟨d, hd, rfl⟩ := List.mem_map.mp hmem
    obtain ⟨hd, hb, -⟩ := mem_ownSide.mp hd
    exact ⟨tap_mem hr (under_way (hR.issued d hd).1), hb⟩
  · rintro ⟨htap, hb⟩
    have hmem := (hR.delivered σ side).mpr ((hall σ htap hb).stored side)
    obtain ⟨d, hd, heq⟩ := List.mem_map.mp hmem
    obtain ⟨rfl, rfl⟩ := Prod.mk.inj heq
    exact List.mem_map.mpr ⟨d, mem_ownSide.mpr ⟨hd, hb, rfl⟩, rfl⟩

/-- A side puts the text of each send into its own bubble. -/
theorem ownSide_lines (hr : run Chat.step (Chat.init db) es = some s) (hR : Refines s log)
    (hall : ∀ σ, .tap σ ∈ es → Between σ x x → DeliveredAlike s σ) :
    (ownSide side x log).map (fun d => (d.message.text, d.message.isSender)) =
      ((ownSide side x log).map Delivery.send).map (fun σ => (textOf s σ, side.isSender)) := by
  rw [List.map_map]
  refine List.map_congr_left ?_
  intro d hd
  obtain ⟨hlog, hb, rfl⟩ := mem_ownSide.mp hd
  have hsent := (hR.issued d hlog).1
  have htext := (hall d.send (tap_mem hr (under_way hsent)) hb).textOf_eq hsent
  exact Prod.ext htext.symm (hR.issued d hlog).2

theorem perm_sides (x : String) (log : List Delivery) :
    (ownSide .receiver x log ++ ownSide .sender x log).Perm (deliveries x x log) := by
  have hother : ownSide .sender x log =
      (deliveries x x log).filter (fun d => !decide (d.side = .receiver)) := by
    refine List.filter_congr ?_
    intro d _
    cases d.side <;> rfl
  rw [hother]
  exact List.filter_append_perm _ _

end Notes

/-- When every send of a user to themselves has been delivered by both legs, with the same text, and no
    header write was raced, their screen lists the text of each send twice, once in each bubble, and
    nothing else. -/
theorem notes_doubled (x autor : UserProfile) (db : Value) (es : List Chat.Event) (s : Chat.State)
    (hdb : ∀ x y, db.get (boxRef x y) = .null)
    (hrace : Along Chat.step (fun pre _ e _ => Unraced pre e) (Chat.init db) es)
    (hr : run Chat.step (Chat.init db) es = some s)
    (hall : ∀ σ, .tap σ ∈ es → Between σ x.uId x.uId → DeliveredAlike s σ) :
    ∃ notes : List Send, notes.Nodup ∧ (∀ σ, σ ∈ notes ↔ .tap σ ∈ es ∧ Between σ x.uId x.uId) ∧
      ((observeMessages autor (snapshotAt (messagesRef x x) s.db)).map
          (fun m => (m.text, m.isSender))).Perm
        (notes.flatMap (fun σ => [(textOf s σ, true), (textOf s σ, false)])) := by
  obtain ⟨ds, log, -, hnodup, hR⟩ := refines_mailboxes db es s hdb hrace hr
  have hsends : ∀ side σ, σ ∈ (ownSide side x.uId log).map Delivery.send ↔
      .tap σ ∈ es ∧ Between σ x.uId x.uId := fun side σ => mem_ownSide_sends hr hR hall
  set notes := (ownSide .receiver x.uId log).map Delivery.send with hnotes
  refine ⟨notes, nodup_ownSide hnodup, hsends .receiver, ?_⟩
  have hbox : Stores (box x.uId x.uId log) (s.db.get (messagesRef x x)) := hR.boxes _ _
  rw [snapshotAt, observeMessages_of_stores x x autor hbox, List.map_map]
  -- the sender legs have delivered the same sends
  have hsame : ((ownSide .sender x.uId log).map Delivery.send).Perm notes :=
    (List.perm_ext_iff_of_nodup (nodup_ownSide hnodup) (nodup_ownSide hnodup)).mpr
      (fun σ => (hsends .sender σ).trans (hsends .receiver σ).symm)
  have hread : (box x.uId x.uId log).map (fun m => (m.text, m.isSender)) =
      (deliveries x.uId x.uId log).map (fun d => (d.message.text, d.message.isSender)) := by
    rw [box, List.map_map]
    rfl
  have hsides : ((deliveries x.uId x.uId log).map (fun d => (d.message.text, d.message.isSender))).Perm
      (notes.map (fun σ => (textOf s σ, true)) ++ notes.map (fun σ => (textOf s σ, false))) := by
    refine ((perm_sides x.uId log).symm.map _).trans ?_
    rw [List.map_append, ownSide_lines hr hR hall, ownSide_lines hr hR hall]
    exact (hsame.map _).append_left _
  refine ((List.mergeSort_perm _ _).map _).trans (.trans (.of_eq hread) (hsides.trans ?_))
  rw [List.map_eq_flatMap, List.map_eq_flatMap]
  exact List.flatMap_append_perm notes (fun σ => [(textOf s σ, true)]) (fun σ => [(textOf s σ, false)])

/-- The second snapshot already has the header that the first leg has written. -/
def firstNote (σ : Send) : List Chat.Event :=
  [.tap σ, .snapshot σ .receiver, .callback σ .receiver "-L1" "milk", .store σ .receiver .header 1,
    .snapshot σ .sender, .callback σ .sender "-L2" "milk", .store σ .receiver .message 2,
    .store σ .sender .message 3]

omit [URLSyntax] in
theorem notes_doubled_first : ∃ (_ : URLSyntax) (x : UserProfile) (s : Chat.State),
    run Chat.step (Chat.init .null) (firstNote ⟨0, 0, 0, x, x⟩) = some s ∧ ∃ notes : List Send,
      notes.Nodup ∧ ((observeMessages x (snapshotAt (messagesRef x x) s.db)).map
          (fun m => (m.text, m.isSender))).Perm
        (notes.flatMap (fun σ => [(textOf s σ, true), (textOf s σ, false)])) := by
  let _ := nonEmptyURLs
  let σ : Send := ⟨0, 0, 0, ann, ann⟩
  let i : Issued := ⟨true, "-L1", "milk", .stored, .stored, false⟩
  let j : Issued := ⟨false, "-L2", "milk", .notIssued, .stored, false⟩
  obtain ⟨s, hs, hp⟩ := exists_of_run_any Chat.step (Chat.init .null) (firstNote σ)
    (fun s => s.phase σ .receiver = .issued i ∧ s.phase σ .sender = .issued j) (by decide)
  obtain ⟨hi, hj⟩ := decide_eq_true_iff.mp hp
  obtain ⟨notes, hnodup, -, hlist⟩ := notes_doubled ann ann .null (firstNote σ) s
    (fun _ _ => Node.get_null _) (along_of_positions (by decide)) hs (by
      intro τ hτ _
      obtain rfl : τ = σ := by simpa [firstNote] using hτ
      exact ⟨i, j, hi, hj, rfl, rfl, rfl⟩)
  exact ⟨nonEmptyURLs, ann, s, hs, notes, hnodup, hlist⟩

end PostApp.Mailbox
