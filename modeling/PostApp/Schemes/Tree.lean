import Mathlib.Order.Defs.LinearOrder
import Mathlib.Order.Lattice
import Mathlib.Data.List.Pairwise

/-! Key-ordered trees: the values of a hierarchical store.

    A tree is empty, a leaf, or an object whose children are listed in increasing key order. An
    object never keeps an empty child, so "nothing is stored here" has one representation. `Node`
    carries that invariant; reads (`child`, `get`) and overwrites (`insert`, `set`) follow a path of
    keys. The laws say what a write changes (the subtree at its path) and what it leaves alone
    (every path that is apart from it). -/

namespace Schemes

/-- A value of the store: nothing, a leaf, or an object given child by child. -/
inductive Tree (K α : Type) where
  | null
  | leaf (a : α)
  | cons (key : K) (child rest : Tree K α)
  deriving DecidableEq

namespace Tree
variable {K α : Type}

/-- The children of an object, in the order they are listed. -/
def entries : Tree K α → List (K × Tree K α)
  | cons k c r => (k, c) :: r.entries
  | _ => []

def isLeaf : Tree K α → Bool
  | leaf _ => true
  | _ => false

/-- Put child `k` in front of the object `r`; an empty child is dropped. -/
def link (k : K) : Tree K α → Tree K α → Tree K α
  | null, r => r
  | c, r => cons k c r

theorem link_of_ne (k : K) {c : Tree K α} (hc : c ≠ null) (r : Tree K α) :
    link k c r = cons k c r := by
  cases c <;> simp_all [link]

theorem mem_entries_link {k : K} {c r : Tree K α} {e : K × Tree K α}
    (he : e ∈ (link k c r).entries) : e = (k, c) ∨ e ∈ r.entries := by
  cases c <;> simp_all [link, entries]

theorem isLeaf_link {k : K} {c r : Tree K α} (hl : r.isLeaf = false) :
    (link k c r).isLeaf = false := by
  cases c <;> simp_all [link, isLeaf]

variable [LinearOrder K]

/-- The child at key `k`; nothing if there is none. -/
def child (k : K) : Tree K α → Tree K α
  | cons k' c r => if k = k' then c else r.child k
  | _ => null

/-- Replace the child at key `k`. A leaf gives way to an object, unless the child is empty. -/
def insert (k : K) (c : Tree K α) : Tree K α → Tree K α
  | cons k' c' r =>
    if k < k' then link k c (cons k' c' r)
    else if k = k' then link k c r
    else cons k' c' (insert k c r)
  | leaf a => match c with
    | null => leaf a
    | c => cons k c null
  | null => link k c null

/-- Objects list non-empty children in strictly increasing key order, at every depth. -/
def Ordered : Tree K α → Prop
  | cons k c r => c ≠ null ∧ c.Ordered ∧ r.Ordered ∧ r.isLeaf = false ∧ ∀ e ∈ r.entries, k < e.1
  | _ => True

theorem insert_leaf (k : K) {c : Tree K α} (hc : c ≠ null) (a : α) :
    insert k c (leaf a) = cons k c null := by
  cases c <;> simp_all [insert]

theorem mem_entries_insert {k : K} {c t : Tree K α} {e : K × Tree K α}
    (he : e ∈ (insert k c t).entries) : e = (k, c) ∨ e ∈ t.entries := by
  induction t with
  | null => exact mem_entries_link he
  | leaf a => cases c <;> simp_all [insert, entries]
  | cons k' c' r _ ih =>
    simp only [insert] at he
    split_ifs at he with hlt heq
    · exact mem_entries_link he
    · exact (mem_entries_link he).imp_right (List.mem_cons_of_mem _)
    · rcases List.mem_cons.mp he with h | h
      · exact Or.inr (by simp [entries, h])
      · exact (ih h).imp_right (List.mem_cons_of_mem _)

theorem isLeaf_insert {k : K} {c t : Tree K α} (hl : t.isLeaf = false) (ho : t.Ordered) :
    (insert k c t).isLeaf = false := by
  cases t with
  | null => exact isLeaf_link hl
  | leaf a => simp [isLeaf] at hl
  | cons k' c' r =>
    simp only [insert]
    split_ifs
    · exact isLeaf_link hl
    · exact isLeaf_link ho.2.2.2.1
    · rfl

theorem ordered_link {k : K} {c r : Tree K α} (hc : c.Ordered) (hr : r.Ordered)
    (hl : r.isLeaf = false) (hk : ∀ e ∈ r.entries, k < e.1) : (link k c r).Ordered := by
  by_cases h : c = null
  · rw [h]; exact hr
  · rw [link_of_ne k h]; exact ⟨h, hc, hr, hl, hk⟩

/-- Replacing a child keeps the keys strictly increasing. -/
theorem ordered_insert {k : K} {c t : Tree K α} (hc : c.Ordered) (ht : t.Ordered) :
    (insert k c t).Ordered := by
  induction t with
  | null => exact ordered_link hc ht rfl (by simp [entries])
  | leaf a =>
    by_cases h : c = null
    · rw [h]; exact ht
    · rw [insert_leaf k h]; exact ⟨h, hc, trivial, rfl, by simp [entries]⟩
  | cons k' c' r _ ih =>
    obtain ⟨hne, hc', hr, hl, hk⟩ := ht
    simp only [insert]
    split_ifs with hlt heq
    · refine ordered_link hc ⟨hne, hc', hr, hl, hk⟩ rfl ?_
      intro e he
      rcases List.mem_cons.mp he with rfl | he
      · exact hlt
      · exact lt_trans hlt (hk e he)
    · subst heq; exact ordered_link hc hr hl hk
    · refine ⟨hne, hc', ih hr, isLeaf_insert hl hr, ?_⟩
      intro e he
      rcases mem_entries_insert he with rfl | he
      · exact lt_of_le_of_ne (not_lt.mp hlt) (Ne.symm heq)
      · exact hk e he

theorem child_eq_null {k : K} {t : Tree K α} (h : ∀ e ∈ t.entries, k < e.1) : t.child k = null := by
  induction t with
  | null => rfl
  | leaf a => rfl
  | cons k' c r _ ih =>
    have hk : k < k' := h (k', c) (by simp [entries])
    simp only [child, if_neg hk.ne]
    exact ih (fun e he => h e (List.mem_cons_of_mem _ he))

theorem child_link {k : K} {c r : Tree K α} (h : r.child k = null) : (link k c r).child k = c := by
  cases c <;> simp_all [link, child]

theorem child_link_ne {k k' : K} (hk : k' ≠ k) (c r : Tree K α) :
    (link k c r).child k' = r.child k' := by
  cases c <;> simp [link, child, hk]

/-- Reading back the child just written. -/
theorem child_insert {k : K} {c t : Tree K α} (ht : t.Ordered) : (insert k c t).child k = c := by
  induction t with
  | null => exact child_link rfl
  | leaf a => cases c <;> simp [insert, child]
  | cons k' c' r _ ih =>
    obtain ⟨hne, hc', hr, hl, hk⟩ := ht
    simp only [insert]
    split_ifs with hlt heq
    · refine child_link (child_eq_null ?_)
      intro e he
      rcases List.mem_cons.mp he with rfl | he
      · exact hlt
      · exact lt_trans hlt (hk e he)
    · subst heq; exact child_link (child_eq_null hk)
    · simp only [child, if_neg heq]; exact ih hr

/-- The other children are left alone. -/
theorem child_insert_ne {k k' : K} (hk : k' ≠ k) (c t : Tree K α) :
    (insert k c t).child k' = t.child k' := by
  induction t with
  | null => exact child_link_ne hk c null
  | leaf a => cases c <;> simp [insert, child, hk]
  | cons k₀ c₀ r _ ih =>
    simp only [insert]
    split_ifs with hlt heq
    · exact child_link_ne hk c _
    · subst heq; rw [child_link_ne hk]; simp [child, hk]
    · simp only [child, ih]

theorem child_ordered {k : K} {t : Tree K α} (ht : t.Ordered) : (t.child k).Ordered := by
  induction t with
  | null => trivial
  | leaf a => trivial
  | cons k' c r _ ih =>
    simp only [child]
    split_ifs
    · exact ht.2.1
    · exact ih ht.2.2.1

/-- The listed children are exactly the non-empty ones. -/
theorem mem_entries {k : K} {c t : Tree K α} (ht : t.Ordered) :
    (k, c) ∈ t.entries ↔ t.child k = c ∧ c ≠ null := by
  induction t with
  | null => simp only [entries, child]; grind
  | leaf a => simp only [entries, child]; grind
  | cons k' c' r _ ih =>
    obtain ⟨hne, hc', hr, hl, hk⟩ := ht
    simp only [entries, child, List.mem_cons, Prod.mk.injEq, ih hr]
    by_cases h : k = k'
    · subst h
      have hnull : r.child k = null := child_eq_null hk
      grind
    · simp [h]

theorem entries_sorted {t : Tree K α} (ht : t.Ordered) :
    t.entries.Pairwise (fun e e' => e.1 < e'.1) := by
  induction t with
  | null => exact List.Pairwise.nil
  | leaf a => exact List.Pairwise.nil
  | cons k c r _ ih => exact List.Pairwise.cons ht.2.2.2.2 (ih ht.2.2.1)

end Tree
end Schemes
