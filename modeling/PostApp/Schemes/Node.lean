import PostApp.Schemes.Tree

/-! Well-formed values and their paths.

    A `Node` is a tree that is known to be ordered, so a malformed value cannot be built. `get` reads
    the subtree below a path and `set` overwrites it as a whole. Two paths are `Apart` when neither
    is a prefix of the other; a write is invisible on every path apart from its own. -/

namespace Schemes

/-- Neither path is a prefix of the other. -/
def Apart {K : Type} : List K → List K → Prop
  | k :: p, k' :: q => k ≠ k' ∨ Apart p q
  | _, _ => False

theorem Apart.symm {K : Type} : ∀ {p q : List K}, Apart p q → Apart q p
  | _ :: _, _ :: _, h => h.imp Ne.symm Apart.symm

theorem apart_append {K : Type} : ∀ {p q : List K}, Apart p q → ∀ p' q', Apart (p ++ p') (q ++ q')
  | _ :: _, _ :: _, h, p', q' => h.imp_right (fun h => apart_append h p' q')

/-- Below a common prefix, paths are apart exactly when their remainders are. -/
theorem apart_append_left {K : Type} : ∀ (p : List K) {q q' : List K}, Apart (p ++ q) (p ++ q') ↔ Apart q q'
  | [], _, _ => Iff.rfl
  | k :: p, q, q' => by
    simp only [List.cons_append, Apart, ne_eq, not_true_eq_false, false_or]
    exact apart_append_left p

/-- A well-formed value: its keys are in order and no child is empty. -/
@[ext] structure Node (K α : Type) [LinearOrder K] where
  tree : Tree K α
  ordered : tree.Ordered
  deriving DecidableEq

namespace Node
variable {K α : Type} [LinearOrder K]

/-- Nothing stored. -/
def null : Node K α := ⟨.null, trivial⟩

def leaf (a : α) : Node K α := ⟨.leaf a, trivial⟩

def leaf? (n : Node K α) : Option α :=
  match n.tree with
  | .leaf a => some a
  | _ => none

/-- Is the value an object, with at least one child? -/
def isObject (n : Node K α) : Bool :=
  match n.tree with
  | .cons _ _ _ => true
  | _ => false

def child (k : K) (n : Node K α) : Node K α := ⟨n.tree.child k, n.tree.child_ordered n.ordered⟩

/-- Replace the child at key `k`. -/
def insert (n : Node K α) (k : K) (c : Node K α) : Node K α :=
  ⟨.insert k c.tree n.tree, Tree.ordered_insert c.ordered n.ordered⟩

/-- The non-empty children with their keys, in the order of `K`. -/
def children (n : Node K α) : List (K × Node K α) :=
  n.tree.entries.map (fun e => (e.1, n.child e.1))

/-- An object given by its fields. -/
def ofFields (fs : List (K × Node K α)) : Node K α := fs.foldr (fun f n => n.insert f.1 f.2) null

@[simp] theorem child_null (k : K) : (null : Node K α).child k = null := rfl
@[simp] theorem child_leaf (k : K) (a : α) : (leaf a : Node K α).child k = null := rfl
@[simp] theorem leaf?_null : (null : Node K α).leaf? = none := rfl
@[simp] theorem leaf?_leaf (a : α) : (leaf a : Node K α).leaf? = some a := rfl
@[simp] theorem leaf_ne_null (a : α) : (leaf a : Node K α) ≠ null := by
  intro h; injection h with h; cases h

@[simp] theorem child_insert (k : K) (c n : Node K α) : (n.insert k c).child k = c :=
  Node.ext (Tree.child_insert n.ordered)

theorem child_insert_ne {k k' : K} (h : k' ≠ k) (c n : Node K α) :
    (n.insert k c).child k' = n.child k' :=
  Node.ext (Tree.child_insert_ne h c.tree n.tree)

theorem child_insert_eq (k k' : K) (c n : Node K α) :
    (n.insert k c).child k' = if k' = k then c else n.child k' := by
  split_ifs with h
  · rw [h, child_insert]
  · exact child_insert_ne h c n

@[simp] theorem ofFields_nil : ofFields ([] : List (K × Node K α)) = null := rfl

@[simp] theorem child_ofFields_cons (k k' : K) (v : Node K α) (fs : List (K × Node K α)) :
    (ofFields ((k, v) :: fs)).child k' = if k' = k then v else (ofFields fs).child k' :=
  child_insert_eq k k' v (ofFields fs)

theorem ne_null_of_child {n : Node K α} {k : K} (h : n.child k ≠ null) : n ≠ null := by
  rintro rfl; exact h (child_null k)

/-- A value with a child has no leaf in it: the child would not be readable. -/
theorem leaf?_of_child {n : Node K α} {k : K} (h : n.child k ≠ null) : n.leaf? = none := by
  obtain ⟨t, ht⟩ := n
  cases t with
  | null => rfl
  | leaf a => exact absurd rfl h
  | cons _ _ _ => rfl

theorem isObject_of_child {n : Node K α} {k : K} (h : n.child k ≠ null) : n.isObject = true := by
  obtain ⟨t, ht⟩ := n
  cases t with
  | null => exact absurd rfl h
  | leaf a => exact absurd rfl h
  | cons _ _ _ => rfl

theorem mem_children {n c : Node K α} {k : K} :
    (k, c) ∈ n.children ↔ n.child k = c ∧ c ≠ null := by
  have hkey : ∀ t, (k, t) ∈ n.tree.entries ↔ n.tree.child k = t ∧ t ≠ .null :=
    fun t => Tree.mem_entries n.ordered
  simp only [children, List.mem_map, Prod.mk.injEq, Prod.exists]
  constructor
  · rintro ⟨k', t, hmem, rfl, rfl⟩
    obtain ⟨ht, hne⟩ := (hkey t).mp hmem
    exact ⟨rfl, fun h => hne (by rw [← ht]; exact congrArg tree h)⟩
  · rintro ⟨rfl, hne⟩
    exact ⟨k, n.tree.child k, (hkey _).mpr ⟨rfl, fun h => hne (Node.ext h)⟩, rfl, rfl⟩

/-- Children are listed in strictly increasing key order, so no key is listed twice. -/
theorem children_sorted (n : Node K α) : n.children.Pairwise (fun e e' => e.1 < e'.1) :=
  List.pairwise_map.mpr (Tree.entries_sorted n.ordered)

theorem children_nodup (n : Node K α) : n.children.Nodup :=
  n.children_sorted.imp (fun hlt heq => absurd (heq ▸ hlt) (lt_irrefl _))

/-- A new child joins the others. -/
theorem perm_children_insert {n c : Node K α} {k : K} {es : List (K × Node K α)}
    (h : es.Perm n.children) (hk : n.child k = null) (hc : c ≠ null) :
    ((k, c) :: es).Perm (n.insert k c).children := by
  have hnew : ∀ {v}, (k, v) ∉ es := by
    intro v hmem
    obtain ⟨hv, hne⟩ := mem_children.mp (h.mem_iff.mp hmem)
    exact hne (hv.symm.trans hk)
  have hnodup : ((k, c) :: es).Nodup :=
    List.nodup_cons.mpr ⟨hnew, h.nodup_iff.mpr n.children_nodup⟩
  refine (List.perm_ext_iff_of_nodup hnodup (children_nodup _)).mpr ?_
  rintro ⟨k', v⟩
  rw [mem_children, child_insert_eq, List.mem_cons, h.mem_iff, mem_children, Prod.mk.injEq]
  split_ifs with heq
  · subst heq
    constructor
    · rintro (⟨-, rfl⟩ | ⟨hv, hne⟩)
      · exact ⟨rfl, hc⟩
      · exact absurd (hv.symm.trans hk) hne
    · rintro ⟨rfl, -⟩
      exact Or.inl ⟨rfl, rfl⟩
  · exact or_iff_right (fun hv => heq hv.1)

/-- There is one way to list the children in key order. -/
theorem eq_children {n : Node K α} {es : List (K × Node K α)} (h : es.Perm n.children)
    (hs : es.Pairwise (fun e e' => e.1 < e'.1)) : es = n.children :=
  h.eq_of_pairwise (fun _ _ _ _ hlt hgt => absurd hgt (lt_asymm hlt)) hs n.children_sorted

/-! ### Paths -/

/-- The subtree below a path. -/
def get : List K → Node K α → Node K α
  | [], n => n
  | k :: p, n => get p (n.child k)

/-- Overwrite the subtree below a path. -/
def set : Node K α → List K → Node K α → Node K α
  | _, [], v => v
  | n, k :: p, v => n.insert k ((n.child k).set p v)

@[simp] theorem get_nil (n : Node K α) : get [] n = n := rfl
@[simp] theorem get_cons (k : K) (p : List K) (n : Node K α) :
    get (k :: p) n = get p (n.child k) := rfl

@[simp] theorem get_null : ∀ p : List K, get p (null : Node K α) = null
  | [] => rfl
  | _ :: p => get_null p

theorem get_append : ∀ (p q : List K) (n : Node K α), get (p ++ q) n = get q (get p n)
  | [], _, _ => rfl
  | k :: p, q, n => get_append p q (n.child k)

/-- Reading at or below the written path. -/
theorem get_set : ∀ (p q : List K) (v n : Node K α), (n.set p v).get (p ++ q) = v.get q
  | [], _, _, _ => rfl
  | k :: p, q, v, n => by
    simp only [List.cons_append, set, get_cons, child_insert]
    exact get_set p q v (n.child k)

theorem get_set_self (p : List K) (v n : Node K α) : (n.set p v).get p = v := by
  have h := get_set p [] v n
  rwa [List.append_nil, get_nil] at h

/-- Reading above the written path. -/
theorem get_set_append : ∀ (p q : List K) (v n : Node K α),
    (n.set (p ++ q) v).get p = (n.get p).set q v
  | [], _, _, _ => rfl
  | k :: p, q, v, n => by
    simp only [List.cons_append, set, get_cons, child_insert]
    exact get_set_append p q v (n.child k)

/-- A write leaves every path alone that is apart from its own. -/
theorem get_set_apart : ∀ {p q : List K}, Apart p q → ∀ v n : Node K α,
    (n.set p v).get q = n.get q
  | k :: p, k' :: q, h, v, n => by
    simp only [set, get_cons]
    by_cases hk : k = k'
    · subst hk
      rw [child_insert]
      exact get_set_apart (h.resolve_left (fun h => h rfl)) v (n.child k)
    · rw [child_insert_ne (Ne.symm hk)]

/-- The same write keeps two trees alike below any path. -/
theorem get_set_congr : ∀ (p q : List K) (v : Node K α) {n n' : Node K α}, n.get q = n'.get q →
    (n.set p v).get q = (n'.set p v).get q
  | [], _, _, _, _, _ => rfl
  | _ :: _, [], _, _, _, h => by
    rw [get_nil, get_nil] at h
    rw [h]
  | k :: p, k' :: q, v, n, n', h => by
    simp only [set, get_cons] at h ⊢
    by_cases hk : k' = k
    · subst hk
      rw [child_insert, child_insert]
      exact get_set_congr p q v h
    · rw [child_insert_ne hk, child_insert_ne hk]
      exact h

end Node
end Schemes
