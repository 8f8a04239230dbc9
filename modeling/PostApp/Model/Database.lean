import PostApp.Schemes.Node
import Mathlib.Data.String.Basic

/-! The realtime database as the app sees it.

    A database location is a path of keys and its content a key-ordered tree. What the app reads is a
    `DataSnapshot` (a location with its content) and the conditional casts `as? String`,
    `as? Double`, `as? Bool`, `as? [String: Any]`. What it writes may contain the server timestamp
    placeholder `[".sv": "timestamp"]`, which the server replaces by its clock. -/

namespace PostApp
open Schemes

/-- A primitive of the database. A number is the rational its `Double` holds. -/
inductive Leaf where
  | bool (b : Bool)
  | number (x : Rat)
  | string (s : String)
  deriving DecidableEq

abbrev Value := Node String Leaf

/-- A path of keys. Uids and generated keys contain no slash, so a path string splits into these. -/
abbrev Path := List String

namespace Value

def string (s : String) : Value := Node.leaf (.string s)
def bool (b : Bool) : Value := Node.leaf (.bool b)
def number (x : Rat) : Value := Node.leaf (.number x)

@[simp] theorem string_ne_null (s : String) : string s ≠ Node.null := Node.leaf_ne_null _
@[simp] theorem bool_ne_null (b : Bool) : bool b ≠ Node.null := Node.leaf_ne_null _
@[simp] theorem number_ne_null (x : Rat) : number x ≠ Node.null := Node.leaf_ne_null _

end Value

/-! ### Conditional casts -/

/-- `as? String` -/
def asString (v : Value) : Option String :=
  match v.leaf? with
  | some (.string s) => some s
  | _ => none

/-- `as? Double`; a stored boolean is bridged to a number. -/
def asDouble (v : Value) : Option Rat :=
  match v.leaf? with
  | some (.number x) => some x
  | some (.bool b) => some (if b then 1 else 0)
  | _ => none

/-- `as? Bool`; the numbers 0 and 1 are bridged to booleans. -/
def asBool (v : Value) : Option Bool :=
  match v.leaf? with
  | some (.bool b) => some b
  | some (.number x) => if x = 0 then some false else if x = 1 then some true else none
  | _ => none

/-- `as? [String: Any]` -/
def asDict (v : Value) : Option Value := if v.isObject then some v else none

@[simp] theorem asString_string (s : String) : asString (Value.string s) = some s := rfl
@[simp] theorem asBool_bool (b : Bool) : asBool (Value.bool b) = some b := rfl
@[simp] theorem asDouble_number (x : Rat) : asDouble (Value.number x) = some x := rfl
@[simp] theorem asString_null : asString Node.null = none := rfl

theorem asDict_of_child {v : Value} {k : String} (h : v.child k ≠ Node.null) :
    asDict v = some v := by
  rw [asDict, Node.isObject_of_child h, if_pos rfl]

theorem asDict_eq {v d : Value} (h : asDict v = some d) : d = v := by
  unfold asDict at h; split_ifs at h; exact (Option.some.inj h).symm

theorem ne_null_of_asString {v : Value} {s : String} (h : asString v = some s) :
    v ≠ Node.null := by
  rintro rfl; cases h

/-- Only a leaf is a string: a value with children is not. -/
theorem asString_of_child {v : Value} {k : String} (h : v.child k ≠ Node.null) :
    asString v = none := by
  rw [asString, Node.leaf?_of_child h]

/-! ### The server timestamp -/

/-- The placeholder `[".sv": "timestamp"]`. -/
def timestampTree : Tree String Leaf := .cons ".sv" (.leaf (.string "timestamp")) .null

def serverTimestamp : Value :=
  ⟨timestampTree, by simp [timestampTree, Tree.Ordered, Tree.isLeaf, Tree.entries]⟩

/-- The server replaces every placeholder by its time `now`. -/
def resolveTree (now : Rat) : Tree String Leaf → Tree String Leaf
  | .cons k c r =>
    .cons k (if c = timestampTree then .leaf (.number now) else resolveTree now c)
      (resolveTree now r)
  | t => t

theorem resolveTree_ne_null {now : Rat} {t : Tree String Leaf} (h : t ≠ .null) :
    resolveTree now t ≠ .null := by
  cases t <;> simp_all [resolveTree]

theorem mem_entries_resolveTree {now : Rat} {t : Tree String Leaf} {e : String × Tree String Leaf}
    (he : e ∈ (resolveTree now t).entries) : ∃ c, (e.1, c) ∈ t.entries := by
  induction t with
  | null => simp [resolveTree, Tree.entries] at he
  | leaf a => simp [resolveTree, Tree.entries] at he
  | cons k c r _ ih =>
    rcases List.mem_cons.mp he with rfl | he
    · exact ⟨c, by simp [Tree.entries]⟩
    · obtain ⟨c', hc'⟩ := ih he
      exact ⟨c', List.mem_cons_of_mem _ hc'⟩

theorem resolveTree_ordered {now : Rat} {t : Tree String Leaf} (ht : t.Ordered) :
    (resolveTree now t).Ordered := by
  induction t with
  | null => trivial
  | leaf a => trivial
  | cons k c r ihc ihr =>
    obtain ⟨hne, hc, hr, hl, hk⟩ := ht
    refine ⟨?_, ?_, ihr hr, ?_, ?_⟩
    · split_ifs
      · simp
      · exact resolveTree_ne_null hne
    · split_ifs
      · trivial
      · exact ihc hc
    · cases r <;> simp_all [resolveTree, Tree.isLeaf]
    · intro e he
      obtain ⟨c', hc'⟩ := mem_entries_resolveTree he
      exact hk (e.1, c') hc'

def resolve (now : Rat) (v : Value) : Value := ⟨resolveTree now v.tree, resolveTree_ordered v.ordered⟩

theorem child_resolve (now : Rat) (v : Value) (k : String) :
    (resolve now v).child k =
      if v.child k = serverTimestamp then Value.number now else resolve now (v.child k) := by
  obtain ⟨t, ht⟩ := v
  apply Node.ext
  have key : ∀ t : Tree String Leaf, (resolveTree now t).child k =
      if t.child k = timestampTree then .leaf (.number now) else resolveTree now (t.child k) := by
    intro t
    induction t with
    | null => simp [resolveTree, Tree.child, timestampTree]
    | leaf a => simp [resolveTree, Tree.child, timestampTree]
    | cons k' c r _ ih =>
      simp only [resolveTree, Tree.child]
      split_ifs with hk hc
      · rfl
      · rfl
      · rw [ih]; simp_all
      · rw [ih]; simp_all
  simp only [resolve, Node.child, key, Node.ext_iff, serverTimestamp]
  split_ifs <;> rfl

@[simp] theorem resolve_string (now : Rat) (s : String) :
    resolve now (Value.string s) = Value.string s := rfl
@[simp] theorem resolve_bool (now : Rat) (b : Bool) :
    resolve now (Value.bool b) = Value.bool b := rfl
@[simp] theorem resolve_null (now : Rat) : resolve now Node.null = Node.null := rfl

@[simp] theorem leaf?_serverTimestamp : serverTimestamp.leaf? = none := rfl

@[simp] theorem string_ne_serverTimestamp (s : String) : Value.string s ≠ serverTimestamp := by
  intro h
  have hl := congrArg Node.leaf? h
  cases hl

@[simp] theorem bool_ne_serverTimestamp (b : Bool) : Value.bool b ≠ serverTimestamp := by
  intro h
  have hl := congrArg Node.leaf? h
  cases hl

@[simp] theorem null_ne_serverTimestamp : Node.null ≠ serverTimestamp := by
  intro h
  have ht := congrArg Node.tree h
  cases ht

/-- The placeholder has the child `.sv` only. -/
theorem ne_serverTimestamp_of_child {v : Value} {k : String} (hk : k ≠ ".sv")
    (h : v.child k ≠ Node.null) : v ≠ serverTimestamp := by
  rintro rfl
  exact h (by simp [serverTimestamp, timestampTree, Node.child, Tree.child, hk, Node.null])

theorem child_resolve_of_ne {now : Rat} {v : Value} {k : String}
    (h : v.child k ≠ serverTimestamp) : (resolve now v).child k = resolve now (v.child k) := by
  rw [child_resolve, if_neg h]

theorem child_resolve_timestamp {now : Rat} {v : Value} {k : String}
    (h : v.child k = serverTimestamp) : (resolve now v).child k = Value.number now := by
  rw [child_resolve, if_pos h]

theorem child_resolve_null {now : Rat} {v : Value} {k : String} (h : v.child k = Node.null) :
    (resolve now v).child k = Node.null := by
  rw [child_resolve_of_ne (by simp [h]), h, resolve_null]

theorem leaf?_resolve (now : Rat) (v : Value) : (resolve now v).leaf? = v.leaf? := by
  obtain ⟨t, ht⟩ := v
  cases t <;> rfl

/-- The server leaves every string alone. -/
@[simp] theorem asString_child_resolve (now : Rat) (v : Value) (k : String) :
    asString ((resolve now v).child k) = asString (v.child k) := by
  rw [child_resolve]
  split_ifs with h
  · rw [h]; rfl
  · simp only [asString, leaf?_resolve]

theorem resolve_ne_null {now : Rat} {v : Value} (h : v ≠ Node.null) : resolve now v ≠ Node.null := by
  intro hr
  refine resolveTree_ne_null ?_ (congrArg Node.tree hr)
  intro ht; exact h (Node.ext ht)

/-! ### References and snapshots -/

/-- What an event delivers: a location and its content. -/
structure DataSnapshot where
  ref : Path
  value : Value
  deriving DecidableEq

namespace DataSnapshot

def key (s : DataSnapshot) : String := s.ref.getLastD ""

def hasChild (s : DataSnapshot) (k : String) : Bool := decide (s.value.child k ≠ Node.null)

/-- The child snapshots, in key order. The database sorts keys as strings, except that it puts those which
    are 32-bit integers first; the keys here are uids, generated keys and names of fields, which are none. -/
def children (s : DataSnapshot) : List DataSnapshot :=
  s.value.children.map (fun e => ⟨s.ref ++ [e.1], e.2⟩)

end DataSnapshot

/-- The content of a location as a snapshot. -/
def snapshotAt (p : Path) (db : Value) : DataSnapshot := ⟨p, db.get p⟩

@[simp] theorem key_concat (p : Path) (k : String) (v : Value) :
    DataSnapshot.key ⟨p ++ [k], v⟩ = k := by
  simp [DataSnapshot.key, List.getLastD_eq_getLast?]

/-- Child snapshots come in strictly increasing key order. -/
theorem DataSnapshot.children_sorted (s : DataSnapshot) :
    s.children.Pairwise (fun c c' => c.key < c'.key) := by
  refine List.pairwise_map.mpr (s.value.children_sorted.imp ?_)
  intro e e' hlt
  rwa [key_concat, key_concat]

theorem hasChild_iff {s : DataSnapshot} {k : String} :
    s.hasChild k = true ↔ s.value.child k ≠ Node.null := by
  simp [DataSnapshot.hasChild]

end PostApp
