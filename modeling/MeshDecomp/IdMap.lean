import Std.Data.ExtTreeMap

/-!
Finite maps from numbers. Two maps are equal exactly when they answer every look-up alike, and the
entries of a map come in the order of their keys.
-/

namespace MeshDecomp

structure IdMap (α : Type u) where
  tree : Std.ExtTreeMap Nat α
  deriving DecidableEq, Repr

namespace IdMap

def empty : IdMap α := ⟨∅⟩

instance : EmptyCollection (IdMap α) := ⟨empty⟩

instance : Inhabited (IdMap α) := ⟨∅⟩

def get? (m : IdMap α) (k : Nat) : Option α := m.tree[k]?

def contains (m : IdMap α) (k : Nat) : Bool := (m.get? k).isSome

/-- Puts `f` of the value at `k` at `k`. -/
def alter (m : IdMap α) (k : Nat) (f : Option α → α) : IdMap α :=
  ⟨m.tree.alter k fun v => some (f v)⟩

def insert (m : IdMap α) (k : Nat) (v : α) : IdMap α := ⟨m.tree.insert k v⟩

def erase (m : IdMap α) (k : Nat) : IdMap α := ⟨m.tree.erase k⟩

/-- All keys with their values, in ascending order. -/
def entries (m : IdMap α) : List (Nat × α) := m.tree.toList

def keys (m : IdMap α) : List Nat := m.entries.map Prod.fst

/-- The values in the order of their keys. -/
def values (m : IdMap α) : List α := m.entries.map Prod.snd

def size (m : IdMap α) : Nat := m.tree.size

/-- The lowest key. -/
def first? (m : IdMap α) : Option Nat := m.tree.minKey?

/-- Puts the pairs of a list in one by one. -/
def insertAll (m : IdMap α) (l : List (Nat × α)) : IdMap α :=
  l.foldl (fun m e => m.insert e.1 e.2) m

/-- The last value given for a key stays. -/
def ofList (l : List (Nat × α)) : IdMap α := insertAll ∅ l

def mapValues (f : α → β) (m : IdMap α) : IdMap β := ⟨m.tree.map fun _ v => f v⟩

def filter (p : Nat → α → Bool) (m : IdMap α) : IdMap α := ⟨m.tree.filter p⟩

@[simp] theorem get?_empty (k : Nat) : (∅ : IdMap α).get? k = none :=
  Std.ExtTreeMap.getElem?_empty

theorem get?_alter (m : IdMap α) (k : Nat) (f : Option α → α) (j : Nat) :
    (m.alter k f).get? j = if j = k then some (f (m.get? k)) else m.get? j := by
  simp [get?, alter, Std.ExtTreeMap.getElem?_alter, @eq_comm _ j]

theorem get?_insert (m : IdMap α) (k : Nat) (v : α) (j : Nat) :
    (m.insert k v).get? j = if j = k then some v else m.get? j := by
  simp [get?, insert, Std.ExtTreeMap.getElem?_insert, @eq_comm _ j]

@[simp] theorem get?_insert_self (m : IdMap α) (k : Nat) (v : α) :
    (m.insert k v).get? k = some v := by simp [get?_insert]

theorem get?_erase (m : IdMap α) (k j : Nat) :
    (m.erase k).get? j = if j = k then none else m.get? j := by
  simp [get?, erase, Std.ExtTreeMap.getElem?_erase, @eq_comm _ j]

@[simp] theorem get?_mapValues (f : α → β) (m : IdMap α) (k : Nat) :
    (m.mapValues f).get? k = (m.get? k).map f := by
  simp [get?, mapValues]

@[simp] theorem get?_filter (p : Nat → α → Bool) (m : IdMap α) (k : Nat) :
    (m.filter p).get? k = (m.get? k).filter (p k) := by
  simp [get?, filter]

theorem get?_eq_some_iff {m : IdMap α} {k : Nat} {v : α} :
    m.get? k = some v ↔ (k, v) ∈ m.entries :=
  Std.ExtTreeMap.mem_toList_iff_getElem?_eq_some.symm

theorem ascending_entries (m : IdMap α) : m.entries.Pairwise (·.1 < ·.1) :=
  Std.ExtTreeMap.ordered_keys_toList.imp Nat.compare_eq_lt.1

theorem mem_keys_iff {m : IdMap α} {k : Nat} : k ∈ m.keys ↔ ∃ v, m.get? k = some v := by
  simp [keys, get?_eq_some_iff]

theorem mem_values_iff {m : IdMap α} {v : α} : v ∈ m.values ↔ ∃ k, m.get? k = some v := by
  simp only [values, List.mem_map, Prod.exists, exists_eq_right, get?_eq_some_iff]

@[simp] theorem contains_iff {m : IdMap α} {k : Nat} : m.contains k = true ↔ k ∈ m.keys := by
  rw [mem_keys_iff, contains, Option.isSome_iff_exists]

theorem mem_tree {m : IdMap α} {k : Nat} : k ∈ m.tree ↔ k ∈ m.keys := by
  rw [mem_keys_iff, Std.ExtTreeMap.mem_iff_isSome_getElem?, Option.isSome_iff_exists]
  rfl

theorem ascending_keys (m : IdMap α) : m.keys.Pairwise (· < ·) :=
  List.pairwise_map.2 m.ascending_entries

@[simp] theorem entries_empty : (∅ : IdMap α).entries = [] :=
  Std.ExtTreeMap.toList_eq_nil_iff.2 rfl

@[simp] theorem length_entries (m : IdMap α) : m.entries.length = m.size :=
  Std.ExtTreeMap.length_toList

@[simp] theorem entries_mapValues (f : α → β) (m : IdMap α) :
    (m.mapValues f).entries = m.entries.map fun e => (e.1, f e.2) :=
  Std.ExtTreeMap.toList_map

@[simp] theorem entries_filter (p : Nat → α → Bool) (m : IdMap α) :
    (m.filter p).entries = m.entries.filter fun e => p e.1 e.2 :=
  Std.ExtTreeMap.toList_filter

/-- The first key is in the map, and no key is lower. -/
theorem first?_eq_some_iff {m : IdMap α} {k : Nat} :
    m.first? = some k ↔ k ∈ m.keys ∧ ∀ j ∈ m.keys, k ≤ j := by
  simp only [first?, Std.ExtTreeMap.minKey?_eq_some_iff_mem_and_forall, mem_tree,
    Nat.isLE_compare]

@[ext] theorem ext {m n : IdMap α} (h : ∀ k, m.get? k = n.get? k) : m = n := by
  cases m
  cases n
  congr
  exact Std.ExtTreeMap.ext_getElem? h

/-- The last pair with a key counts. -/
theorem get?_insertAll (m : IdMap α) (l : List (Nat × α)) (k : Nat) :
    (m.insertAll l).get? k = ((l.reverse.find? (·.1 = k)).map Prod.snd).or (m.get? k) := by
  induction l generalizing m with
  | nil => simp [insertAll]
  | cons e l ih =>
    have := ih (m.insert e.1 e.2)
    simp only [insertAll, List.foldl_cons] at this ⊢
    rw [this, List.reverse_cons, List.find?_append, get?_insert]
    by_cases he : k = e.1 <;> cases l.reverse.find? (·.1 = k) <;>
      simp [he, @eq_comm _ e.1]

theorem mem_keys_ofList {l : List (Nat × α)} {k : Nat} : k ∈ (ofList l).keys ↔ ∃ v, (k, v) ∈ l := by
  simp only [mem_keys_iff, ofList, get?_insertAll, get?_empty, Option.or_none,
    ← Option.isSome_iff_exists, Option.isSome_map, List.find?_isSome]
  simp

theorem size_insertAll_le (m : IdMap α) (l : List (Nat × α)) :
    (m.insertAll l).size ≤ m.size + l.length := by
  induction l generalizing m with
  | nil => exact Nat.le_refl _
  | cons e l ih =>
    have hinsert : (m.insert e.1 e.2).size ≤ m.size + 1 := Std.ExtTreeMap.size_insert_le
    have hrest : (m.insertAll (e :: l)).size ≤ (m.insert e.1 e.2).size + l.length := ih _
    rw [List.length_cons]
    omega

theorem size_ofList_le (l : List (Nat × α)) : (ofList l).size ≤ l.length := by
  have hempty : (∅ : IdMap α).size = 0 := Std.ExtTreeMap.size_empty
  have h := size_insertAll_le ∅ l
  rwa [hempty, Nat.zero_add] at h

theorem mem_entries_iff {m : IdMap α} {e : Nat × α} : e ∈ m.entries ↔ m.get? e.1 = some e.2 :=
  get?_eq_some_iff.symm

theorem mem_of_mem_entries_ofList {l : List (Nat × α)} {e : Nat × α}
    (h : e ∈ (ofList l).entries) : e ∈ l := by
  rw [mem_entries_iff, ofList, get?_insertAll, get?_empty, Option.or_none,
    Option.map_eq_some_iff] at h
  obtain ⟨found, hfind, hvalue⟩ := h
  have hkey := List.find?_some hfind
  have hmem := List.mem_reverse.1 (List.mem_of_find?_eq_some hfind)
  rwa [Prod.ext (of_decide_eq_true hkey) hvalue] at hmem

@[simp] theorem length_keys (m : IdMap α) : m.keys.length = m.size := by simp [keys]

theorem nodup_keys (m : IdMap α) : m.keys.Nodup :=
  m.ascending_keys.imp Nat.ne_of_lt

@[simp] theorem keys_empty : (∅ : IdMap α).keys = [] := by simp [keys]

/-- Maps are told apart by their entries alone. -/
theorem entries_eq_iff {m : IdMap α} {l : List (Nat × α)} (h : l.Pairwise (·.1 < ·.1)) :
    m.entries = l ↔ ∀ k v, m.get? k = some v ↔ (k, v) ∈ l := by
  refine ⟨fun he k v => by rw [get?_eq_some_iff, he], fun he => ?_⟩
  have hm : m.entries.Nodup := m.ascending_entries.imp fun {a b} h he => by simp [he] at h
  have hl : l.Nodup := h.imp fun {a b} h he => by simp [he] at h
  have hp := (List.perm_ext_iff_of_nodup hm hl).2 fun e => by rw [mem_entries_iff, he]
  exact hp.eq_of_pairwise (fun a b _ _ h h' => absurd h' (Nat.lt_asymm h)) m.ascending_entries h

theorem get?_ofList_map (f : Nat → α) (l : List Nat) (k : Nat) :
    (ofList (l.map fun x => (x, f x))).get? k = if k ∈ l then some (f k) else none := by
  rw [ofList, get?_insertAll, get?_empty, Option.or_none]
  cases h : (l.map fun x => (x, f x)).reverse.find? (·.1 = k) with
  | none =>
    have hk : k ∉ l := fun hk => by simp at h; exact h k hk rfl
    simp [hk]
  | some e =>
    have found := List.find?_some h
    have member := List.mem_of_find?_eq_some h
    simp only [List.mem_reverse, List.mem_map] at member
    obtain ⟨y, hy, rfl⟩ := member
    simp_all

theorem ofList_concat (l : List (Nat × α)) (e : Nat × α) :
    ofList (l ++ [e]) = (ofList l).insert e.1 e.2 := by simp [ofList, insertAll]

@[simp] theorem ofList_entries (m : IdMap α) : ofList m.entries = m := by
  ext k : 1
  rw [ofList, get?_insertAll, get?_empty, Option.or_none]
  cases h : m.entries.reverse.find? (·.1 = k) with
  | none =>
    symm
    rw [Option.map_none, Option.eq_none_iff_forall_ne_some]
    intro v hv
    have := List.find?_eq_none.1 h (k, v) (List.mem_reverse.2 (get?_eq_some_iff.1 hv))
    simp at this
  | some e =>
    have found := List.find?_some h
    have member := List.mem_reverse.1 (List.mem_of_find?_eq_some h)
    simp only [decide_eq_true_eq] at found
    rw [← found, Option.map_some, mem_entries_iff.1 member]

theorem mapValues_ofList (f : α → β) (l : List (Nat × α)) :
    (ofList l).mapValues f = ofList (l.map fun e => (e.1, f e.2)) := by
  ext k : 1
  rw [get?_mapValues, ofList, ofList, get?_insertAll, get?_insertAll, get?_empty, get?_empty,
    Option.or_none, Option.or_none, ← List.map_reverse, List.find?_map, Option.map_map,
    Option.map_map]
  rfl

/-- No key occurs twice in a list of pairs. -/
theorem get?_ofList_eq_some_iff {l : List (Nat × α)} (h : (l.map Prod.fst).Nodup) {k : Nat}
    {v : α} : (ofList l).get? k = some v ↔ (k, v) ∈ l := by
  rw [ofList, get?_insertAll, get?_empty, Option.or_none, Option.map_eq_some_iff]
  constructor
  · rintro ⟨e, he, rfl⟩
    have found := List.find?_some he
    simp only [decide_eq_true_eq] at found
    exact found ▸ List.mem_reverse.1 (List.mem_of_find?_eq_some he)
  · intro hv
    refine ⟨(k, v), ?_, rfl⟩
    rw [List.find?_eq_some_iff_append]
    obtain ⟨s, t, rfl⟩ := List.append_of_mem hv
    refine ⟨by simp, t.reverse, s.reverse, by simp, fun e he => ?_⟩
    rw [List.map_append, List.map_cons, List.nodup_append] at h
    have hne : e.1 ≠ k := fun hk =>
      (List.nodup_cons.1 h.2.1).1 (List.mem_map.2 ⟨e, List.mem_reverse.1 he, hk⟩)
    simp [hne]

theorem entries_ofList {l : List (Nat × α)} (h : l.Pairwise (·.1 < ·.1)) :
    (ofList l).entries = l := by
  have hn : (l.map Prod.fst).Nodup := List.pairwise_map.2 (h.imp Nat.ne_of_lt)
  exact (entries_eq_iff h).2 fun k v => get?_ofList_eq_some_iff hn

theorem size_ofList_map (f : Nat → α) {l : List Nat} (h : l.Nodup) :
    (ofList (l.map fun x => (x, f x))).size = l.length := by
  rw [← length_keys]
  refine ((List.perm_ext_iff_of_nodup (nodup_keys _) h).2 fun x => ?_).length_eq
  simp [mem_keys_iff, get?_ofList_map]

/-- The values of a map whose keys lie below `n`. -/
theorem values_eq_filterMap {m : IdMap α} {n : Nat} (h : ∀ k ∈ m.keys, k < n) :
    m.values = (List.range n).filterMap m.get? := by
  have he : m.entries = (List.range n).filterMap fun k => (m.get? k).map fun v => (k, v) := by
    rw [entries_eq_iff]
    · intro k v
      simp only [List.mem_filterMap, List.mem_range, Option.map_eq_some_iff, Prod.mk.injEq]
      constructor
      · intro hv
        exact ⟨k, h k (mem_keys_iff.2 ⟨v, hv⟩), v, hv, rfl, rfl⟩
      · rintro ⟨j, _, w, hw, rfl, rfl⟩
        exact hw
    · refine List.pairwise_filterMap.2 (List.pairwise_lt_range.imp ?_)
      simp only [Option.map_eq_some_iff]
      rintro a b hab _ ⟨_, _, rfl⟩ _ ⟨_, _, rfl⟩
      exact hab
  rw [values, he, List.map_filterMap]
  simp [Function.comp_def]

end IdMap

/-- Finite sets of numbers. -/
abbrev IdSet := IdMap Unit

namespace IdSet

def ofList (l : List Nat) : IdSet := IdMap.ofList (l.map (·, ()))

@[simp] theorem mem_keys_ofList {x : Nat} {l : List Nat} : x ∈ (ofList l).keys ↔ x ∈ l := by
  simp [ofList, IdMap.mem_keys_ofList]

@[simp] theorem contains_ofList (l : List Nat) (x : Nat) :
    (ofList l).contains x = l.contains x := by
  rw [Bool.eq_iff_iff, IdMap.contains_iff, mem_keys_ofList, List.contains_iff_mem]

end IdSet

/-- The members of a list in ascending order, each once. -/
def ascending (l : List Nat) : List Nat := (IdSet.ofList l).keys

@[simp] theorem mem_ascending {x : Nat} {l : List Nat} : x ∈ ascending l ↔ x ∈ l :=
  IdSet.mem_keys_ofList

theorem pairwise_ascending (l : List Nat) : (ascending l).Pairwise (· < ·) :=
  IdMap.ascending_keys _

/-- An ascending list is told by its members. -/
theorem eq_of_ascending {l m : List Nat} (hl : l.Pairwise (· < ·)) (hm : m.Pairwise (· < ·))
    (h : ∀ x, x ∈ l ↔ x ∈ m) : l = m :=
  ((List.perm_ext_iff_of_nodup (hl.imp Nat.ne_of_lt) (hm.imp Nat.ne_of_lt)).2 h).eq_of_pairwise
    (fun _ _ _ _ h h' => absurd h' (Nat.lt_asymm h)) hl hm

end MeshDecomp
