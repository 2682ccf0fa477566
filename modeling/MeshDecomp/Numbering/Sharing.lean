import MeshDecomp.IdMap

/-!
Who numbers which node. A node that several processing elements use is numbered by the lowest rank
that holds it; the others ask that rank. Every rank numbers a contiguous block of new ids.
-/

namespace MeshDecomp

/-- The answers per rank. -/
structure Sharing where
  /-- The nodes that another rank numbers, by that rank. -/
  asked : List (IdMap (List Nat))
  owned : List Nat
  starts : List Nat
  total : Nat
  deriving DecidableEq, Repr

namespace Sharing

/-- The lowest rank that holds each node, for sets of the ranks from `rank` on. -/
def holders (rank : Nat) : List (List Nat) → IdMap Nat
  | [] => ∅
  | set :: sets => (holders (rank + 1) sets).insertAll (set.map (·, rank))

/-- The nodes of `set` that others number for `rank`. -/
def askedBy (held : IdMap Nat) (rank : Nat) (set : List Nat) : IdMap (List Nat) :=
  set.foldr (fun x m =>
    match held.get? x with
    | some q => if q = rank then m else m.alter q fun l => x :: l.getD []
    | none => m) ∅

/-- How many nodes of `set` the rank numbers itself. -/
def ownedBy (held : IdMap Nat) (rank : Nat) (set : List Nat) : Nat :=
  set.countP fun x => held.get? x = some rank

/-- The sum of everything before each entry. -/
def startsFrom (start : Nat) : List Nat → List Nat
  | [] => []
  | n :: r => start :: startsFrom (start + n) r

/-- The sharing of node sets, one per rank. Sets are meant to ascend, and are taken as they come
where they do not. -/
def ofSets (sets : List (List Nat)) : Sharing :=
  let held := holders 0 sets
  let owned := sets.mapIdx (ownedBy held)
  { asked := sets.mapIdx (askedBy held)
    owned := owned
    starts := startsFrom 0 owned
    total := owned.foldr (· + ·) 0 }

theorem get?_holders (rank : Nat) (sets : List (List Nat)) (x : Nat) :
    (holders rank sets).get? x = (sets.findIdx? (·.contains x)).map (· + rank) := by
  induction sets generalizing rank with
  | nil => simp [holders]
  | cons set sets ih =>
    rw [holders, IdMap.get?_insertAll, ih, List.findIdx?_cons]
    cases h : (set.map (·, rank)).reverse.find? (·.1 = x) with
    | none =>
      have hx : x ∉ set := fun hx => by simp at h; exact h x hx rfl
      cases sets.findIdx? (·.contains x) <;> simp [hx, Nat.add_assoc, Nat.add_comm 1]
    | some e =>
      have found := List.find?_some h
      have member := List.mem_of_find?_eq_some h
      simp only [List.mem_reverse, List.mem_map] at member
      obtain ⟨y, hy, rfl⟩ := member
      simp_all

end Sharing

end MeshDecomp
