import MeshDecomp.Numbering.Sharing
import Mathlib.Data.List.Basic
import Mathlib.Data.Finset.Card
import Mathlib.Data.List.Range
import Mathlib.Algebra.BigOperators.Group.List.Basic
import Mathlib.Algebra.GroupWithZero.Nat
import Mathlib.Tactic.Common

/-! The sharing of ascending node sets in closed form. A node is numbered by the lowest rank that
holds it, and its new id is its place in the order by holder and old id. -/
namespace MeshDecomp

theorem length_ascending (l : List Nat) : (ascending l).length = l.toFinset.card := by
  have hset : (ascending l).toFinset = l.toFinset := by
    ext x
    simp only [List.mem_toFinset, mem_ascending]
  rw [← hset, List.toFinset_card_of_nodup ((pairwise_ascending l).imp Nat.ne_of_lt)]

namespace Sharing

/-- The lowest rank that holds a node; the number of ranks if none does. -/
def holder (sets : List (List Nat)) (x : Nat) : Nat := sets.findIdx (·.contains x)

/-- How many of the nodes `all` come before `x` in the order by holder and old id. -/
def place (sets : List (List Nat)) (all : List Nat) (x : Nat) : Nat :=
  all.countP fun y =>
    holder sets y < holder sets x ∨ (holder sets y = holder sets x ∧ y < x)

variable {sets : List (List Nat)} {set : List Nat} {rank q x : Nat}

theorem holder_lt_length (hx : ∃ set ∈ sets, x ∈ set) : holder sets x < sets.length :=
  List.findIdx_lt_length_of_exists (by simpa using hx)

theorem mem_holder (h : holder sets x < sets.length) : x ∈ sets[holder sets x] := by
  have := List.findIdx_getElem (w := h)
  simp only [List.contains_iff_mem] at this
  exact this

theorem holder_le (hs : sets[rank]? = some set) (hx : x ∈ set) : holder sets x ≤ rank := by
  by_contra hr
  have hlt : rank < sets.length := (List.getElem?_eq_some_iff.1 hs).1
  have := List.not_of_lt_findIdx (Nat.lt_of_not_le hr)
  rw [List.getElem?_eq_getElem hlt, Option.some.injEq] at hs
  simp [hs, hx] at this

theorem get?_holders_eq (hx : ∃ set ∈ sets, x ∈ set) :
    (holders 0 sets).get? x = some (holder sets x) := by
  rw [get?_holders, List.findIdx?_eq_some_of_exists (by simpa using hx)]
  rfl

theorem get?_askedBy_self (held : IdMap Nat) (rank : Nat) (set : List Nat) :
    (askedBy held rank set).get? rank = none := by
  induction set with
  | nil => simp [askedBy]
  | cons x set ih =>
    simp only [askedBy, List.foldr_cons] at ih ⊢
    split
    · split
      · exact ih
      · next hr => rw [IdMap.get?_alter, if_neg (Ne.symm hr), ih]
    · exact ih

theorem get?_askedBy (held : IdMap Nat) (set : List Nat) (h : q ≠ rank) :
    (askedBy held rank set).get? q =
      let asked := set.filter fun x => held.get? x = some q
      if asked = [] then none else some asked := by
  induction set with
  | nil => simp [askedBy]
  | cons x set ih =>
    simp only [askedBy, List.foldr_cons] at ih ⊢
    generalize set.foldr _ _ = m at ih ⊢
    cases hx : held.get? x with
    | none => simp [hx, ih]
    | some r =>
      dsimp only
      by_cases hr : r = rank
      · subst hr
        simp [ih, hx, Ne.symm h]
      · simp only [if_neg hr, IdMap.get?_alter]
        by_cases hq : q = r
        · subst hq
          simp only [↓reduceIte, ih, List.filter_cons, hx, decide_true, reduceCtorEq]
          split <;> simp_all
        · simp [hq, ih, hx, Ne.symm hq]

/-- What a rank asks of the others: of each the nodes that it numbers. -/
theorem get?_askedBy_holders (hs : sets[rank]? = some set) :
    (askedBy (holders 0 sets) rank set).get? q =
      let asked := set.filter fun x => holder sets x = q
      if q = rank ∨ asked = [] then none else some asked := by
  by_cases h : q = rank
  · subst h
    simp [get?_askedBy_self]
  · have hf : (set.filter fun x => decide ((holders 0 sets).get? x = some q)) =
        set.filter fun x => decide (holder sets x = q) := by
      apply List.filter_congr
      intro x hx
      rw [get?_holders_eq ⟨set, List.mem_of_getElem? hs, hx⟩]
      simp
    simp [get?_askedBy _ _ h, hf, h]

theorem ownedBy_holders (hs : sets[rank]? = some set) :
    ownedBy (holders 0 sets) rank set = (set.filter fun x => holder sets x = rank).length := by
  unfold ownedBy
  rw [List.countP_eq_length_filter]
  congr 1
  apply List.filter_congr
  intro x hx
  rw [get?_holders_eq ⟨set, List.mem_of_getElem? hs, hx⟩]
  simp

theorem getElem?_startsFrom (start : Nat) (l : List Nat) {k : Nat} (hk : k < l.length) :
    (startsFrom start l)[k]? = some (start + (l.take k).sum) := by
  induction l generalizing start k with
  | nil => simp at hk
  | cons n l ih =>
    cases k with
    | zero => simp [startsFrom]
    | succ k =>
      simp only [List.length_cons, Nat.add_lt_add_iff_right] at hk
      simp [startsFrom, ih _ hk, Nat.add_assoc]

theorem length_startsFrom (start : Nat) (l : List Nat) :
    (startsFrom start l).length = l.length := by
  induction l generalizing start with
  | nil => rfl
  | cons n l ih => rw [startsFrom, List.length_cons, List.length_cons, ih]

theorem countP_lt_succ (f : Nat → Nat) (l : List Nat) (k : Nat) :
    l.countP (fun x => f x < k + 1) = l.countP (fun x => f x < k) + l.countP fun x => f x = k := by
  induction l with
  | nil => rfl
  | cons x l ih =>
    simp only [List.countP_cons, decide_eq_true_eq, ih]
    split <;> split <;> split <;> omega

/-- `all` are the nodes that some rank holds, in ascending order. -/
structure Covers (all : List Nat) (sets : List (List Nat)) : Prop where
  ascending : all.Pairwise (· < ·)
  sets_ascending : ∀ set ∈ sets, set.Pairwise (· < ·)
  mem_iff : ∀ x, x ∈ all ↔ ∃ set ∈ sets, x ∈ set

namespace Covers

variable {all : List Nat}

theorem filter_holder (h : Covers all sets) (hs : sets[rank]? = some set) :
    (set.filter fun x => holder sets x = rank) = all.filter fun x => holder sets x = rank := by
  have hmem := List.mem_of_getElem? hs
  apply eq_of_ascending ((h.sets_ascending set hmem).filter _) (h.ascending.filter _)
  intro x
  simp only [List.mem_filter, decide_eq_true_eq, and_congr_left_iff, h.mem_iff]
  rintro rfl
  obtain ⟨hlt, hget⟩ := List.getElem?_eq_some_iff.1 hs
  exact ⟨fun hx => ⟨set, hmem, hx⟩, fun _ => hget ▸ mem_holder hlt⟩

theorem sum_owned (h : Covers all sets) {k : Nat} (hk : k ≤ sets.length) :
    (((ofSets sets).owned).take k).sum = all.countP fun x => holder sets x < k := by
  induction k with
  | zero => simp
  | succ k ih =>
    have hlt : k < sets.length := hk
    have hs : sets[k]? = some sets[k] := List.getElem?_eq_getElem hlt
    have howned : (ofSets sets).owned[k]? =
        some (all.countP fun x => holder sets x = k) := by
      unfold ofSets
      rw [List.getElem?_mapIdx, hs, Option.map_some, ownedBy_holders hs,
        h.filter_holder hs, List.countP_eq_length_filter]
    rw [List.take_add_one, howned, List.sum_append, ih (Nat.le_of_succ_le hk), Option.toList_some,
      List.sum_singleton, countP_lt_succ]

theorem starts_getElem? (h : Covers all sets) (hk : rank < sets.length) :
    (ofSets sets).starts[rank]? = some (all.countP fun x => holder sets x < rank) := by
  have hlen : rank < (ofSets sets).owned.length := by simpa [ofSets] using hk
  have := getElem?_startsFrom 0 (ofSets sets).owned hlen
  rwa [Nat.zero_add, h.sum_owned (Nat.le_of_lt hk)] at this

theorem total_eq (h : Covers all sets) : (ofSets sets).total = all.length := by
  have hlen : (ofSets sets).owned.length = sets.length := by simp [ofSets]
  have hs := h.sum_owned (Nat.le_refl sets.length)
  rw [List.take_of_length_le (by omega)] at hs
  have ht : (ofSets sets).total = (ofSets sets).owned.sum := rfl
  rw [ht, hs, List.countP_eq_length]
  intro x hx
  simpa using holder_lt_length ((h.mem_iff x).1 hx)

end Covers

/-- Numbers given in ascending order count the lower ones. -/
theorem zipIdx_eq_map_countP {l : List Nat} (h : l.Pairwise (· < ·)) (start : Nat) :
    l.zipIdx start = l.map fun x => (x, start + l.countP (· < x)) := by
  induction l generalizing start with
  | nil => rfl
  | cons a l ih =>
    obtain ⟨ha, hl⟩ := List.pairwise_cons.1 h
    have hz : l.countP (fun y => decide (y < a)) = 0 :=
      List.countP_eq_zero.2 fun y hy => by simpa using Nat.le_of_lt (ha y hy)
    rw [List.zipIdx_cons, ih hl, List.map_cons]
    congr 1
    · simp [hz]
    · apply List.map_congr_left
      intro x hx
      simp [ha x hx, Nat.add_assoc, Nat.add_comm 1]

theorem Covers.place_eq {all : List Nat} (h : Covers all sets) (hs : sets[rank]? = some set)
    (hx : holder sets x = rank) :
    place sets all x = (all.countP fun y => holder sets y < rank) +
      (set.filter fun y => holder sets y = rank).countP (· < x) := by
  rw [h.filter_holder hs, List.countP_filter, place, hx]
  clear hs h
  induction all with
  | nil => rfl
  | cons y all ih =>
    simp only [List.countP_cons, decide_eq_true_eq, Bool.and_eq_true] at ih ⊢
    rw [ih]
    split <;> split <;> split <;> omega

end Sharing
end MeshDecomp
