import MeshDecomp.Numbering.Basic
import MeshDecomp.Proofs.Sharing
import Mathlib.Order.Bounds.Basic

/-! The sharing of node sets, told by the ranks that hold a node and not by a table of holders. -/

namespace MeshDecomp
namespace Sharing

/-- The ranks whose set has a node. -/
def ranksWith (sets : List (List Nat)) (x : Nat) : Set Nat :=
  {rank | ∃ set, sets[rank]? = some set ∧ x ∈ set}

variable {sets : List (List Nat)} {set : List Nat} {rank q x : Nat} {asked : IdMap (List Nat)}

theorem isLeast_holder (hs : sets[rank]? = some set) (hx : x ∈ set) :
    IsLeast (ranksWith sets x) (holder sets x) := by
  have hlt : holder sets x < sets.length :=
    holder_lt_length ⟨set, List.mem_of_getElem? hs, hx⟩
  refine ⟨⟨_, List.getElem?_eq_getElem hlt, mem_holder hlt⟩, ?_⟩
  rintro r ⟨lower, hr, hmem⟩
  exact holder_le hr hmem

theorem isLeast_iff (hs : sets[rank]? = some set) (hx : x ∈ set) :
    IsLeast (ranksWith sets x) q ↔ holder sets x = q := by
  have hleast := isLeast_holder hs hx
  constructor
  · exact hleast.unique
  · rintro rfl
    exact hleast

/-- A rank holds a node first exactly if no set before its own has the node. -/
theorem holder_eq_iff (hs : sets[rank]? = some set) (hx : x ∈ set) :
    holder sets x = rank ↔ ∀ lower ∈ sets.take rank, x ∉ lower := by
  constructor
  · rintro rfl lower hmem hxl
    obtain ⟨r, hr, rfl⟩ := List.mem_take_iff_getElem.1 hmem
    have hle : holder sets x ≤ r := holder_le (List.getElem?_eq_getElem _) hxl
    omega
  · intro hnone
    by_contra hne
    have hlt : holder sets x < rank := Nat.lt_of_le_of_ne (holder_le hs hx) hne
    have hlen : holder sets x < sets.length :=
      holder_lt_length ⟨set, List.mem_of_getElem? hs, hx⟩
    refine hnone _ (List.mem_take_iff_getElem.2 ⟨holder sets x, ?_, rfl⟩) (mem_holder hlen)
    omega

theorem covers_flatten (h : ∀ set ∈ sets, set.Pairwise (· < ·)) :
    Covers (ascending sets.flatten) sets where
  ascending := pairwise_ascending _
  sets_ascending := h
  mem_iff := fun x => by rw [mem_ascending, List.mem_flatten]

theorem asked_ofSets (hs : sets[rank]? = some set) :
    (ofSets sets).asked[rank]? = some (askedBy (holders 0 sets) rank set) := by
  unfold ofSets
  rw [List.getElem?_mapIdx, hs]
  rfl

theorem owned_ofSets (hs : sets[rank]? = some set) :
    (ofSets sets).owned[rank]? =
      some (set.filter fun x => ∀ lower ∈ sets.take rank, x ∉ lower).length := by
  unfold ofSets
  rw [List.getElem?_mapIdx, hs, Option.map_some, ownedBy_holders hs]
  congr 2
  apply List.filter_congr
  intro x hx
  exact decide_eq_decide.2 (holder_eq_iff hs hx)

/-- What a rank asks of `q`: its nodes that `q` is the lowest rank to hold. -/
theorem get?_asked_eq_some_iff (hs : sets[rank]? = some set) {l : List Nat} :
    (askedBy (holders 0 sets) rank set).get? q = some l ↔
      q ≠ rank ∧ l ≠ [] ∧ l = set.filter fun x => holder sets x = q := by
  rw [get?_askedBy_holders hs]
  dsimp only
  split
  · next hnone =>
    simp only [reduceCtorEq, false_iff]
    rintro ⟨hq, hl, rfl⟩
    exact hnone.elim hq hl
  · next hsome =>
    rw [not_or] at hsome
    rw [Option.some.injEq]
    constructor
    · rintro rfl
      exact ⟨hsome.1, hsome.2, rfl⟩
    · rintro ⟨-, -, rfl⟩
      rfl

theorem mem_keys_askedBy (hs : sets[rank]? = some set) :
    q ∈ (askedBy (holders 0 sets) rank set).keys ↔
      q < rank ∧ ∃ x ∈ set, IsLeast (ranksWith sets x) q := by
  rw [IdMap.mem_keys_iff]
  constructor
  · rintro ⟨l, hl⟩
    obtain ⟨hne, hnil, rfl⟩ := (get?_asked_eq_some_iff hs).1 hl
    obtain ⟨x, hx⟩ := List.exists_mem_of_ne_nil _ hnil
    obtain ⟨hmem, hq⟩ := List.mem_filter.1 hx
    obtain rfl := of_decide_eq_true hq
    exact ⟨Nat.lt_of_le_of_ne (holder_le hs hmem) hne, x, hmem, isLeast_holder hs hmem⟩
  · rintro ⟨hlt, x, hx, hleast⟩
    have hq : holder sets x = q := (isLeast_iff hs hx).1 hleast
    refine ⟨_, (get?_asked_eq_some_iff hs).2 ⟨Nat.ne_of_lt hlt, ?_, rfl⟩⟩
    exact List.ne_nil_of_mem (List.mem_filter.2 ⟨hx, decide_eq_true hq⟩)

/-- A rank numbers the nodes that it holds first: it asks nobody for them. -/
theorem mem_ownNodes (hs : sets[rank]? = some set) (hmem : x ∈ set) (hx : holder sets x = rank) :
    x ∈ Numbering.ownNodes set (askedBy (holders 0 sets) rank set).entries := by
  refine List.mem_filter.2 ⟨hmem, ?_⟩
  rw [IdSet.contains_ofList, Bool.not_eq_true', ← Bool.not_eq_true, List.contains_iff_mem,
    List.mem_flatMap]
  rintro ⟨e, he, hxe⟩
  obtain ⟨hne, -, hl⟩ := (get?_asked_eq_some_iff hs).1 (IdMap.mem_entries_iff.1 he)
  rw [hl, List.mem_filter] at hxe
  exact hne ((of_decide_eq_true hxe.2).symm.trans hx)

/-- The sharing of ascending sets. A rank asks exactly those lower ranks that are the lowest to hold
one of its nodes, each for all such nodes in ascending order; it owns the nodes that no lower rank
holds, and starts behind all that lower ranks own. So a rank that is asked for a node holds it, asks
nobody for it, and numbers it itself. -/
theorem asks_lowest_holders (h : ∀ set ∈ sets, set.Pairwise (· < ·)) :
    (ofSets sets).asked.length = sets.length ∧ (ofSets sets).owned.length = sets.length ∧
    (ofSets sets).starts.length = sets.length ∧
    (ofSets sets).total = sets.flatten.toFinset.card ∧
    ∀ p set, sets[p]? = some set → ∃ asked, (ofSets sets).asked[p]? = some asked ∧
      (∀ q, q ∈ asked.keys ↔ q < p ∧ ∃ x ∈ set, IsLeast (ranksWith sets x) q) ∧
      (ofSets sets).owned[p]? =
        some (set.filter fun x => ∀ lower ∈ sets.take p, x ∉ lower).length ∧
      (ofSets sets).starts[p]? = some ((ofSets sets).owned.take p).sum ∧
      ∀ q nodes, asked.get? q = some nodes →
        nodes.Pairwise (· < ·) ∧
        (∀ x, x ∈ nodes ↔ x ∈ set ∧ IsLeast (ranksWith sets x) q) ∧
        ∃ holding others, sets[q]? = some holding ∧ (ofSets sets).asked[q]? = some others ∧
          ∀ x ∈ nodes, x ∈ holding ∧ (∀ r l, others.get? r = some l → x ∉ l) ∧
            x ∈ Numbering.ownNodes holding others.entries := by
  refine ⟨List.length_mapIdx, List.length_mapIdx,
    (length_startsFrom 0 _).trans List.length_mapIdx,
    (covers_flatten h).total_eq.trans (length_ascending _), fun p set hs => ?_⟩
  have hp : p < sets.length := (List.getElem?_eq_some_iff.1 hs).1
  have howned : p < (ofSets sets).owned.length := hp.trans_eq List.length_mapIdx.symm
  have hstart := getElem?_startsFrom 0 (ofSets sets).owned howned
  rw [Nat.zero_add] at hstart
  refine ⟨_, asked_ofSets hs, fun q => mem_keys_askedBy hs, owned_ofSets hs, hstart, ?_⟩
  intro q nodes hnodes
  obtain ⟨hne, hnil, rfl⟩ := (get?_asked_eq_some_iff hs).1 hnodes
  have hmem : ∀ x, x ∈ set.filter (fun x => holder sets x = q) ↔
      x ∈ set ∧ IsLeast (ranksWith sets x) q := by
    intro x
    rw [List.mem_filter, decide_eq_true_eq]
    exact and_congr_right fun hx => (isLeast_iff hs hx).symm
  obtain ⟨x₀, hx₀⟩ := List.exists_mem_of_ne_nil _ hnil
  obtain ⟨holding, hq, -⟩ := ((hmem x₀).1 hx₀).2.1
  refine ⟨(h set (List.mem_of_getElem? hs)).filter _, hmem, holding, _, hq, asked_ofSets hq, ?_⟩
  intro x hx
  obtain ⟨hset, hleast⟩ := (hmem x).1 hx
  obtain ⟨set', hset', hin⟩ := hleast.1
  obtain rfl : set' = holding := Option.some.inj (hset'.symm.trans hq)
  have hholder : holder sets x = q := (isLeast_iff hs hset).1 hleast
  refine ⟨hin, fun r l hl hxl => ?_, mem_ownNodes hq hin hholder⟩
  obtain ⟨hr, -, rfl⟩ := (get?_asked_eq_some_iff hq).1 hl
  exact hr ((of_decide_eq_true (List.mem_filter.1 hxl).2).symm.trans hholder)

/-- Three ranks: the first holds a node of both others, the second two more of the third. -/
theorem three_ask_lowest_holders :
    (∀ set ∈ [[5], [1, 5, 7], [1, 5, 7, 9]], set.Pairwise (· < ·)) ∧
      (ofSets [[5], [1, 5, 7], [1, 5, 7, 9]]).total = 4 ∧
      ∃ asked, (ofSets [[5], [1, 5, 7], [1, 5, 7, 9]]).asked[2]? = some asked ∧
        1 ∈ asked.keys ∧ (ofSets [[5], [1, 5, 7], [1, 5, 7, 9]]).owned[2]? = some 1 ∧
        ∀ nodes, asked.get? 1 = some nodes → nodes.Pairwise (· < ·) ∧ 7 ∈ nodes ∧ 5 ∉ nodes := by
  have hsets : ∀ set ∈ [[5], [1, 5, 7], [1, 5, 7, 9]], set.Pairwise (· < ·) := by decide
  obtain ⟨-, -, -, htotal, hall⟩ := asks_lowest_holders hsets
  obtain ⟨asked, hasked, hkeys, howned, -, hnodes⟩ := hall 2 _ rfl
  have hlast : [[5], [1, 5, 7], [1, 5, 7, 9]][2]? = some [1, 5, 7, 9] := rfl
  have hseven : IsLeast (ranksWith [[5], [1, 5, 7], [1, 5, 7, 9]] 7) 1 :=
    isLeast_holder hlast (by decide)
  have hfive : IsLeast (ranksWith [[5], [1, 5, 7], [1, 5, 7, 9]] 5) 0 :=
    isLeast_holder hlast (by decide)
  refine ⟨hsets, htotal, asked, hasked, (hkeys 1).2 ⟨by decide, 7, by decide, hseven⟩, howned, ?_⟩
  intro nodes hn
  obtain ⟨hascending, hmem, -⟩ := hnodes 1 nodes hn
  refine ⟨hascending, (hmem 7).2 ⟨by decide, hseven⟩, fun h => ?_⟩
  exact absurd (hfive.unique ((hmem 5).1 h).2) (by decide)

end Sharing
end MeshDecomp
