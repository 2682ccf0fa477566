import MeshDecomp.Proofs.Collected
import Mathlib.Data.Prod.Lex
import Mathlib.Data.Finset.Card
import Mathlib.Data.Set.Function

/-! The new ids of a run count the used nodes in the order by holder and old id, on every rank and
in every work unit. -/
namespace MeshDecomp

/-- A table from values back to their arguments. -/
theorem IdMap.get?_ofList_swap {f : Nat → Nat} {l : List Nat}
    (h : ∀ x ∈ l, ∀ y ∈ l, f x = f y → x = y) {k x : Nat} :
    (ofList (l.map fun x => (f x, x))).get? k = some x ↔ x ∈ l ∧ k = f x := by
  induction l using List.reverseRecOn with
  | nil => simp [ofList, insertAll]
  | append_singleton l y ih =>
    have hl : ∀ x ∈ l, ∀ z ∈ l, f x = f z → x = z := fun x hx z hz =>
      h x (List.mem_append_left _ hx) z (List.mem_append_left _ hz)
    have hy : ∀ x ∈ l, f x = f y → x = y := fun x hx =>
      h x (List.mem_append_left _ hx) y (by simp)
    rw [List.map_append, List.map_singleton, ofList_concat, get?_insert, List.mem_append,
      List.mem_singleton]
    split
    · next hk =>
      subst hk
      constructor
      · intro hs
        cases hs
        exact ⟨.inr rfl, rfl⟩
      · rintro ⟨hx | rfl, he⟩
        · rw [hy x hx he.symm]
        · rfl
    · next hk =>
      rw [ih hl]
      constructor
      · rintro ⟨hx, he⟩
        exact ⟨.inl hx, he⟩
      · rintro ⟨hx | rfl, he⟩
        · exact ⟨hx, he⟩
        · exact absurd he hk

namespace Sharing

variable {sets : List (List Nat)} {all : List Nat} {x y : Nat}

theorem place_eq_countP (sets : List (List Nat)) (all : List Nat) (x : Nat) :
    place sets all x =
      all.countP fun y => decide (toLex (holder sets y, y) < toLex (holder sets x, x)) := by
  simp only [place, Prod.Lex.toLex_lt_toLex]

theorem place_lt_length (hx : x ∈ all) : place sets all x < all.length := by
  rw [place_eq_countP]
  apply Nat.lt_of_le_of_ne List.countP_le_length
  intro he
  have hself := List.countP_eq_length.1 he x hx
  simp at hself

theorem place_lt_place (hnd : all.Nodup) (hx : x ∈ all)
    (h : toLex (holder sets x, x) < toLex (holder sets y, y)) :
    place sets all x < place sets all y := by
  rw [place_eq_countP, place_eq_countP, List.countP_eq_length_filter, List.countP_eq_length_filter]
  apply length_lt_of_not_mem (hnd.filter _) (x := x)
  · intro z hz
    obtain ⟨hmem, hlt⟩ := List.mem_filter.1 hz
    exact List.mem_filter.2 ⟨hmem, decide_eq_true ((of_decide_eq_true hlt).trans h)⟩
  · exact List.mem_filter.2 ⟨hx, decide_eq_true h⟩
  · simp

/-- Two nodes never have one place. -/
theorem place_injOn (hnd : all.Nodup) (sets : List (List Nat)) :
    Set.InjOn (place sets all) {x | x ∈ all} := by
  intro x hx y hy he
  rcases lt_trichotomy (toLex (holder sets x, x)) (toLex (holder sets y, y)) with h | h | h
  · exact absurd he (Nat.ne_of_lt (place_lt_place hnd hx h))
  · exact congrArg (fun p => (ofLex p).2) h
  · exact absurd he.symm (Nat.ne_of_lt (place_lt_place hnd hy h))

/-- The places of all nodes are the numbers from `0` on. -/
theorem place_bijOn (hnd : all.Nodup) (sets : List (List Nat)) :
    Set.BijOn (place sets all) {x | x ∈ all} {i | i < all.length} := by
  have hmaps : Set.MapsTo (place sets all) {x | x ∈ all} {i | i < all.length} :=
    fun x hx => place_lt_length hx
  have hall : {x | x ∈ all} = (all.toFinset : Set Nat) := by
    ext x
    simp
  have hrange : {i | i < all.length} = (Finset.range all.length : Set Nat) := by
    ext i
    simp
  refine ⟨hmaps, place_injOn hnd sets, ?_⟩
  have hinj := place_injOn hnd sets
  rw [hall] at hmaps hinj ⊢
  rw [hrange] at hmaps ⊢
  refine Finset.surjOn_of_injOn_of_card_le _ hmaps hinj ?_
  rw [Finset.card_range, List.toFinset_card_of_nodup hnd]

end Sharing

namespace Scenario

variable {S : Scenario} {pe unit x new : Nat}

theorem nodup_used : S.used.Nodup := (pairwise_ascending _).imp Nat.ne_of_lt

theorem newId_injOn : Set.InjOn S.newId {x | x ∈ S.used} := Sharing.place_injOn nodup_used S.sets

namespace Answered

/-- The holder of a used node is the lowest rank whose work units use it. -/
theorem holder_lowest (h : S.Answered) (hp : 0 < S.pes) (hx : x ∈ S.used) :
    S.holder x < S.pes ∧ x ∈ S.nodes (S.holder x) ∧
      ∀ pe < S.pes, x ∈ S.nodes pe → S.holder x ≤ pe := by
  obtain ⟨set, hset, hmem⟩ := ((h.covers hp).mem_iff x).1 hx
  obtain ⟨q, hq, rfl⟩ := List.mem_map.1 hset
  have hheld : x ∈ S.held q (S.holder x) := mem_held.2 ⟨hmem, rfl⟩
  have hlt : q < S.pes := List.mem_range.1 hq
  refine ⟨Nat.lt_of_le_of_lt (holder_le hlt hmem) hlt, ?_, fun pe hpe hxp => holder_le hpe hxp⟩
  exact (mem_held.1 (mem_held_holder hlt hheld)).1

theorem mem_used_of_mem_nodes (h : S.Answered) (hpe : pe < S.pes) (hx : x ∈ S.nodes pe) :
    x ∈ S.used :=
  ((h.covers (Nat.zero_lt_of_lt hpe)).mem_iff x).2
    ⟨_, List.mem_map_of_mem (List.mem_range.2 hpe), hx⟩

theorem mem_used_of_mem_content (h : S.Answered) (hp : 0 < S.pes) (hx : x ∈ S.content unit) :
    x ∈ S.used :=
  h.mem_used_of_mem_nodes (Block.owner_lt hp unit) (mem_nodes_iff.2 ⟨unit, rfl, hx⟩)

/-- The old ids of a work unit are told by its new ids. -/
theorem get?_oldIds (h : S.Answered) (hp : 0 < S.pes) :
    (S.unit unit).oldIds.get? new = some x ↔ x ∈ S.content unit ∧ new = S.newId x := by
  have hinj : ∀ x ∈ S.content unit, ∀ y ∈ S.content unit, S.newId x = S.newId y → x = y :=
    fun x hx y hy he => newId_injOn (h.mem_used_of_mem_content hp hx)
      (h.mem_used_of_mem_content hp hy) he
  exact IdMap.get?_ofList_swap hinj

end Answered

namespace Finishes

theorem lt_units (hf : S.Finishes) (hp : 0 < S.pes) (hu : unit ∈ S.assignment) :
    unit < S.units := by
  rw [← flatMap_slice hp hf.answered.length_assignment] at hu
  obtain ⟨pe, hpe, hu⟩ := List.mem_flatMap.1 hu
  exact hf.inRange pe (List.mem_range.1 hpe) unit hu

/-- A rank holds the nodes of those work units that it creates. -/
theorem mem_nodes_iff (hf : S.Finishes) (hp : 0 < S.pes) :
    x ∈ S.nodes pe ↔ ∃ unit < S.units, S.owner unit = pe ∧ x ∈ S.content unit := by
  rw [Scenario.mem_nodes_iff]
  constructor
  · rintro ⟨unit, hown, hx⟩
    obtain ⟨e, he, rfl, -⟩ := mem_content.1 hx
    exact ⟨e.2, hf.lt_units hp (List.of_mem_zip he).2, hown, hx⟩
  · rintro ⟨unit, -, hown, hx⟩
    exact ⟨unit, hown, hx⟩

end Finishes

/-- In every run that finishes, a rank knows the new ids of the nodes that its work units use, and
the new id of a node counts the nodes before it in the order by holder and old id. So new ids number
the used nodes without a gap, alike on all ranks and in all work units. -/
theorem new_ids_count_nodes_by_holder {n s : Network} {r : Report} (ha : S.Admissible)
    (hl : S.launch = .ok n) (hs : n.Reaches s) (he : s.ending = some (.ok r)) :
    (∀ pe < S.pes, ∀ x, x ∈ S.nodes pe ↔
      ∃ u ∈ s.collector.units, u.pe = pe ∧ ∃ new, u.oldIds.get? new = some x) ∧
    (∀ x ∈ S.used, S.holder x < S.pes ∧ x ∈ S.nodes (S.holder x) ∧
      ∀ pe < S.pes, x ∈ S.nodes pe → S.holder x ≤ pe) ∧
    (∀ x, S.newId x = S.used.countP fun y => toLex (S.holder y, y) < toLex (S.holder x, x)) ∧
    (∀ pe < S.pes, ∃ w ids, s.ensemble.workers[pe]? = some w ∧ w.newIds = some ids ∧
      ∀ x, ids.get? x = if x ∈ S.nodes pe then some (S.newId x) else none) ∧
    (∀ u ∈ s.collector.units, ∀ new x, u.oldIds.get? new = some x →
      x ∈ S.used ∧ new = S.newId x) ∧
    Set.BijOn S.newId {x | x ∈ S.used} {i | i < r.nodes} ∧ r.nodes = S.used.length := by
  have hp : 0 < S.pes := ha.pes_pos
  obtain ⟨H, h, ho, rfl⟩ := reflects_of_finished ha hl hs he
  have hf : S.Finishes := h.history.finishes ho hp
  have hmem : ∀ u, u ∈ s.collector.units ↔ ∃ unit < S.units, S.unit unit = u :=
    fun u => mem_units_of_over hp h ho
  refine ⟨?_, fun x hx => hf.answered.holder_lowest hp hx, Sharing.place_eq_countP S.sets S.used,
    ?_, ?_, Sharing.place_bijOn nodup_used S.sets, rfl⟩
  · intro pe _ x
    rw [hf.mem_nodes_iff hp]
    constructor
    · rintro ⟨unit, hu, hown, hx⟩
      exact ⟨S.unit unit, (hmem _).2 ⟨unit, hu, rfl⟩, hown, S.newId x,
        (hf.answered.get?_oldIds hp).2 ⟨hx, rfl⟩⟩
    · rintro ⟨u, hu, hown, new, hx⟩
      obtain ⟨unit, hlt, rfl⟩ := (hmem u).1 hu
      exact ⟨unit, hlt, hown, ((hf.answered.get?_oldIds hp).1 hx).1⟩
  · intro pe hpe
    refine ⟨S.worker pe (.of H pe), _, ?_, newIds_of_over h ho hpe, fun x => ?_⟩
    · rw [h.ensemble]
      exact getElem?_workers hpe
    · rw [IdMap.get?_ofList_map]
  · intro u hu new x hx
    obtain ⟨unit, -, rfl⟩ := (hmem u).1 hu
    obtain ⟨hc, hnew⟩ := (hf.answered.get?_oldIds hp).1 hx
    exact ⟨hf.answered.mem_used_of_mem_content hp hc, hnew⟩

theorem pair_new_ids_count_nodes_by_holder :
    ∃ n s, pair.launch = .ok n ∧ n.Reaches s ∧ s.ending = some (.ok pair.report) ∧
      (∀ pe < pair.pes, ∀ x, x ∈ pair.nodes pe ↔
        ∃ u ∈ s.collector.units, u.pe = pe ∧ ∃ new, u.oldIds.get? new = some x) ∧
      (∀ x ∈ pair.used, pair.holder x < pair.pes ∧ x ∈ pair.nodes (pair.holder x) ∧
        ∀ pe < pair.pes, x ∈ pair.nodes pe → pair.holder x ≤ pe) ∧
      (∀ x, pair.newId x =
        pair.used.countP fun y => toLex (pair.holder y, y) < toLex (pair.holder x, x)) ∧
      (∀ pe < pair.pes, ∃ w ids, s.ensemble.workers[pe]? = some w ∧ w.newIds = some ids ∧
        ∀ x, ids.get? x = if x ∈ pair.nodes pe then some (pair.newId x) else none) ∧
      (∀ u ∈ s.collector.units, ∀ new x, u.oldIds.get? new = some x →
        x ∈ pair.used ∧ new = pair.newId x) ∧
      Set.BijOn pair.newId {x | x ∈ pair.used} {i | i < pair.report.nodes} ∧
      pair.report.nodes = pair.used.length := by
  obtain ⟨n, s, hl, hs, he⟩ := finishes_pair.exists_finished admissible_pair
  exact ⟨n, s, hl, hs, he, new_ids_count_nodes_by_holder admissible_pair hl hs he⟩

end Scenario
end MeshDecomp
