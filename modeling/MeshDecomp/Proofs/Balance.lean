import MeshDecomp.Proofs.Safety

/-!
Balanced parts. Every partitioner gives each part as many elements as there are for each, rounded
down or up, whatever the coordinates and the graph are.
-/

namespace MeshDecomp

variable {n m : Nat} {i : PartitionInput}

/-- All elements of a mesh in the order of their numbers; if they have points, each has one. -/
structure PartitionInput.Whole (n : Nat) (i : PartitionInput) : Prop where
  elements : i.elements = List.range n
  total : i.total = n
  connectivity : i.connectivity.length = 4 * n
  covers : ∀ c, i.centroids = some c → c.Covers n

namespace PartitionInput.Whole

theorem size_eq (h : i.Whole n) : i.size = n := by
  rw [size, h.elements, List.length_range]

theorem validate_eq (h : i.Whole n) : i.validate = .ok () := by
  rw [validate_eq_ok_iff, h.size_eq]
  exact ⟨h.connectivity, fun c hc => h.covers c hc .x⟩

end PartitionInput.Whole

/-! ### Halves of repeated cuts -/

namespace Bisection

variable {cut : Cut} {direction : List Nat → Point} {cloud : Nat → Point}
  {first parts : Nat} {idx : List Nat}

theorem mem_pairs (hparts : 0 < parts) {e : Nat × Nat}
    (he : e ∈ pairs cut direction cloud first parts idx) :
    first ≤ e.2 ∧ e.2 < first + parts := by
  fun_induction pairs cut direction cloud first parts idx with
  | case1 first parts idx h =>
    obtain ⟨i, -, rfl⟩ := List.mem_map.1 he
    simpa using hparts
  | case2 first parts idx h left halves ihl ihr =>
    rcases List.mem_append.1 he with he | he
    · have := ihl (by omega) he
      omega
    · have := ihr (by omega) he
      omega

/-- No other part gets anything. -/
theorem not_mem_pairs (hparts : 0 < parts) {p : Nat} (hp : p < first ∨ first + parts ≤ p) :
    p ∉ (pairs cut direction cloud first parts idx).map Prod.snd := by
  intro hmem
  obtain ⟨e, he, rfl⟩ := List.mem_map.1 hmem
  have := mem_pairs hparts he
  omega

/-- Repeated cuts share the elements evenly, however often a share is rounded down. -/
theorem even_pairs (hcut : cut.Separating) (hparts : 0 < parts) :
    Even idx.length first parts ((pairs cut direction cloud first parts idx).map Prod.snd) := by
  fun_induction pairs cut direction cloud first parts idx with
  | case1 first parts idx h =>
    have hall : (idx.map fun e => (e, first)).map Prod.snd = List.replicate idx.length first := by
      rw [List.map_map]
      exact List.map_const' ..
    rw [hall]
    exact even_replicate hparts h
  | case2 first parts idx h left halves ihl ihr =>
    intro lo hi hlo hhi p hp hp'
    have hlt : left < parts := Nat.div_lt_self hparts Nat.one_lt_two
    have hleft : 0 < left := Nat.div_pos (by omega) Nat.two_pos
    have hlinear := linear_along cloud (direction idx)
    have hsep := hcut _ _ idx hlinear (left_le hlt.le idx.length)
    have hl : halves.1.length = idx.length * left / parts := hsep.length
    have hr : halves.2.length = idx.length - idx.length * left / parts := hsep.length_others
    obtain ⟨⟨hllo, hlhi⟩, hrlo, hrhi⟩ := bounds_cut hlt hlo hhi
    rw [List.map_append, List.count_append]
    rcases Nat.lt_or_ge p (first + left) with hside | hside
    · have hnot : p ∉ (pairs cut direction cloud (first + left) (parts - left) halves.2).map
          Prod.snd := not_mem_pairs (by omega) (Or.inl hside)
      rw [List.count_eq_zero_of_not_mem hnot, Nat.add_zero]
      exact ihl hleft lo hi (hl.symm ▸ hllo) (hl.symm ▸ hlhi) p hp hside
    · have hnot : p ∉ (pairs cut direction cloud first left halves.1).map Prod.snd :=
        not_mem_pairs hleft (Or.inr hside)
      rw [List.count_eq_zero_of_not_mem hnot, Nat.zero_add]
      exact ihr (by omega) lo hi (hr.symm ▸ hrlo) (hr.symm ▸ hrhi) p hside (by omega)

/-- Bisection writes parts of even size, whatever routine makes the cuts. -/
theorem balanced_bisect (hcut : cut.Separating) (hm : 0 < m) (direction : List Nat → Point)
    (cloud : Nat → Point) (n : Nat) :
    Balanced n m
      (bisect cut direction cloud 0 m (List.range n) (Array.replicate n 0)).toList := by
  have hfirst := map_fst_perm_pairs hcut direction cloud 0 m (List.range n)
  have heven : Even (List.range n).length 0 m
      ((pairs cut direction cloud 0 m (List.range n)).map Prod.snd) := even_pairs hcut hm
  rw [List.length_range] at heven
  rw [bisect_eq_write, toList_write hfirst Array.size_replicate]
  have hperm := perm_inOrder (pairs cut direction cloud 0 m (List.range n))
  apply Even.balanced
  · intro lo hi hlo hhi p hp hp'
    rw [hperm.count_eq]
    exact heven lo hi hlo hhi p hp hp'
  · rw [hperm.length_eq, List.length_map, ← List.length_map (f := Prod.fst), hfirst.length_eq,
      List.length_range]
  · intro p hp
    by_contra hge
    exact not_mem_pairs hm (Or.inr (by omega)) (hperm.mem_iff.1 hp)

/-- Bisection shares any points evenly, whatever the directions of the cuts. -/
theorem balanced_partsIn (S : Selection) (toward : List Item → Point) {c : Centroids}
    (hm : 0 < m) (hc : c.Covers n) : ∃ ids, partsIn S toward c n m = .ok ids ∧ Balanced n m ids :=
  ⟨_, partsIn_of_reaches S toward (fun a => (hc a).ge) m, balanced_bisect S.separating hm _ _ n⟩

end Bisection

namespace Partitioner

theorem balanced_bisection (h : i.Whole n) (hm : 0 < m) {c : Centroids}
    (hc : i.centroids = some c) (S : Bisection.Selection) (name : String)
    (direction : List Bisection.Item → Point) :
    ∃ ids, (ofCentroids name (Bisection.partsIn S direction)).assign i m = .ok ids ∧
      Balanced n m ids := by
  obtain ⟨ids, hids, hbalanced⟩ := Bisection.balanced_partsIn S direction hm (h.covers c hc)
  refine ⟨ids, ?_, hbalanced⟩
  rw [ofCentroids_of_valid h.validate_eq hm hc, h.size_eq, hids]
  rfl

theorem balanced_hilbertCurve (h : i.Whole n) (hm : 0 < m) {c : Centroids}
    (hc : i.centroids = some c) :
    ∃ ids, hilbertCurve.assign i m = .ok ids ∧ Balanced n m ids := by
  rw [hilbertCurve, ofCentroids_of_valid h.validate_eq hm hc, h.size_eq]
  split
  · next hzero =>
    subst hzero
    exact ⟨[], rfl, rfl, by simp, by simp⟩
  · obtain ⟨ps, hps, hlen⟩ := (h.covers c hc).points
    have hkeys : (Hilbert.keys ps).length = n := by
      rw [Hilbert.keys, List.length_map, hlen]
    rw [hps]
    refine ⟨_, rfl, ?_⟩
    have hruns := Hilbert.balanced_runs hm (Hilbert.keys ps)
    rwa [hkeys] at hruns

theorem balanced_elements (h : i.Whole n) (hm : 0 < m) :
    ∃ ids, elementOrder.assign i m = .ok ids ∧ Balanced n m ids := by
  obtain ⟨ids, hids, hbalanced⟩ := balanced_elementOrder (n := n) hm
  refine ⟨ids, ?_, hbalanced⟩
  rw [elementOrder_of_valid h.validate_eq hm, h.elements, h.total, hids]
  rfl

theorem balanced_graphGrowing (h : i.Whole n) (hm : 0 < m) :
    ∃ ids, graphGrowing.assign i m = .ok ids ∧ Balanced n m ids := by
  obtain ⟨hsize, hassign⟩ := graphGrowing_of_valid h.validate_eq hm
  have hgrown := Growth.balanced_grow (.ofTets (Tet.ofFlat i.connectivity)) hm
  rw [hsize, h.size_eq] at hgrown
  rw [hassign, hsize, h.size_eq]
  exact ⟨_, rfl, hgrown⟩

end Partitioner

/-- Every element of a mesh gets a part, and the parts are of even size; with as many elements as
parts, none is empty. It does not matter where cuts run, which routine makes them and which keys the
points have. -/
theorem parts_balanced (hm : 0 < m) :
    (∀ i : PartitionInput, i.Whole n → ∀ a ≠ Algorithm.multilevel,
        (a.geometric = true → i.centroids.isSome) → ∀ S : Bisection.Selection,
        ∃ ids, (a.selecting S).assign i m = .ok ids ∧ Balanced n m ids ∧
          (m ≤ n → ∀ p < m, p ∈ ids)) ∧
      (∀ a : Algorithm, a.selecting .sorting = a.partitioner) ∧
      (∀ direction (c : Centroids), c.Covers n → ∀ S : Bisection.Selection,
        ∃ ids, Bisection.partsIn S direction c n m = .ok ids ∧ Balanced n m ids) ∧
      (∀ direction (c : Centroids), c.Covers n →
        Bisection.partsIn .sorting direction c n m = Bisection.parts direction c n m) ∧
      ∀ keys : List Nat, keys.length = n → Balanced n m (Hilbert.runs m keys) := by
  refine ⟨?_, Algorithm.selecting_sorting,
    fun direction c hc S => Bisection.balanced_partsIn S direction hm hc,
    fun direction c hc => Bisection.partsIn_sorting direction (hc .x) m, ?_⟩
  · intro i hi a ha hpoints S
    have hanswer : ∃ ids, (a.selecting S).assign i m = .ok ids ∧ Balanced n m ids := by
      cases a with
      | coordinateBisection =>
        obtain ⟨c, hc⟩ := Option.isSome_iff_exists.1 (hpoints rfl)
        exact Partitioner.balanced_bisection hi hm hc S _ _
      | inertialBisection =>
        obtain ⟨c, hc⟩ := Option.isSome_iff_exists.1 (hpoints rfl)
        exact Partitioner.balanced_bisection hi hm hc S _ _
      | hilbertCurve =>
        obtain ⟨c, hc⟩ := Option.isSome_iff_exists.1 (hpoints rfl)
        rw [Algorithm.selecting_of_other (by decide) (by decide)]
        exact Partitioner.balanced_hilbertCurve hi hm hc
      | elementOrder =>
        rw [Algorithm.selecting_of_other (by decide) (by decide)]
        exact Partitioner.balanced_elements hi hm
      | graphGrowing =>
        rw [Algorithm.selecting_of_other (by decide) (by decide)]
        exact Partitioner.balanced_graphGrowing hi hm
      | multilevel => exact absurd rfl ha
    obtain ⟨ids, hids, hbalanced⟩ := hanswer
    exact ⟨ids, hids, hbalanced, fun hle p hp => hbalanced.mem hle hp⟩
  · intro keys hkeys
    rw [← hkeys]
    exact Hilbert.balanced_runs hm keys

/-- Three elements in a row, two of them with the same point. -/
def threeElements : PartitionInput where
  connectivity := [0, 1, 2, 3, 1, 2, 3, 4, 2, 3, 4, 5]
  centroids := some (.ofPoints [.origin, .origin, ⟨.one, .zero, .zero⟩])
  elements := [0, 1, 2]
  total := 3

theorem whole_threeElements : threeElements.Whole 3 where
  elements := rfl
  total := rfl
  connectivity := rfl
  covers := by
    rintro c ⟨⟩ a
    exact Centroids.length_axis_ofPoints _ a

theorem three_elements_balanced :
    0 < 2 ∧ threeElements.Whole 3 ∧ threeElements.centroids.isSome ∧
      ∃ ids, (Algorithm.inertialBisection.selecting .turned).assign threeElements 2 = .ok ids ∧
        Balanced 3 2 ids ∧ (2 ≤ 3 → ∀ p < 2, p ∈ ids) :=
  ⟨Nat.two_pos, whole_threeElements, rfl,
    (parts_balanced Nat.two_pos).1 threeElements whole_threeElements .inertialBisection
      Algorithm.noConfusion (fun _ => rfl) .turned⟩

end MeshDecomp
