import MeshDecomp.Proofs.Reading

/-! The host with everything that ranks read: it gathers the whole mesh, has it partitioned and
shares out the answer. -/
namespace MeshDecomp

/-- The block of a rank as it tells the host of it: the nodes of its elements, and a point for each
of them if points are wanted. -/
def ElementSlice.ofBlock (total pes : Nat) (geometric : Bool) (ids : Nat → List Nat)
    (points : Nat → List Point) (pe : Nat) : ElementSlice where
  first := (Block.span total pes pe).first
  connectivity := ids pe
  centroids := if geometric then some (.ofPoints (points pe)) else none

theorem Centroids.append_ofPoints (c : Centroids) (ps qs : List Point) :
    c ++ ofPoints ps ++ ofPoints qs = c ++ ofPoints (ps ++ qs) := by
  show Centroids.mk (_ ++ _ ++ _) (_ ++ _ ++ _) (_ ++ _ ++ _) =
    Centroids.mk (_ ++ _) (_ ++ _) (_ ++ _)
  simp [ofPoints]

namespace Host

section Blocks

variable {total pes : Nat} {geometric : Bool} {ids : Nat → List Nat} {points : Nat → List Point}
  (hids : ∀ pe < pes, (ids pe).length = 4 * (Block.span total pes pe).size)
  (hpoints : ∀ pe < pes, (points pe).length = (Block.span total pes pe).size)

/-- What all ranks bring, as a partitioner gets it. -/
def inputOf (total pes : Nat) (geometric : Bool) (ids : Nat → List Nat)
    (points : Nat → List Point) : PartitionInput where
  connectivity := (List.range pes).flatMap ids
  centroids := if geometric then some (.ofPoints ((List.range pes).flatMap points)) else none
  elements := List.range total
  total := total

include hids in
theorem size_ofBlock {pe : Nat} (h : pe < pes) :
    (ElementSlice.ofBlock total pes geometric ids points pe).size =
      (Block.span total pes pe).size := by
  unfold ElementSlice.size ElementSlice.ofBlock
  rw [hids pe h]
  omega

include hids hpoints in
/-- The slice that starts where the gathered elements end is added to them. -/
theorem add_ofBlock {k : Nat} (hk : k < pes) {g : Gathered}
    (hg : g.elements = Block.mark total pes k) :
    g.add geometric (.ofBlock total pes geometric ids points k) = .ok {
      connectivity := g.connectivity ++ ids k
      elements := Block.mark total pes (k + 1)
      centroids := if geometric then g.centroids ++ .ofPoints (points k) else g.centroids } := by
  generalize hs : ElementSlice.ofBlock total pes geometric ids points k = s
  have hsize : s.size = (Block.span total pes k).size := hs ▸ size_ofBlock hids hk
  have hconnectivity : s.connectivity = ids k := hs ▸ rfl
  have hcentroids : s.centroids = if geometric then some (.ofPoints (points k)) else none :=
    hs ▸ rfl
  have hfirst : s.first = g.elements := by
    rw [hg, ← hs]
    exact Block.first_span hk
  have hlen : s.connectivity.length = 4 * s.size := by
    rw [hsize, hconnectivity]
    exact hids k hk
  have hnext : g.elements + s.size = Block.mark total pes (k + 1) := by
    rw [hsize, hg, Span.size, Block.stop_span hk, Block.first_span hk]
    exact Nat.add_sub_cancel' Block.mark_le_succ
  rw [Gathered.add, if_neg (not_not.2 hlen), if_neg (not_not.2 hfirst), hnext, hcentroids,
    hconnectivity]
  cases geometric with
  | false => rfl
  | true =>
    have hc : (Centroids.ofPoints (points k)).size = s.size := by
      rw [Centroids.size_ofPoints, hpoints k hk, hsize]
    simp [hc]

include hids hpoints in
/-- The slices of the ranks before `n` cover the first elements of the mesh. -/
theorem addAll_ofBlock (n k : Nat) (hk : k + n ≤ pes) (g : Gathered)
    (hg : g.elements = Block.mark total pes k) :
    Gathered.addAll geometric k g
        ((List.range' k n).map (.ofBlock total pes geometric ids points)) = .ok {
      connectivity := g.connectivity ++ (List.range' k n).flatMap ids
      elements := Block.mark total pes (k + n)
      centroids :=
        if geometric then g.centroids ++ .ofPoints ((List.range' k n).flatMap points)
        else g.centroids } := by
  induction n generalizing k g with
  | zero =>
    have he : g.centroids ++ Centroids.ofPoints [] = g.centroids := by
      show Centroids.mk (_ ++ []) (_ ++ []) (_ ++ []) = g.centroids
      simp
    simp [Gathered.addAll, ← hg, he]
  | succ n ih =>
    have hlt : k < pes := by omega
    rw [List.range'_succ, List.map_cons, Gathered.addAll, add_ofBlock hids hpoints hlt hg]
    dsimp only
    rw [ih (k + 1) (by omega) _ rfl]
    have hs : k + 1 + n = k + (n + 1) := by omega
    cases geometric <;> simp [hs, Centroids.append_ofPoints]

/-- The host looks for points if all ranks bring some. -/
theorem all_ofBlock (hp : 0 < pes) :
    (((List.range pes).map (ElementSlice.ofBlock total pes geometric ids points)).all
      fun s => s.centroids.isSome) = geometric := by
  rw [Bool.eq_iff_iff, List.all_eq_true]
  constructor
  · intro h
    have := h _ (List.mem_map_of_mem (List.mem_range.2 hp))
    by_contra hgeo
    simp [ElementSlice.ofBlock, hgeo] at this
  · intro hgeo s hs
    obtain ⟨pe, -, rfl⟩ := List.mem_map.1 hs
    simp [ElementSlice.ofBlock, hgeo]

include hids hpoints in
/-- What the host answers once everything is gathered. -/
theorem assign_ofBlock (hp : 0 < pes) {h : Host} (he : h.elements = total) :
    h.assign ((List.range pes).map (.ofBlock total pes geometric ids points)) =
      if Gathered.maxElements < total then .error (.crash .outOfRoom)
      else
        match h.partitioner.assign (inputOf total pes geometric ids points) h.units with
        | .error e => .error (e.map .partition)
        | .ok answer =>
            if answer.length = total then .ok answer
            else
              .error (.error (.internal 0 (.assigned h.partitioner.name answer.length total))) := by
  have hall : (((List.range pes).map (ElementSlice.ofBlock total pes geometric ids points)).all
      fun s => s.centroids.isSome) = geometric := all_ofBlock hp
  have hadd : Gathered.addAll geometric 0 {} ((List.range' 0 pes).map
      (.ofBlock total pes geometric ids points)) = _ :=
    addAll_ofBlock hids hpoints pes 0 (by omega) {} (Block.mark_zero hp).symm
  rw [← List.range_eq_range', Nat.zero_add, Block.mark_self] at hadd
  obtain ⟨g, hg, helements, hinput⟩ : ∃ g,
      Gathered.addAll geometric 0 {} ((List.range pes).map
        (.ofBlock total pes geometric ids points)) = .ok g ∧ g.elements = total ∧
      PartitionInput.mk g.connectivity (if geometric then some g.centroids else none)
        (List.range total) total = inputOf total pes geometric ids points := by
    refine ⟨_, hadd, rfl, ?_⟩
    cases geometric <;> rfl
  unfold Host.assign
  by_cases hmax : Gathered.maxElements < total
  · simp only [he, hmax, ↓reduceIte]
    rfl
  · simp only [he, hall, hg, hmax, helements, hinput, ↓reduceIte, ne_eq, not_true_eq_false,
      Except.mapError, bind, Except.bind, pure, Except.pure]
    cases h.partitioner.assign (inputOf total pes geometric ids points) h.units with
    | error e => rfl
    | ok answer =>
      dsimp only
      split <;> rfl

include hids in
/-- Everyone is told the share of the elements that it read. -/
theorem scatter_ofBlock (units n k : Nat) (hk : k + n ≤ pes) (answer : List Nat) :
    scatter units k ((List.range' k n).map (.ofBlock total pes geometric ids points))
        (answer.drop (Block.mark total pes k)) =
      (List.range' k n).map fun pe => .tell pe (.partition units
        ((answer.drop (Block.span total pes pe).first).take (Block.span total pes pe).size)) := by
  induction n generalizing k with
  | zero => rfl
  | succ n ih =>
    have hlt : k < pes := by omega
    have hnext : Block.mark total pes k + (Block.span total pes k).size =
        Block.mark total pes (k + 1) := by
      rw [Span.size, Block.stop_span hlt, Block.first_span hlt]
      exact Nat.add_sub_cancel' Block.mark_le_succ
    rw [List.range'_succ, List.map_cons, scatter, size_ofBlock hids hlt, List.drop_drop, hnext,
      ih (k + 1) (by omega), List.map_cons, Block.first_span hlt]

end Blocks

end Host

namespace Scenario

variable {S : Scenario} {pe : Nat}

/-- The points that a rank tells the host of. -/
def points (S : Scenario) (pe : Nat) : List Point := (S.slice pe S.mesh.tets).map S.mesh.centroid

theorem elementSlice_eq : S.elementSlice =
    .ofBlock S.mesh.size S.pes S.partitioner.geometric (fun pe => (S.portion pe).connectivity)
      S.points := rfl

theorem length_portion (h : pe < S.pes) :
    (S.portion pe).connectivity.length = 4 * (S.span pe).size := by
  rw [portion, Tet.length_flatten, length_slice h rfl]

theorem length_points (h : pe < S.pes) : (S.points pe).length = (S.span pe).size := by
  rw [points, List.length_map, length_slice h rfl]

theorem sum_span (hp : 0 < S.pes) :
    ((List.range S.pes).map fun pe => (S.span pe).size).foldr (· + ·) 0 = S.mesh.size :=
  Block.sum_size hp

theorem scatter_elementSlices (hp : 0 < S.pes) (ids : List Nat) :
    Host.scatter S.units 0 ((List.range S.pes).map S.elementSlice) ids =
      (List.range S.pes).map fun pe => .tell pe (.partition S.units (S.slice pe ids)) := by
  have hs : Host.scatter S.units 0 ((List.range' 0 S.pes).map S.elementSlice) _ = _ :=
    Host.scatter_ofBlock (fun pe => length_portion) S.units S.pes 0 (by omega) ids
  rw [Block.mark_zero hp, List.drop_zero, ← List.range_eq_range'] at hs
  exact hs

/-- What the host answers once everything is gathered. -/
theorem assign_elementSlices (hp : 0 < S.pes) (hu : S.pes ≤ S.units) {h : Host}
    (he : h.elements = S.mesh.size) (hunits : h.units = S.units)
    (hpart : h.partitioner = S.partitioner) :
    h.assign ((List.range S.pes).map S.elementSlice) = S.answer := by
  have hinput : Host.inputOf S.mesh.size S.pes S.partitioner.geometric
      (fun pe => (S.portion pe).connectivity) S.points = S.mesh.input S.partitioner.geometric := by
    have hids : (List.range S.pes).flatMap (fun pe => (S.portion pe).connectivity) =
        S.mesh.connectivity := by
      conv_rhs => rw [TetMesh.connectivity, ← flatMap_slice hp (l := S.mesh.tets) rfl]
      unfold portion Tet.flatten
      rw [List.flatMap_assoc]
    have hpoints : (List.range S.pes).flatMap S.points = S.mesh.tets.map S.mesh.centroid := by
      conv_rhs => rw [← flatMap_slice hp (l := S.mesh.tets) rfl]
      rw [List.map_flatMap]
      rfl
    unfold Host.inputOf TetMesh.input
    rw [hids, hpoints]
  rw [elementSlice_eq, Host.assign_ofBlock (fun pe => length_portion) (fun pe => length_points) hp
    he, hinput, hunits, hpart]
  exact (if_neg (Nat.not_lt.2 hu)).symm

end Scenario
end MeshDecomp
