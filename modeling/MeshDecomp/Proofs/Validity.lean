import MeshDecomp.Partition.Algorithm
import MeshDecomp.Proofs.Rows

/-! What the partitioners do once their input has passed the checks that all of them make. -/

namespace MeshDecomp

variable {i : PartitionInput} {m : Nat}

theorem PartitionInput.validate_eq_ok_iff :
    i.validate = .ok () ↔ i.connectivity.length = 4 * i.size ∧
      ∀ c, i.centroids = some c → c.size = i.size := by
  unfold validate
  by_cases hlen : i.connectivity.length = 4 * i.size
  · rw [if_neg (fun h => h hlen)]
    cases hc : i.centroids with
    | none => simp [hlen]
    | some c => by_cases hsize : c.size = i.size <;> simp [hlen, hsize]
  · simp [hlen]

namespace Partitioner

theorem guarded_of_valid (hi : i.validate = .ok ()) (hm : 0 < m)
    (assign : PartitionInput → Nat → Except (Failure PartitionError) (List Nat)) :
    guarded assign i m = assign i m := by
  rw [guarded, if_neg (Nat.ne_of_gt hm), hi]

/-- Everything else is refused before it is looked at. -/
theorem guarded_congr
    {assign assign' : PartitionInput → Nat → Except (Failure PartitionError) (List Nat)}
    (h : i.validate = .ok () → 0 < m → assign i m = assign' i m) :
    guarded assign i m = guarded assign' i m := by
  unfold guarded
  split
  · rfl
  · next hm =>
    cases hv : i.validate with
    | error e => rfl
    | ok => exact h hv (Nat.pos_of_ne_zero hm)

theorem ofCentroids_of_valid (hi : i.validate = .ok ()) (hm : 0 < m) {c : Centroids}
    (hc : i.centroids = some c) (name : String)
    (assign : Centroids → (size parts : Nat) → Except Crash (List Nat)) :
    (ofCentroids name assign).assign i m = (assign c i.size m).mapError .crash := by
  apply (guarded_of_valid hi hm _).trans
  rw [hc]

theorem elementOrder_of_valid (hi : i.validate = .ok ()) (hm : 0 < m) :
    elementOrder.assign i m =
      (i.elements.mapM (elementOrder.part i.total m)).mapError .error :=
  guarded_of_valid hi hm fun input parts =>
    (input.elements.mapM (elementOrder.part input.total parts)).mapError .error

/-- The face graph of the connectivity of a checked input has one row for each element. -/
theorem graphGrowing_of_valid (hi : i.validate = .ok ()) (hm : 0 < m) :
    let g := FaceGraph.ofTets (Tet.ofFlat i.connectivity)
    g.size = i.size ∧ graphGrowing.assign i m =
      .ok ((List.range g.size).map fun e => ((Growth.grow g m).parts.get? e).getD 0) := by
  have hlen := (PartitionInput.validate_eq_ok_iff.1 hi).1
  have hflat : FaceGraph.ofFlat i.connectivity = .ok (.ofTets (Tet.ofFlat i.connectivity)) := by
    apply if_neg
    rw [hlen, Nat.mul_mod_right]
    exact fun h => h rfl
  refine ⟨?_, ?_⟩
  · rw [FaceGraph.size_ofTets, Tet.length_ofFlat, hlen, Nat.mul_div_cancel_left _ (by decide)]
  · apply (guarded_of_valid hi hm _).trans
    rw [hflat]

end Partitioner

end MeshDecomp
