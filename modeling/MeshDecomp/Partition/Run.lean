import MeshDecomp.Partition.Input

/-!
The cut of a sequence of `n` things into `parts` runs that differ by at most one in length, and the
partitioner that cuts the elements in the order of their numbers.
-/

namespace MeshDecomp

namespace Run

/-- How many things lie before run `k`. -/
def start (n parts k : Nat) : Nat := k * n / parts

/-- The length of run `k`. -/
def share (n parts k : Nat) : Nat := start n parts (k + 1) - start n parts k

/-- The run that holds position `i`. -/
def holding (n parts i : Nat) : Nat := ((i + 1) * parts - 1) / n

/-- The runs that hold anything, in order. There are at most `n` of them, however many parts there
are. -/
def occupied (n parts : Nat) : List Nat :=
  if parts ≤ n then List.range parts else (List.range n).map (holding n parts)

theorem start_le_iff {n parts i k : Nat} (hi : i < n) (hp : 0 < parts) :
    start n parts k ≤ i ↔ k ≤ holding n parts i := by
  have hn : 0 < n := Nat.zero_lt_of_lt hi
  have pos : 0 < (i + 1) * parts := Nat.mul_pos (Nat.succ_pos i) hp
  rw [start, holding, Nat.le_div_iff_mul_le hn, ← Nat.lt_succ_iff, Nat.div_lt_iff_lt_mul hp,
    Nat.succ_eq_add_one]
  omega

theorem holding_lt {n parts i : Nat} (hi : i < n) (hp : 0 < parts) : holding n parts i < parts := by
  have hn : 0 < n := Nat.zero_lt_of_lt hi
  rw [holding, Nat.div_lt_iff_lt_mul hn]
  have : (i + 1) * parts ≤ n * parts := Nat.mul_le_mul_right _ hi
  have pos : 0 < (i + 1) * parts := Nat.mul_pos (Nat.succ_pos i) hp
  rw [Nat.mul_comm parts n]
  omega

theorem start_le {n parts k : Nat} (hk : k ≤ parts) : start n parts k ≤ n :=
  Nat.div_le_of_le_mul (Nat.mul_le_mul_right n hk)

theorem share_pos_iff {n parts k : Nat} (hk : k < parts) :
    0 < share n parts k ↔ ∃ i < n, holding n parts i = k := by
  have hp : 0 < parts := Nat.zero_lt_of_lt hk
  constructor
  · intro h
    have last : start n parts (k + 1) ≤ n := start_le hk
    simp only [share] at h
    have hi : start n parts k < n := by omega
    have h₁ := (start_le_iff hi hp).1 (Nat.le_refl _)
    have h₂ := mt (start_le_iff (k := k + 1) hi hp).2 (by omega)
    exact ⟨start n parts k, hi, by omega⟩
  · rintro ⟨i, hi, rfl⟩
    have h₁ := (start_le_iff hi hp).2 (Nat.le_refl (holding n parts i))
    have h₂ := mt (start_le_iff (k := holding n parts i + 1) hi hp).1 (by omega)
    simp only [share]
    omega

theorem share_pos_of_le {n parts : Nat} (h : parts ≤ n) (hp : 0 < parts) (k : Nat) :
    0 < share n parts k := by
  have : start n parts k + 1 ≤ start n parts (k + 1) := by
    rw [start, ← Nat.add_div_right _ hp, start, Nat.add_mul, Nat.one_mul]
    exact Nat.div_le_div_right (Nat.add_le_add_left h _)
  simp only [share]
  omega

theorem mem_occupied {n parts k : Nat} :
    k ∈ occupied n parts ↔ k < parts ∧ 0 < share n parts k := by
  unfold occupied
  split
  next h =>
    simp only [List.mem_range, iff_self_and]
    exact fun hk => share_pos_of_le h (Nat.zero_lt_of_lt hk) k
  next h =>
    simp only [List.mem_map, List.mem_range]
    constructor
    · rintro ⟨i, hi, rfl⟩
      have hk := holding_lt hi (show 0 < parts by omega)
      exact ⟨hk, (share_pos_iff hk).2 ⟨i, hi, rfl⟩⟩
    · exact fun ⟨hk, hs⟩ => (share_pos_iff hk).1 hs

theorem pairwise_occupied (n parts : Nat) : (occupied n parts).Pairwise (· < ·) := by
  unfold occupied
  split
  next => exact List.pairwise_lt_range
  next h =>
    refine List.pairwise_map.2 (List.pairwise_lt_range.imp_of_mem fun {i j} _ hj hij => ?_)
    have hn : 0 < n := Nat.zero_lt_of_lt (List.mem_range.1 hj)
    have hm : (i + 1 + 1) * parts ≤ (j + 1) * parts := Nat.mul_le_mul_right _ (by omega)
    rw [Nat.add_mul, Nat.one_mul] at hm
    calc holding n parts i < holding n parts i + 1 := Nat.lt_succ_self _
      _ = ((i + 1) * parts - 1 + n) / n := (Nat.add_div_right _ hn).symm
      _ ≤ holding n parts j := Nat.div_le_div_right (by omega)

end Run

namespace Partitioner

/-- Cuts the sequence of all elements of the mesh into runs. -/
def elementOrder : Partitioner where
  name := "block"
  geometric := false
  assign := guarded fun input parts =>
    (input.elements.mapM (part input.total parts)).mapError .error
where
  part (total parts e : Nat) : Except PartitionError Nat :=
    if total ≤ e then .error (.invalidInput (.beyondMesh e total)) else .ok (e * parts / total)

end Partitioner

end MeshDecomp
