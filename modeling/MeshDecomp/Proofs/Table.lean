import MeshDecomp.Proofs.Cargo

/-!
Work units put together again: once everything that was sent has arrived, the table of a rank holds
the nodes of its work units in the order of the elements in the whole mesh.
-/
namespace MeshDecomp

theorem IdMap.flatten_values {m : IdMap (List Nat)} {n : Nat} (h : ∀ k ∈ m.keys, k < n) :
    m.values.flatten = (List.range n).flatMap fun k => (m.get? k).getD [] := by
  rw [IdMap.values_eq_filterMap h]
  induction List.range n with
  | nil => rfl
  | cons k l ih => cases hk : m.get? k <;> simp [hk, ih]

theorem Worker.mem_allNodes {w : Worker} {x : Nat} :
    x ∈ w.allNodes ↔ ∃ unit source l, lookUp w.table unit source = some l ∧ x ∈ l := by
  simp only [allNodes, mem_ascending, List.mem_flatten, List.mem_flatMap, IdMap.mem_values_iff,
    lookUp, Option.bind_eq_some_iff]
  constructor
  · rintro ⟨l, ⟨m, ⟨unit, hm⟩, source, hl⟩, hx⟩
    exact ⟨unit, source, l, ⟨m, hm, hl⟩, hx⟩
  · rintro ⟨unit, source, l, ⟨m, hm, hl⟩, hx⟩
    exact ⟨l, ⟨m, ⟨unit, hm⟩, source, hl⟩, hx⟩

namespace Scenario

variable {S : Scenario}

/-- The partitioner gave every element a work unit, and there are enough of them. -/
def Answered (S : Scenario) : Prop := S.answer = .ok S.assignment

theorem answered_of_eq {ids : List Nat} (h : S.answer = .ok ids) : S.Answered := by
  simp [Answered, assignment, h]

theorem answer_eq_ok_iff {ids : List Nat} :
    S.answer = .ok ids ↔ S.pes ≤ S.units ∧ S.mesh.size ≤ Host.Gathered.maxElements ∧
      S.partitioner.assign (S.mesh.input S.partitioner.geometric) S.units = .ok ids ∧
      ids.length = S.mesh.size := by
  unfold answer
  split
  · simp; omega
  · split
    · simp; omega
    · cases hids : S.partitioner.assign (S.mesh.input S.partitioner.geometric) S.units with
      | error e => simp
      | ok assigned =>
        dsimp only
        split
        · simp only [Except.ok.injEq]
          constructor
          · rintro rfl
            exact ⟨by omega, by omega, rfl, by assumption⟩
          · exact fun h => h.2.2.1
        · next hne =>
          simp only [reduceCtorEq, Except.ok.injEq, false_iff, not_and]
          rintro - - rfl
          exact hne

namespace Answered

theorem length_assignment (h : S.Answered) : S.assignment.length = S.mesh.size :=
  (answer_eq_ok_iff.1 h).2.2.2

theorem pes_le_units (h : S.Answered) : S.pes ≤ S.units := (answer_eq_ok_iff.1 h).1

theorem length_placed (h : S.Answered) : S.placed.length = S.mesh.size := by
  simp [placed, h.length_assignment, TetMesh.size]

end Answered

/-- The elements of all ranks together are those of the mesh, in their order. -/
theorem flatMap_slice (hp : 0 < S.pes) {l : List α} (h : l.length = S.mesh.size) :
    (List.range S.pes).flatMap (S.slice · l) = l := by
  have := Block.flatMap_slices l S.pes (Nat.le_refl _) hp
  rw [Block.mark_self, List.take_length, h] at this
  exact this

theorem slice_placed (pe : Nat) :
    S.slice pe S.placed = (S.slice pe S.mesh.tets).zip (S.share pe) := by
  simp [slice, placed, share, List.zip, List.drop_zipWith, List.take_zipWith]

theorem nodesOf_flatMap (f : Nat → List (Tet × Nat)) (ranks : List Nat) (unit : Nat) :
    nodesOf (ranks.flatMap f) unit = ranks.flatMap fun s => nodesOf (f s) unit := by
  induction ranks with
  | nil => rfl
  | cons s ranks ih => simp [nodesOf_append, ih]

theorem Answered.mem_placed_iff (h : S.Answered) (hp : 0 < S.pes) {e : Tet × Nat} :
    e ∈ S.placed ↔ ∃ s < S.pes, e ∈ S.slice s S.placed := by
  conv_lhs => rw [← flatMap_slice hp h.length_placed]
  simp only [List.mem_flatMap, List.mem_range]

theorem mem_nodes {pe x : Nat} :
    x ∈ S.nodes pe ↔ ∃ e ∈ S.placed, S.owner e.2 = pe ∧ x ∈ e.1.nodes := by
  simp [nodes, and_assoc]

/-- A table holds what its sources read of the work units of the rank. -/
theorem lookUp_table_eq_some {pe unit s : Nat} {sources l : List Nat}
    (h : Worker.lookUp (S.table pe sources) unit s = some l) :
    s ∈ sources ∧ S.owner unit = pe ∧ nodesOf (S.slice s S.placed) unit = l := by
  rw [lookUp_table] at h
  split at h
  · next hs =>
    obtain ⟨hu, -, hl⟩ := get?_cargo_eq_some_iff.1 h
    exact ⟨hs, hu, hl⟩
  · cases h

/-- Everything that was sent to a rank is among some sources. -/
structure Supplied (S : Scenario) (pe : Nat) (sources : List Nat) : Prop where
  lt : ∀ s ∈ sources, s < S.pes
  mem : ∀ s < S.pes, S.cargo s pe ≠ ∅ → s ∈ sources

namespace Supplied

variable {pe unit : Nat} {sources : List Nat}

theorem lookUp_table (h : S.Supplied pe sources) {s : Nat} (hs : s < S.pes) :
    Worker.lookUp (S.table pe sources) unit s = (S.cargo s pe).get? unit := by
  rw [Scenario.lookUp_table]
  split
  · rfl
  · next hm =>
    have hc : S.cargo s pe = ∅ := by
      by_contra hc
      exact hm (h.mem s hs hc)
    rw [hc, IdMap.get?_empty]

theorem lookUp_eq (h : S.Supplied pe sources) (hu : S.owner unit = pe) (s : Nat) :
    (Worker.lookUp (S.table pe sources) unit s).getD [] =
      if s < S.pes then nodesOf (S.slice s S.placed) unit else [] := by
  split
  · next hs =>
    rw [h.lookUp_table hs, get?_cargo, if_pos hu, get?_buckets]
    dsimp only
    split
    · next hn => simp [hn]
    · rfl
  · next hs =>
    rw [Scenario.lookUp_table, if_neg fun hm => hs (h.lt s hm)]
    rfl

/-- The nodes of a work unit, in the order of the elements of the whole mesh. -/
theorem nodesOf_eq (h : S.Supplied pe sources) (ha : S.Answered) (hp : 0 < S.pes)
    (hu : S.owner unit = pe) {w : Worker} (hw : w.table = S.table pe sources) :
    w.nodesOf unit = S.content unit := by
  have hcontent : S.content unit =
      (List.range S.pes).flatMap fun s => nodesOf (S.slice s S.placed) unit := by
    rw [← nodesOf_flatMap, flatMap_slice hp ha.length_placed, content]
  have hlook : ∀ s, (Worker.lookUp (S.table pe sources) unit s).getD [] =
      if s < S.pes then nodesOf (S.slice s S.placed) unit else [] := h.lookUp_eq hu
  rw [Worker.nodesOf, hw, hcontent]
  unfold Worker.lookUp at hlook
  cases ht : (S.table pe sources).get? unit with
  | none =>
    simp only [ht, Option.bind_none, Option.getD_none] at hlook
    symm
    simp only [List.flatMap_eq_nil_iff, List.mem_range]
    intro s hs
    rw [hlook s, if_pos hs]
  | some m =>
    simp only [ht, Option.bind_some] at hlook
    dsimp only
    rw [IdMap.flatten_values (n := S.pes)]
    · apply List.flatMap_congr
      intro s hs
      rw [hlook s, if_pos (List.mem_range.1 hs)]
    · intro s hs
      by_contra hlt
      obtain ⟨l, hl⟩ := IdMap.mem_keys_iff.1 hs
      have hlook' : Worker.lookUp (S.table pe sources) unit s = some l := by
        rw [Worker.lookUp, ht, Option.bind_some, hl]
      rw [Scenario.lookUp_table, if_neg fun hm => hlt (h.lt s hm)] at hlook'
      exact absurd hlook' (by simp)

/-- All nodes in the table are those of the work units of the rank. -/
theorem allNodes_eq (h : S.Supplied pe sources) (ha : S.Answered) (hp : 0 < S.pes) {w : Worker}
    (hw : w.table = S.table pe sources) : w.allNodes = S.nodes pe := by
  apply eq_of_ascending (pairwise_ascending _) (pairwise_ascending _)
  intro x
  change x ∈ w.allNodes ↔ x ∈ S.nodes pe
  rw [Worker.mem_allNodes, hw, mem_nodes]
  constructor
  · rintro ⟨unit, s, l, hl, hx⟩
    obtain ⟨hs, hu, rfl⟩ := lookUp_table_eq_some hl
    obtain ⟨e, he, rfl, hxe⟩ := mem_nodesOf.1 hx
    exact ⟨e, (ha.mem_placed_iff hp).2 ⟨s, h.lt s hs, he⟩, hu, hxe⟩
  · rintro ⟨e, he, hu, hx⟩
    obtain ⟨s, hs, hes⟩ := (ha.mem_placed_iff hp).1 he
    have hmem : x ∈ nodesOf (S.slice s S.placed) e.2 := mem_nodesOf.2 ⟨e, hes, rfl, hx⟩
    refine ⟨e.2, s, _, ?_, hmem⟩
    rw [h.lookUp_table hs]
    exact get?_cargo_eq_some_iff.2 ⟨hu, List.ne_nil_of_mem hmem, rfl⟩

end Supplied

end Scenario

end MeshDecomp
