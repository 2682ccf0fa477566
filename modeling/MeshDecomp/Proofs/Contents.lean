import MeshDecomp.Proofs.NewIds

/-! Finished work units hold the elements that the partitioner gave them, in their order, whatever
the number of ranks. -/
namespace MeshDecomp
namespace Scenario

variable {S : Scenario} {unit : Nat}

/-- A work unit in old ids. -/
theorem Answered.map_oldIds (h : S.Answered) (hp : 0 < S.pes) :
    (S.unit unit).connectivity.map (S.unit unit).oldIds.get? = (S.content unit).map some := by
  show ((S.content unit).map S.newId).map _ = _
  rw [List.map_map]
  apply List.map_congr_left
  intro x hx
  exact (h.get?_oldIds hp).2 ⟨hx, rfl⟩

/-- The same run on another number of ranks. -/
def onRanks (S : Scenario) (pes : Nat) : Scenario := { S with pes := pes }

theorem Answered.answer (h : S.Answered) :
    S.partitioner.assign (S.mesh.input S.partitioner.geometric) S.units = .ok S.assignment :=
  (answer_eq_ok_iff.1 h).2.2.1

/-- The answer of the partitioner does not depend on the number of ranks. -/
theorem content_onRanks {pes : Nat} (h : S.Answered) (h' : (S.onRanks pes).Answered) :
    (S.onRanks pes).content unit = S.content unit := by
  have hids : (S.onRanks pes).assignment = S.assignment :=
    Except.ok.inj (h'.answer.symm.trans h.answer)
  unfold content placed
  rw [hids]
  rfl

/-- In every run that finishes, there is one work unit for every id. Its owner creates it, and in
old ids it is what the elements hold that the partitioner gave it, in the order of the elements. So
it does not depend on the number of ranks. -/
theorem units_hold_their_elements_in_order {n s : Network} {r : Report} (ha : S.Admissible)
    (hl : S.launch = .ok n) (hs : n.Reaches s) (he : s.ending = some (.ok r)) :
    ∃ ids, S.partitioner.assign (S.mesh.input S.partitioner.geometric) S.units = .ok ids ∧
      ids.length = S.mesh.size ∧
      (s.collector.units.map WorkUnit.id).Perm (List.range S.units) ∧
      (∀ u ∈ s.collector.units, u.pe = Block.owner S.units S.pes u.id ∧
        u.connectivity.map u.oldIds.get? = (nodesOf (S.mesh.tets.zip ids) u.id).map some) ∧
      ∀ pes n' s' r', (S.onRanks pes).Admissible → (S.onRanks pes).launch = .ok n' →
        n'.Reaches s' → s'.ending = some (.ok r') →
        ∀ u ∈ s.collector.units, ∃ u' ∈ s'.collector.units, u'.id = u.id ∧
          u'.connectivity.map u'.oldIds.get? = u.connectivity.map u.oldIds.get? := by
  have hp : 0 < S.pes := ha.pes_pos
  obtain ⟨H, h, ho, rfl⟩ := reflects_of_finished ha hl hs he
  have hans : S.Answered := (h.history.finishes ho hp).answered
  refine ⟨S.assignment, hans.answer, hans.length_assignment, ?_, ?_, ?_⟩
  · have hperm := (units_of_over hp h ho).map WorkUnit.id
    rw [List.map_map] at hperm
    exact hperm.trans (.of_eq (List.map_id _))
  · intro u hu
    obtain ⟨unit, -, rfl⟩ := (mem_units_of_over hp h ho).1 hu
    exact ⟨rfl, hans.map_oldIds hp⟩
  · intro pes n' s' r' ha' hl' hs' he' u hu
    have hp' : 0 < (S.onRanks pes).pes := ha'.pes_pos
    obtain ⟨H', h', ho', rfl⟩ := reflects_of_finished ha' hl' hs' he'
    have hans' : (S.onRanks pes).Answered := (h'.history.finishes ho' hp').answered
    obtain ⟨unit, hlt, rfl⟩ := (mem_units_of_over hp h ho).1 hu
    refine ⟨(S.onRanks pes).unit unit, (mem_units_of_over hp' h' ho').2 ⟨unit, hlt, rfl⟩, rfl, ?_⟩
    rw [hans'.map_oldIds hp', hans.map_oldIds hp, content_onRanks hans hans']

theorem pair_units_hold_their_elements_in_order :
    ∃ n s, pair.launch = .ok n ∧ n.Reaches s ∧ s.ending = some (.ok pair.report) ∧
      ∃ ids, pair.partitioner.assign (pair.mesh.input pair.partitioner.geometric) pair.units =
          .ok ids ∧
        ids.length = pair.mesh.size ∧
        (s.collector.units.map WorkUnit.id).Perm (List.range pair.units) ∧
        (∀ u ∈ s.collector.units, u.pe = Block.owner pair.units pair.pes u.id ∧
          u.connectivity.map u.oldIds.get? = (nodesOf (pair.mesh.tets.zip ids) u.id).map some) ∧
        ∀ pes n' s' r', (pair.onRanks pes).Admissible → (pair.onRanks pes).launch = .ok n' →
          n'.Reaches s' → s'.ending = some (.ok r') →
          ∀ u ∈ s.collector.units, ∃ u' ∈ s'.collector.units, u'.id = u.id ∧
            u'.connectivity.map u'.oldIds.get? = u.connectivity.map u.oldIds.get? := by
  obtain ⟨n, s, hl, hs, he⟩ := finishes_pair.exists_finished admissible_pair
  exact ⟨n, s, hl, hs, he, units_hold_their_elements_in_order admissible_pair hl hs he⟩

end Scenario
end MeshDecomp
