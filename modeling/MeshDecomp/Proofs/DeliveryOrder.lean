import MeshDecomp.Proofs.Collected

/-! Every order of deliveries comes to the same end, once one order has finished. -/
namespace MeshDecomp
namespace Scenario

variable {S : Scenario}

/-- What the ranks know in the end. -/
theorem workers_of_over {H : List Letter} {s : Network} (h : S.Reflects H s) (ho : S.Over H) :
    s.ensemble.workers.map (fun w => (w.bounds, w.cost, w.newIds)) =
      (List.range S.pes).map fun pe =>
        (some (S.bounds pe), some (S.cost pe),
          some (.ofList ((S.nodes pe).map fun x => (x, S.newId x)))) := by
  rw [h.ensemble]
  simp only [ensemble, List.map_map]
  apply List.map_congr_left
  intro pe hpe
  have hp : pe < S.pes := List.mem_range.1 hpe
  simp only [Function.comp, bounds_of_over h ho hp, cost_of_over h ho hp, newIds_of_over h ho hp]

/-- If one order of deliveries finishes, no order goes on for ever and wherever an order ends, it
has finished with the same report, work units, bounds, costs and new ids. -/
theorem finishes_alike_in_every_order {n s : Network} {r : Report} (ha : S.Admissible)
    (hl : S.launch = .ok n) (hs : n.Reaches s) (he : s.ending = some (.ok r)) :
    ¬ n.Endless ∧ ∀ t, n.Reaches t → t.AtRest →
      t.ending = some (.ok r) ∧
        t.collector.sortedUnits = s.collector.sortedUnits ∧
        t.collector.bounds = s.collector.bounds ∧
        t.ensemble.workers.map (fun w => (w.bounds, w.cost, w.newIds)) =
          s.ensemble.workers.map fun w => (w.bounds, w.cost, w.newIds) := by
  have hp : 0 < S.pes := ha.pes_pos
  obtain ⟨H, h, ho, rfl⟩ := reflects_of_finished ha hl hs he
  have hf : S.Finishes := h.history.finishes ho hp
  refine ⟨not_endless ha hl, fun t ht hrest => ?_⟩
  obtain ⟨H', h'⟩ := hf.reflects ha hl ht
  have ho' : S.Over H' := h'.over hrest
  refine ⟨?_, ?_, ?_, ?_⟩
  · rw [h'.ending, if_pos ho']
  · rw [sortedUnits_of_over hp h' ho', sortedUnits_of_over hp h ho]
  · rw [collected_bounds_of_over h' ho', collected_bounds_of_over h ho]
  · rw [workers_of_over h' ho', workers_of_over h ho]

theorem pair_finishes_alike_in_every_order :
    ∃ n s, pair.launch = .ok n ∧ n.Reaches s ∧ s.ending = some (.ok pair.report) ∧
      ¬ n.Endless ∧ ∀ t, n.Reaches t → t.AtRest →
        t.ending = some (.ok pair.report) ∧
          t.collector.sortedUnits = s.collector.sortedUnits ∧
          t.collector.bounds = s.collector.bounds ∧
          t.ensemble.workers.map (fun w => (w.bounds, w.cost, w.newIds)) =
            s.ensemble.workers.map fun w => (w.bounds, w.cost, w.newIds) := by
  obtain ⟨n, s, hl, hs, he⟩ := finishes_pair.exists_finished admissible_pair
  exact ⟨n, s, hl, hs, he, finishes_alike_in_every_order admissible_pair hl hs he⟩

end Scenario
end MeshDecomp
