import MeshDecomp.Proofs.Runs

/-! What a finished run has handed out, whatever the order in which ranks settled their bounds. -/
namespace MeshDecomp
namespace Scenario

variable {S : Scenario} {pe : Nat}

theorem foldl_instantiate (us : List WorkUnit) (c : Collector) :
    ((us.map .instantiate).foldl Action.collect c).units = c.units ++ us ∧
      ((us.map .instantiate).foldl Action.collect c).bounds = c.bounds := by
  induction us generalizing c with
  | nil => simp
  | cons u us ih =>
    obtain ⟨hu, hb⟩ := ih (c.addUnit u)
    rw [List.map_cons, List.foldl_cons]
    refine ⟨hu.trans ?_, hb⟩
    rw [Collector.units_addUnit, List.append_assoc, List.singleton_append]

theorem handOut_eq (c : Collector) (pe : Nat) :
    (S.handOut c pe).units = c.units ++ S.unitsOf pe ∧
      (S.handOut c pe).bounds = c.bounds.insert pe (S.bounds pe) := by
  obtain ⟨hu, hb⟩ := foldl_instantiate (S.unitsOf pe) c
  have hlower : ∀ c : Collector,
      (if pe + 1 = S.pes then [] else [Action.send (pe + 1) (.lower (S.upper pe))]).foldl
        Action.collect c = c := by
    intro c
    split <;> rfl
  unfold handOut outcome
  rw [List.foldl_append, hlower, List.foldl_append, List.foldl_append]
  exact ⟨hu, congrArg (fun m => IdMap.insert m pe (S.bounds pe)) hb⟩

theorem units_foldl_handOut (ranks : List Nat) (c : Collector) :
    (ranks.foldl S.handOut c).units = c.units ++ ranks.flatMap S.unitsOf := by
  induction ranks generalizing c with
  | nil => simp
  | cons pe ranks ih =>
    rw [List.foldl_cons, ih, (handOut_eq c pe).1, List.flatMap_cons, List.append_assoc]

theorem get?_foldl_handOut (ranks : List Nat) (c : Collector) (pe : Nat) :
    (ranks.foldl S.handOut c).bounds.get? pe =
      if pe ∈ ranks then some (S.bounds pe) else c.bounds.get? pe := by
  induction ranks generalizing c with
  | nil => simp
  | cons q ranks ih =>
    rw [List.foldl_cons, ih, (handOut_eq c q).2, IdMap.get?_insert]
    by_cases hq : pe = q
    · subst hq
      simp
    · simp [hq]

/-- The work units of all ranks in rank order are all work units by id. -/
theorem flatMap_unitsOf (hp : 0 < S.pes) :
    (List.range S.pes).flatMap S.unitsOf = (List.range S.units).map S.unit := by
  have hslices := Block.flatMap_slices (List.range S.units) S.pes (Nat.le_refl _) hp
  rw [Block.mark_self, List.take_length, List.length_range] at hslices
  conv_rhs => rw [← hslices]
  rw [List.map_flatMap]
  apply List.flatMap_congr
  intro pe hpe
  have hstop : (Block.span S.units S.pes pe).stop ≤ S.units :=
    Block.stop_span_le (List.mem_range.1 hpe)
  have hsize : (Block.span S.units S.pes pe).size ≤
      S.units - (Block.span S.units S.pes pe).first := Nat.sub_le_sub_right hstop _
  unfold unitsOf
  rw [Span.toList, List.range_eq_range', List.drop_range', Nat.zero_add, Nat.mul_one,
    List.take_range'_of_length_ge hsize]

theorem settledRanks_of_over {H : List Letter} (h : S.History H) (ho : S.Over H) :
    S.settledRanks H = List.range S.pes := by
  apply List.filter_eq_self.2
  intro pe hpe
  exact decide_eq_true (h.settled_of_over ho (List.mem_range.1 hpe))

variable {H : List Letter} {s : Network}

theorem units_of_over (hp : 0 < S.pes) (h : S.Reflects H s) (ho : S.Over H) :
    s.collector.units.Perm ((List.range S.units).map S.unit) := by
  obtain ⟨ranks, hranks, hcollector⟩ := h.collector
  rw [settledRanks_of_over h.history ho] at hranks
  rw [hcollector, units_foldl_handOut, ← flatMap_unitsOf hp]
  exact hranks.flatMap_right _

theorem mem_units_of_over {u : WorkUnit} (hp : 0 < S.pes) (h : S.Reflects H s) (ho : S.Over H) :
    u ∈ s.collector.units ↔ ∃ unit < S.units, S.unit unit = u := by
  simp only [(units_of_over hp h ho).mem_iff, List.mem_map, List.mem_range]

theorem collected_bounds_of_over (h : S.Reflects H s) (ho : S.Over H) :
    s.collector.bounds = .ofList ((List.range S.pes).map fun pe => (pe, S.bounds pe)) := by
  obtain ⟨ranks, hranks, hcollector⟩ := h.collector
  rw [settledRanks_of_over h.history ho] at hranks
  apply IdMap.ext
  intro pe
  rw [hcollector, get?_foldl_handOut, IdMap.get?_ofList_map]
  simp only [hranks.mem_iff]
  rfl

/-- Work units are told apart by their ids, so sorting brings them into one order. -/
theorem sortedUnits_of_over (hp : 0 < S.pes) (h : S.Reflects H s) (ho : S.Over H) :
    s.collector.sortedUnits = (List.range S.units).map S.unit := by
  have hperm : s.collector.sortedUnits.Perm ((List.range S.units).map S.unit) :=
    (List.mergeSort_perm _ _).trans (units_of_over hp h ho)
  have hid : ∀ u ∈ (List.range S.units).map S.unit, S.unit u.id = u := by
    intro u hu
    obtain ⟨id, -, rfl⟩ := List.mem_map.1 hu
    rfl
  have hsorted : s.collector.sortedUnits.Pairwise fun u v => u.id ≤ v.id := by
    have htrans : ∀ u v w : WorkUnit, decide (u.id ≤ v.id) → decide (v.id ≤ w.id) →
        decide (u.id ≤ w.id) := by
      intro u v w
      simp only [decide_eq_true_eq]
      exact Nat.le_trans
    have htotal : ∀ u v : WorkUnit, decide (u.id ≤ v.id) || decide (v.id ≤ u.id) := by
      intro u v
      simp only [Bool.or_eq_true, decide_eq_true_eq]
      exact Nat.le_total u.id v.id
    exact (List.pairwise_mergeSort htrans htotal s.collector.units).imp of_decide_eq_true
  have hrange : ((List.range S.units).map S.unit).Pairwise fun u v => u.id ≤ v.id :=
    List.pairwise_map.2 (List.pairwise_lt_range.imp Nat.le_of_lt)
  refine hperm.eq_of_pairwise (fun u v hu hv huv hvu => ?_) hsorted hrange
  rw [← hid u (hperm.mem_iff.1 hu), ← hid v hv, Nat.le_antisymm huv hvu]

end Scenario
end MeshDecomp
