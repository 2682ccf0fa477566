import MeshDecomp.Network.Simulation
import MeshDecomp.Proofs.Collected
import MeshDecomp.Proofs.Losses
import MeshDecomp.Proofs.Words

/-!
Simulations that write out every message. What is written out is read back as it was, so a
simulation is one order of deliveries.
-/

namespace MeshDecomp

/-- Anything that one rank of an ensemble is asked leads to actions, not to a report. -/
theorem Ensemble.report_onWorker {e : Ensemble} {rank : Nat} {r : Response}
    {call : Worker → Outcome Worker (Failure RunError) (List Action)}
    (h : (e.onWorker rank call).result = .ok r) : r.report? = none := by
  unfold onWorker at h
  split at h
  · cases h
  · next w _ =>
    simp only [Outcome.mapState, Outcome.map] at h
    cases hc : (call w).result with
    | error e =>
      rw [hc] at h
      cases h
    | ok as =>
      rw [hc] at h
      cases h
      rfl

namespace Simulation

/-- A simulation and a network after the same deliveries. -/
structure Mirrors (s : Simulation) (n : Network) : Prop where
  ensemble : s.ensemble = n.ensemble
  pool : s.pool = n.pool.map Parcel.pack
  delivered : s.delivered = n.delivered
  collector : s.collector = n.collector

namespace Mirrors

variable {s t : Simulation} {n : Network} {o : Ensemble.Result Response} {report : Option Report}
  {r : Report} {draw : Nat → Nat} {ranks : List Nat}

theorem absorb (h : s.Mirrors n) (ht : s.absorb o = .ok t report) :
    t.Mirrors (n.absorb o) ∧ (n.absorb o).ending = report.map .ok ∧
      ∃ r, o.result = .ok r ∧ r.report? = report := by
  unfold Simulation.absorb at ht
  unfold Network.absorb
  cases ho : o.result with
  | error e =>
    rw [ho] at ht
    cases ht
  | ok r =>
    rw [ho] at ht
    cases ht
    refine ⟨⟨rfl, ?_, h.delivered, ?_⟩, rfl, r, rfl, rfl⟩
    · rw [h.pool, ← List.map_append]
    · rw [h.collector]

theorem start {rank : Nat} (h : s.Mirrors n) (he : n.ending = none)
    (ht : s.absorb (s.ensemble.start rank) = .ok t report) :
    t.Mirrors (n.start rank) ∧ (n.start rank).ending = none := by
  have hstart : n.start rank = n.absorb (s.ensemble.start rank) := by
    rw [Network.start, he, if_neg (by simp), h.ensemble]
  obtain ⟨hm, hend, r, hr, rfl⟩ := h.absorb ht
  rw [hstart]
  refine ⟨hm, hend.trans ?_⟩
  rw [Ensemble.report_onWorker hr]
  rfl

theorem startAll (h : s.Mirrors n) (he : n.ending = none) (ht : s.startAll ranks = .ok t ()) :
    t.Mirrors (ranks.foldl Network.start n) ∧ (ranks.foldl Network.start n).ending = none := by
  induction ranks generalizing s n with
  | nil =>
    cases ht
    exact ⟨h, he⟩
  | cons rank ranks ih =>
    unfold Simulation.startAll at ht
    generalize hs : s.absorb (s.ensemble.start rank) = o at ht
    obtain ⟨s', _ | report⟩ := o
    · cases ht
    · obtain ⟨hm, hend⟩ := h.start he hs
      exact ih hm hend ht

/-- A simulation that goes on to a report delivers messages of the network up to this report, if
what was written out can be read. -/
theorem deliverDrawn {limit : Nat} (h : s.Mirrors n) (he : n.ending = none)
    (hread : ∀ k, n.Reaches k → k.ending = none → ∀ p ∈ k.pool, Parcel.unpack p.pack = .ok p)
    (ht : s.deliverDrawn draw limit = .ok t r) :
    ∃ k, n.Reaches k ∧ k.ending = some (.ok r) ∧ t.Mirrors k := by
  induction limit generalizing s n with
  | zero => cases ht
  | succ limit ih =>
    unfold Simulation.deliverDrawn at ht
    dsimp only at ht
    generalize draw s.delivered % s.pool.length = i at ht
    cases hi : s.pool[i]? with
    | none =>
      rw [hi] at ht
      cases ht
    | some packet =>
      obtain ⟨p, hp, rfl⟩ : ∃ p, n.pool[i]? = some p ∧ p.pack = packet := by
        simpa [h.pool] using hi
      have hunpack := hread n .refl he p (List.mem_of_getElem? hp)
      rw [hi] at ht
      simp only [hunpack] at ht
      have hdeliver := Network.deliver_eq_some he hp
      have hmirror : Mirrors { s with pool := s.pool.eraseIdx i, delivered := s.delivered + 1 }
          { n with pool := n.pool.eraseIdx i, delivered := n.delivered + 1 } := by
        refine ⟨h.ensemble, ?_, by simp only [h.delivered], h.collector⟩
        simp only [h.pool, List.eraseIdx_map]
      generalize hs : Simulation.absorb _ _ = o at ht
      obtain ⟨s', _ | report⟩ := o
      · cases ht
      · obtain ⟨hm, hend, -⟩ := hmirror.absorb hs
        rw [h.ensemble] at hm hend
        have hstep : n.Reaches _ := .deliver i .refl hdeliver
        cases report with
        | some r' =>
          cases ht
          exact ⟨_, hstep, hend, hm⟩
        | none =>
          obtain ⟨k, hk, hkr, hkm⟩ := ih hm hend (fun k hk => hread k (hstep.trans hk)) ht
          exact ⟨k, hstep.trans hk, hkr, hkm⟩

end Mirrors
end Simulation

namespace Scenario

variable {S : Scenario} {sim t : Simulation} {r : Report} {draw : Nat → Nat} {n k : Network}

/-- Everything that is on its way can be read. -/
theorem Sized.unpack_of_reaches (hz : S.Sized) (ha : S.Admissible) (hl : S.launch = .ok n)
    (hr : n.Reaches k) (he : k.ending = none) : ∀ p ∈ k.pool, Parcel.unpack p.pack = .ok p := by
  intro p hp
  rcases reaches_cases ha hl hr with ⟨H, h⟩ | ⟨H, m, e, h⟩
  · obtain ⟨flight, hpool, -, hflight⟩ := h.pool
    rw [hpool] at hp
    obtain ⟨m, hm, rfl⟩ := List.mem_map.1 hp
    exact hz.unpack_pack ha.pes_lt ((hflight m).1 hm).1.1
  · have hend := h.ending
    rw [he] at hend
    cases hend

/-- A simulation that finishes has the report of the scenario, and what the ranks hand out. -/
theorem finishes_of_simulation (ha : S.Admissible) (hz : S.Sized)
    (hc : Simulation.create S.mesh.reader S.pes S.settings = .ok sim)
    (hr : (sim.withPartitioner S.partitioner).runDrawn draw = .ok t r) :
    S.Finishes ∧ r = S.report ∧ ∃ ranks : List Nat, ranks.Perm (List.range S.pes) ∧
      t.collector = ranks.foldl S.handOut {} := by
  have hl := launch_eq ha
  have hcreate := create_eq ha
  obtain ⟨e, he, rfl⟩ : ∃ e, Ensemble.create S.mesh.reader S.pes S.settings = .ok e ∧
      sim = { ensemble := e } := by
    unfold Simulation.create at hc
    cases he : Ensemble.create S.mesh.reader S.pes S.settings with
    | error e =>
      rw [he] at hc
      cases hc
    | ok e =>
      rw [he] at hc
      exact ⟨e, rfl, (Except.ok.inj hc).symm⟩
  have hens : e.withPartitioner S.partitioner = S.starting 0 := by
    rw [he] at hcreate
    exact Except.ok.inj hcreate
  have hpes : (S.starting 0).pes = S.pes := by
    simp only [Ensemble.pes, starting, List.length_map, List.length_range]
  have hmirror : Simulation.Mirrors { ensemble := S.starting 0 } { ensemble := S.starting 0 } :=
    ⟨rfl, rfl, rfl, rfl⟩
  unfold Simulation.runDrawn Simulation.withPartitioner at hr
  simp only [hens, hpes] at hr
  generalize hs : Simulation.startAll _ _ = o at hr
  obtain ⟨s, _ | ⟨⟩⟩ := o
  · cases hr
  · obtain ⟨hm, hend⟩ := hmirror.startAll rfl hs
    rw [foldl_start ha (Nat.le_refl _), starting_pes] at hm hend
    obtain ⟨k, hk, hkr, hkm⟩ := hm.deliverDrawn hend
      (fun k hk => hz.unpack_of_reaches ha hl hk) hr
    obtain ⟨H, h, ho, hrep⟩ := reflects_of_finished ha hl hk hkr
    obtain ⟨ranks, hranks, hcollector⟩ := h.collector
    rw [settledRanks_of_over h.history ho] at hranks
    exact ⟨h.history.finishes ho ha.pes_pos, hrep, ranks, hranks, hkm.collector.trans hcollector⟩

end Scenario
end MeshDecomp
