import MeshDecomp.Proofs.Agreement
import MeshDecomp.Proofs.Loopback
import MeshDecomp.Proofs.Simulations

/-!
Ranks that run on their own, in any interleaving, do what a simulation does: they return its report
and create what it creates.
-/

namespace MeshDecomp

namespace Scenario

/-- What every rank starts from when all of them read the mesh. -/
def job (S : Scenario) : Job := ⟨S.mesh.reader, S.settings, S.partitioner⟩

/-- All ranks can start, and the partitioner answers. -/
def plan (S : Scenario) : Plan S.job S where
  slice := S.elementSlice
  host := S.host
  fault := fun _ => none
  refusal := none

variable {S : Scenario} {pe q : Nat} {e : RunError} {L : Ledger} {sim t : Simulation}
  {draw : Nat → Nat} {r : Report}

theorem contribution_plan (k : Contribution.Kind) :
    S.plan.contribution pe k = S.contribution pe k := by
  cases k <;> rfl

theorem parcel_plan (m : Letter) : S.plan.parcel m = S.parcel m := by
  cases m with
  | contribution k pe => cases k <;> rfl
  | _ => rfl

theorem Finishes.not_raises (hf : S.Finishes) : ¬ S.plan.Raises e := by
  rintro (⟨pe, -, hfault⟩ | ⟨H, m, hs, hfail⟩)
  · cases hfault
  · cases hfail with
    | refusal _ hr => cases hr
    | letter _ hfail => exact hf.not_fails hs hfail

theorem Finishes.holds (hf : S.Finishes) (ha : S.Admissible) (hz : S.Sized) : S.plan.Holds where
  pes_pos := ha.pes_pos
  pes_lt := ha.pes_lt
  valid := ha.valid
  start := fun _ hpe _ => start_fresh ha.complete hpe
  start_fault := fun _ _ _ h => by cases h
  host_nil := host_nil ha.pes_pos
  host_concat := fun _ _ _ hr => host_concat_of_receiver hr
  contribute := fun H k pe h hs hn _ => by
    rw [contribution_plan]
    exact contribute_host ha h hs hn fun _ => hf.answered
  contribute_refusal := fun _ _ _ _ _ _ _ _ _ hr => by cases hr
  refusal_iff := iff_of_true rfl hf.answered
  inWords := fun m hm _ _ => by
    rw [parcel_plan]
    exact hz.inWords_parcel ha.pes_lt hm
  inWords_abort := fun _ he => absurd he hf.not_raises
  genuine := fun _ he => absurd he hf.not_raises

/-- Where nobody has a turn, every rank has returned what it created. -/
theorem Finishes.ended (hf : S.Finishes) (ha : S.Admissible) (hz : S.Sized) (h : S.plan.Sound L)
    (hb : (S.plan.universeOf L).isBlocked S.job = true) (hpe : pe < S.pes) :
    (S.plan.universeOf L).Ended pe
      ⟨.ok (if pe = Rank.hostRank then some S.report else none), S.handOut {} pe⟩ := by
  have hv := hf.holds ha hz
  obtain ⟨r, hr⟩ := h.returned_of_blocked hv hb hpe
  rcases h.cases_of_returned hv hpe hr with ⟨-, rfl⟩ | ⟨-, -, -, q, hq, e', hfail, -⟩
  · exact Plan.ended_universeOf.2 ⟨hpe, hr⟩
  · exact absurd (h.raises hq hfail) hf.not_raises

/-! ### A rank alone -/

theorem isBlocked_alone {job : Job} {p : Progress}
    (h : p.turn job (.mailbox 1 0) (Mailboxes.empty 1) = none) :
    (Universe.mk [p] (.empty 1)).isBlocked job = true := by
  have hturn : (Universe.mk [p] (.empty 1)).turn job 0 = none := by
    simp [Universe.turn, h]
  unfold Universe.isBlocked
  simp [hturn]

/-- A rank alone that has not returned has something of its own to do. -/
theorem Finishes.own_ne_nil (hf : S.Finishes) (ha : S.Admissible) (hz : S.Sized) (h1 : S.pes = 1)
    (h : S.plan.Sound L) {r : Rank} (hu : S.plan.universeOf L = ⟨[.live r], .empty 1⟩) :
    r.own ≠ [] := by
  intro hown
  have hb : (S.plan.universeOf L).isBlocked S.job = true := by
    rw [hu]
    apply isBlocked_alone
    unfold Progress.turn
    dsimp only
    rw [hown]
    rfl
  have h0 : 0 < S.pes := h1 ▸ Nat.zero_lt_one
  have hended := hf.ended ha hz h hb h0
  rw [Universe.Ended, hu] at hended
  cases hended

/-- A rank alone goes the way of one that has mailboxes. -/
theorem Finishes.run_loopback (hf : S.Finishes) (ha : S.Admissible) (hz : S.Sized)
    (h1 : S.pes = 1) (limit : Nat) {p : Progress} (h : S.plan.Sound L)
    (hu : S.plan.universeOf L = ⟨[p], .empty 1⟩) :
    ∃ p' L', Progress.run S.job .loopback limit p [] = (p', []) ∧ S.plan.Sound L' ∧
      S.plan.universeOf L' = ⟨[p'], .empty 1⟩ ∧
      (L.advanced 1 + limit ≤ L'.advanced 1 ∨ ∃ r, p' = .returned r) := by
  induction limit generalizing p L with
  | zero => exact ⟨p, L, rfl, h, hu, .inl (Nat.le_refl _)⟩
  | succ limit ih =>
    by_cases hr : ∃ r, p = .returned r
    · obtain ⟨r, rfl⟩ := hr
      exact ⟨_, L, rfl, h, hu, .inr ⟨r, rfl⟩⟩
    · obtain ⟨p₁, hl, hm⟩ : ∃ p₁, p.turn S.job .loopback [] = some (p₁, []) ∧
          p.turn S.job (.mailbox 1 0) (Mailboxes.empty 1) = some (p₁, .empty 1) :=
        Progress.turn_alike Link.twins_loopback (fun r hp => hr ⟨r, hp⟩) fun r hp =>
          hf.own_ne_nil ha hz h1 h (hp ▸ hu)
      have hturn : (S.plan.universeOf L).turn S.job 0 = some ⟨[p₁], .empty 1⟩ := by
        rw [hu]
        simp [Universe.turn, hm]
      obtain ⟨L₁, h₁, hlt, hu₁⟩ := h.turn (hf.holds ha hz) hturn
      rw [h1] at hlt
      obtain ⟨p', L', hrun, h', hu', hfar⟩ := ih h₁ hu₁
      refine ⟨p', L', ?_, h', hu', hfar.imp_left fun hle => by omega⟩
      rw [Progress.run, hl]
      exact hrun

/-- A rank alone sends itself twelve letters. -/
theorem length_letters_alone (h1 : S.pes = 1) : S.letters.length = 12 := by
  have hexports : (S.exports 0).size = 0 := by
    rw [← IdMap.length_keys, List.length_eq_zero_iff, List.eq_nil_iff_forall_not_mem]
    intro q hq
    have hlt := lt_of_mem_keys_exports (h1 ▸ Nat.zero_lt_one) hq
    exact (mem_keys_exports.1 hq).1 (by omega)
  have hasked : (S.asked 0).size = 0 := by
    rw [← IdMap.length_keys, List.length_eq_zero_iff, List.eq_nil_iff_forall_not_mem]
    intro q hq
    exact Nat.not_lt_zero q (lt_of_mem_keys_asked (h1 ▸ Nat.zero_lt_one) hq)
  rw [length_letters (h1 ▸ Nat.zero_lt_one), h1]
  simp [hexports, hasked]

theorem Finishes.runAlone_eq (hf : S.Finishes) (ha : S.Admissible) (hz : S.Sized)
    (h1 : S.pes = 1) :
    Progress.runAlone S.job = .returned ⟨.ok (some S.report), S.handOut {} 0⟩ ∧
      ∀ limit r, (Progress.run S.job .loopback limit .fresh []).1 = .live r → r.own ≠ [] := by
  have hv := hf.holds ha hz
  have h0 : 0 < S.pes := ha.pes_pos
  have hstart : S.plan.universeOf {} = ⟨[.fresh], .empty 1⟩ := by
    have hcreate := Plan.create_universe hv
    rw [h1] at hcreate
    exact (Except.ok.inj hcreate).symm
  constructor
  · obtain ⟨p, L, hrun, h, hu, hfar⟩ :=
      hf.run_loopback ha hz h1 Progress.ownLimit (Plan.sound_nil hv) hstart
    -- The run is over after fewer turns than the limit allows.
    have hle := h.advanced_le
    rw [length_letters_alone h1, h1] at hle
    obtain ⟨r, rfl⟩ := hfar.resolve_left fun hlt => by
      unfold Progress.ownLimit at hlt
      omega
    have hb : (S.plan.universeOf L).isBlocked S.job = true := by
      rw [hu]
      exact isBlocked_alone rfl
    have hended := hf.ended ha hz h hb h0
    rw [Universe.Ended, hu] at hended
    unfold Progress.runAlone
    rw [hrun]
    exact Option.some.inj hended
  · intro limit r hr
    obtain ⟨p, L, hrun, h, hu, -⟩ := hf.run_loopback ha hz h1 limit (Plan.sound_nil hv) hstart
    rw [hrun] at hr
    obtain rfl : p = .live r := hr
    exact hf.own_ne_nil ha hz h1 h hu

/-! ### What ranks create -/

theorem pe_of_mem_unitsOf {u : WorkUnit} (hpe : pe < S.pes) (hu : u ∈ S.unitsOf pe) :
    u.pe = pe := by
  obtain ⟨unit, hunit, rfl⟩ := List.mem_map.1 hu
  exact owner_of_mem_span hpe (Span.mem_toList.1 hunit)

/-- Of what some ranks create, the part of one rank is what this one creates. -/
theorem filter_unitsOf {ranks : List Nat} (hnd : ranks.Nodup) (hlt : ∀ q ∈ ranks, q < S.pes)
    (hpe : pe ∈ ranks) :
    (ranks.flatMap S.unitsOf).filter (·.pe = pe) = S.unitsOf pe := by
  have hpart : ∀ q < S.pes, (S.unitsOf q).filter (·.pe = pe) =
      if q = pe then S.unitsOf q else [] := by
    intro q hq
    split
    · next h =>
      refine List.filter_eq_self.2 fun u hu => decide_eq_true ?_
      exact (pe_of_mem_unitsOf hq hu).trans h
    · next h =>
      refine List.filter_eq_nil_iff.2 fun u hu => ?_
      rw [decide_eq_true_eq, pe_of_mem_unitsOf hq hu]
      exact h
  induction ranks with
  | nil => cases hpe
  | cons q ranks ih =>
    obtain ⟨hq, hnd⟩ := List.nodup_cons.1 hnd
    obtain ⟨hlq, hlt⟩ := List.forall_mem_cons.1 hlt
    rw [List.flatMap_cons, List.filter_append, hpart q hlq]
    by_cases h : q = pe
    · subst h
      have hrest : (ranks.flatMap S.unitsOf).filter (·.pe = q) = [] := by
        refine List.filter_eq_nil_iff.2 fun u hu => ?_
        obtain ⟨p, hp, hu⟩ := List.mem_flatMap.1 hu
        rw [decide_eq_true_eq, pe_of_mem_unitsOf (hlt p hp) hu]
        rintro rfl
        exact hq hp
      rw [if_pos rfl, hrest, List.append_nil]
    · rw [if_neg h, List.nil_append]
      exact ih hnd hlt ((List.mem_cons.1 hpe).resolve_left (Ne.symm h))

end Scenario

/-- What the ranks that returned created, each on its own. -/
def Universe.collectors (u : Universe) : List Collector :=
  u.ranks.filterMap fun p => match p with
    | .returned r => some r.collector
    | _ => none

/-- A collector holds the work units and the bounds of one rank, and nothing else. -/
structure Collector.Holds (c : Collector) (pe : Nat) (units : List WorkUnit) (b : Span) :
    Prop where
  units : c.units = units
  bounds : ∀ q, c.bounds.get? q = if q = pe then some b else none

/-- All ranks returned: the host's rank with the report, and each with its own work units and
bounds, which are its part of what one collector holds. -/
structure Universe.Shares (u : Universe) (report : Report) (c : Collector)
    (unitsOf : Nat → List WorkUnit) (boundsOf : Nat → Span) : Prop where
  ended : ∀ pe < u.ranks.length, ∃ own,
    u.Ended pe ⟨.ok (if pe = Rank.hostRank then some report else none), own⟩ ∧
      own.Holds pe (unitsOf pe) (boundsOf pe) ∧
      own.units = c.units.filter (·.pe = pe) ∧
      ∀ q, own.bounds.get? q = if q = pe then c.bounds.get? pe else none
  units : (u.collectors.flatMap Collector.units).Perm c.units
  bounds : ∀ q b, c.bounds.get? q = some b ↔ ∃ own ∈ u.collectors, own.bounds.get? q = some b

namespace Scenario

variable {S : Scenario} {pe q : Nat} {e : RunError} {L : Ledger} {sim t : Simulation}
  {draw : Nat → Nat} {r : Report} {u v : Universe}

theorem units_handOut_empty (pe : Nat) : (S.handOut {} pe).units = S.unitsOf pe := by
  rw [(handOut_eq {} pe).1]
  rfl

theorem get?_handOut_empty (pe q : Nat) :
    (S.handOut {} pe).bounds.get? q = if q = pe then some (S.bounds pe) else none := by
  rw [(handOut_eq {} pe).2, IdMap.get?_insert]
  rfl

theorem holds_handOut_empty (pe : Nat) :
    (S.handOut {} pe).Holds pe (S.unitsOf pe) (S.bounds pe) :=
  ⟨units_handOut_empty pe, get?_handOut_empty pe⟩

theorem units_handOut_all (ranks : List Nat) :
    (ranks.foldl S.handOut {}).units = ranks.flatMap S.unitsOf := by
  rw [units_foldl_handOut]
  rfl

theorem get?_handOut_all {ranks : List Nat} (h : ranks.Perm (List.range S.pes)) (q : Nat) :
    (ranks.foldl S.handOut {}).bounds.get? q = if q < S.pes then some (S.bounds q) else none := by
  have hmem : ∀ q, q ∈ ranks ↔ q < S.pes := fun q => h.mem_iff.trans List.mem_range
  rw [get?_foldl_handOut]
  simp only [hmem]
  rfl

theorem Finishes.collectors_eq (hf : S.Finishes) (ha : S.Admissible) (hz : S.Sized)
    (h : S.plan.Sound L) (hb : (S.plan.universeOf L).isBlocked S.job = true) :
    (S.plan.universeOf L).collectors = (List.range S.pes).map (S.handOut {}) := by
  unfold Universe.collectors Plan.universeOf
  rw [List.filterMap_map, ← List.filterMap_eq_map]
  refine List.filterMap_congr fun pe hpe => ?_
  have hpe := List.mem_range.1 hpe
  have hended := hf.ended ha hz h hb hpe
  unfold Universe.Ended Plan.universeOf at hended
  rw [List.getElem?_map, List.getElem?_range hpe] at hended
  simp only [Function.comp_apply, Option.some.inj hended]

/-- In whatever order a simulation hands out what its processing elements created, the ranks share
it. -/
theorem Finishes.shares (hf : S.Finishes) (ha : S.Admissible) (hz : S.Sized) (h : S.plan.Sound L)
    (hb : (S.plan.universeOf L).isBlocked S.job = true) {ranks : List Nat}
    (hranks : ranks.Perm (List.range S.pes)) :
    (S.plan.universeOf L).Shares S.report (ranks.foldl S.handOut {}) S.unitsOf S.bounds := by
  have hcollectors := hf.collectors_eq ha hz h hb
  have hlen : (S.plan.universeOf L).ranks.length = S.pes := by simp [Plan.universeOf]
  have hmem : ∀ q, q ∈ ranks ↔ q < S.pes := fun q => hranks.mem_iff.trans List.mem_range
  refine ⟨fun pe hpe => ?_, ?_, fun q b => ?_⟩
  · rw [hlen] at hpe
    refine ⟨_, hf.ended ha hz h hb hpe, holds_handOut_empty pe, ?_, fun q => ?_⟩
    · rw [units_handOut_all, filter_unitsOf (hranks.nodup_iff.2 List.nodup_range)
        (fun q hq => (hmem q).1 hq) ((hmem pe).2 hpe), units_handOut_empty]
    · rw [get?_handOut_empty, get?_handOut_all hranks, if_pos hpe]
  · rw [hcollectors, units_handOut_all, List.flatMap_map]
    simp only [units_handOut_empty]
    exact hranks.symm.flatMap_right _
  · rw [get?_handOut_all hranks, hcollectors]
    simp only [List.mem_map, List.mem_range, exists_exists_and_eq_and, get?_handOut_empty]
    constructor
    · intro hq
      split at hq
      · next hlt => exact ⟨q, hlt, (if_pos rfl).trans hq⟩
      · cases hq
    · rintro ⟨pe, hpe, hq⟩
      split at hq
      · next h =>
        subst h
        rw [if_pos hpe]
        exact hq
      · cases hq

/-- Ranks on their own do what a simulation does that finishes, in whatever order they take their
turns; each creates its own work units and bounds, and together they create what the simulation
does. So does a single rank, which never waits for a message. -/
theorem ranks_refine_simulation (ha : S.Admissible) (hz : S.Sized)
    (hc : Simulation.create S.mesh.reader S.pes S.settings = .ok sim)
    (hr : (sim.withPartitioner S.partitioner).runDrawn draw = .ok t r) :
    (∃ u, Universe.create S.pes = .ok u ∧ ¬ u.Endless S.job ∧
      ∀ v, u.Reaches S.job v → v.isBlocked S.job = true →
        v.ranks.length = S.pes ∧ v.Shares r t.collector S.unitsOf S.bounds) ∧
    (S.pes = 1 → Progress.runAlone S.job = .returned ⟨.ok (some r), t.collector⟩ ∧
      t.collector.Holds 0 (S.unitsOf 0) (S.bounds 0) ∧
      ∀ limit s, (Progress.run S.job .loopback limit .fresh []).1 = .live s → s.own ≠ []) := by
  obtain ⟨hf, rfl, ranks, hranks, hcollector⟩ := finishes_of_simulation ha hz hc hr
  have hv := hf.holds ha hz
  constructor
  · refine ⟨_, Plan.create_universe hv, (Plan.sound_nil hv).not_endless hv, fun v hv' hb => ?_⟩
    obtain ⟨L, h, rfl⟩ := (Plan.sound_nil hv).reaches hv hv'
    refine ⟨by simp [Plan.universeOf], ?_⟩
    rw [hcollector]
    exact hf.shares ha hz h hb hranks
  · intro h1
    rw [h1] at hranks
    obtain rfl : ranks = [0] := List.perm_singleton.1 hranks
    rw [hcollector]
    obtain ⟨hreturned, hown⟩ := hf.runAlone_eq ha hz h1
    exact ⟨hreturned, holds_handOut_empty 0, hown⟩

/-- A run of a simulation that can be evaluated. -/
theorem exists_of_isOk
    (h : (match Simulation.create S.mesh.reader S.pes S.settings with
      | .ok sim => ((sim.withPartitioner S.partitioner).runDrawn draw).result.isOk
      | .error _ => false) = true) :
    ∃ sim t r, Simulation.create S.mesh.reader S.pes S.settings = .ok sim ∧
      (sim.withPartitioner S.partitioner).runDrawn draw = .ok t r := by
  cases hc : Simulation.create S.mesh.reader S.pes S.settings with
  | error e =>
    rw [hc] at h
    cases h
  | ok sim =>
    rw [hc] at h
    dsimp only at h
    generalize ho : (sim.withPartitioner S.partitioner).runDrawn draw = o at h
    obtain ⟨t, e | r⟩ := o
    · cases h
    · exact ⟨sim, t, r, rfl, ho⟩

/-- One tetrahedron for one rank. -/
def solo : Scenario where
  mesh := {
    tets := [⟨10, 11, 12, 13⟩]
    coordinates := .ofList ((List.range' 10 4).map fun x => (x, .origin)) }
  pes := 1
  settings := { algorithm := .elementOrder, units := some 1 }
  partitioner := .elementOrder

theorem admissible_solo : solo.Admissible where
  complete := TetMesh.isComplete_iff.2 rfl
  pes_pos := by decide
  pes_lt := by decide
  valid := by decide
  explicit := by decide

theorem sized_solo : solo.Sized where
  inMemory := by
    unfold TetMesh.InMemory
    decide
  nodes := by
    unfold Wire.InWords
    decide
  units := by decide
  assignment := by
    unfold Wire.InWords
    decide

theorem pair_and_solo_refine_simulation :
    (∃ sim t r, Simulation.create pair.mesh.reader pair.pes pair.settings = .ok sim ∧
      (sim.withPartitioner pair.partitioner).runDrawn (fun k => k) = .ok t r ∧
      ∃ u, Universe.create pair.pes = .ok u ∧ ¬ u.Endless pair.job ∧
        ∀ v, u.Reaches pair.job v → v.isBlocked pair.job = true →
          v.ranks.length = pair.pes ∧ v.Shares r t.collector pair.unitsOf pair.bounds) ∧
    ∃ sim t r, Simulation.create solo.mesh.reader solo.pes solo.settings = .ok sim ∧
      (sim.withPartitioner solo.partitioner).runDrawn (fun _ => 0) = .ok t r ∧
      Progress.runAlone solo.job = .returned ⟨.ok (some r), t.collector⟩ ∧
      t.collector.Holds 0 (solo.unitsOf 0) (solo.bounds 0) ∧
      ∀ limit s, (Progress.run solo.job .loopback limit .fresh []).1 = .live s → s.own ≠ [] := by
  constructor
  · obtain ⟨sim, t, r, hc, hr⟩ : ∃ sim t r,
        Simulation.create pair.mesh.reader pair.pes pair.settings = .ok sim ∧
          (sim.withPartitioner pair.partitioner).runDrawn (fun k => k) = .ok t r :=
      exists_of_isOk (by decide +kernel)
    exact ⟨sim, t, r, hc, hr, (ranks_refine_simulation admissible_pair sized_pair hc hr).1⟩
  · obtain ⟨sim, t, r, hc, hr⟩ : ∃ sim t r,
        Simulation.create solo.mesh.reader solo.pes solo.settings = .ok sim ∧
          (sim.withPartitioner solo.partitioner).runDrawn (fun _ => 0) = .ok t r :=
      exists_of_isOk (by decide +kernel)
    exact ⟨sim, t, r, hc, hr, (ranks_refine_simulation admissible_solo sized_solo hc hr).2 rfl⟩

end Scenario
end MeshDecomp
