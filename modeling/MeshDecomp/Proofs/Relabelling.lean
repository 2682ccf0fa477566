import MeshDecomp.Proofs.Decisions
import MeshDecomp.Proofs.OrderOnly
import Mathlib.Data.Set.Monotone

/-!
A mesh whose nodes get other ids in the same order. Everything that a run computes stays the same,
up to the old ids in its work units.
-/

namespace MeshDecomp

variable {f : Nat → Nat} {x : Nat}

theorem ascending_map {l : List Nat} (hf : StrictMonoOn f {x | x ∈ l}) :
    ascending (l.map f) = (ascending l).map f := by
  refine eq_of_ascending (pairwise_ascending _) ?_ fun y => by simp
  refine List.pairwise_map.2 ((pairwise_ascending l).imp_of_mem fun hx hy hxy => ?_)
  exact hf (mem_ascending.1 hx) (mem_ascending.1 hy) hxy

/-- A work unit whose nodes had other ids. -/
def WorkUnit.relabel (f : Nat → Nat) (u : WorkUnit) : WorkUnit :=
  { u with oldIds := u.oldIds.mapValues f }

namespace TetMesh

variable {m : TetMesh}

theorem size_relabel (f : Nat → Nat) (m : TetMesh) : (m.relabel f).size = m.size :=
  List.length_map _

theorem connectivity_relabel (f : Nat → Nat) (m : TetMesh) :
    (m.relabel f).connectivity = m.connectivity.map f := by
  unfold connectivity relabel Tet.flatten
  rw [List.flatMap_map, List.map_flatMap]
  rfl

theorem IsComplete.mem_keys (hm : m.IsComplete) {t : Tet} (ht : t ∈ m.tets) (hx : x ∈ t.nodes) :
    x ∈ m.coordinates.keys :=
  IdMap.mem_keys_iff.2 (hm t ht x hx)

theorem IsComplete.mem_keys_of_connectivity (hm : m.IsComplete) (hx : x ∈ m.connectivity) :
    x ∈ m.coordinates.keys := by
  obtain ⟨t, ht, hx⟩ := List.mem_flatMap.1 hx
  exact hm.mem_keys ht hx

section Increasing

variable (hf : StrictMonoOn f {x | x ∈ m.coordinates.keys})

include hf

/-- The coordinates go with the nodes. -/
theorem get?_relabel (hx : x ∈ m.coordinates.keys) :
    (m.relabel f).coordinates.get? (f x) = m.coordinates.get? x := by
  obtain ⟨p, hp⟩ := IdMap.mem_keys_iff.1 hx
  have hnodup : ((m.coordinates.entries.map fun e => (f e.1, e.2)).map Prod.fst).Nodup := by
    rw [List.map_map]
    have hkeys := (IdMap.nodup_keys m.coordinates).map_on fun x hx y hy => hf.injOn hx hy
    rwa [IdMap.keys, List.map_map] at hkeys
  rw [hp]
  exact (IdMap.get?_ofList_eq_some_iff hnodup).2
    (List.mem_map.2 ⟨(x, p), IdMap.mem_entries_iff.2 hp, rfl⟩)

theorem centroid_relabel (hm : m.IsComplete) {t : Tet} (ht : t ∈ m.tets) :
    (m.relabel f).centroid (t.map f) = m.centroid t := by
  have hpoints : (t.map f).nodes.map (fun x => ((m.relabel f).coordinates.get? x).getD .origin) =
      t.nodes.map fun x => (m.coordinates.get? x).getD .origin := by
    have hnodes : (t.map f).nodes = t.nodes.map f := rfl
    rw [hnodes, List.map_map]
    apply List.map_congr_left
    intro x hx
    rw [Function.comp_apply, get?_relabel hf (hm.mem_keys ht hx)]
  rw [centroid, centroid, hpoints]

theorem input_relabel (hm : m.IsComplete) (geometric : Bool) :
    (m.relabel f).input geometric = (m.input geometric).map f := by
  have hcentroids : (m.relabel f).tets.map (m.relabel f).centroid = m.tets.map m.centroid := by
    have htets : (m.relabel f).tets = m.tets.map (Tet.map f) := rfl
    rw [htets, List.map_map]
    exact List.map_congr_left fun t ht => centroid_relabel hf hm ht
  unfold input PartitionInput.map
  rw [connectivity_relabel, hcentroids, size_relabel]

end Increasing

end TetMesh

namespace Scenario

variable {S : Scenario} {pe u : Nat}

def relabel (f : Nat → Nat) (S : Scenario) : Scenario := { S with mesh := S.mesh.relabel f }

theorem size_mesh_relabel (f : Nat → Nat) (S : Scenario) :
    (S.relabel f).mesh.size = S.mesh.size :=
  TetMesh.size_relabel f S.mesh

/-- New ids that nobody can tell from the old ones: they are in the same order. -/
structure Renaming (S : Scenario) (f : Nat → Nat) : Prop where
  complete : S.mesh.IsComplete
  increasing : StrictMonoOn f {x | x ∈ S.mesh.coordinates.keys}
  orderOnly : S.partitioner.OrderOnly

theorem Launchable.relabel (hs : S.Launchable) (f : Nat → Nat) : (S.relabel f).Launchable :=
  ⟨hs.complete.relabel f, hs.pes_pos, hs.room, hs.valid⟩

namespace Renaming

/-! ### Elements and work units -/

theorem mem_keys_of_placed (h : S.Renaming f) {e : Tet × Nat} (he : e ∈ S.placed)
    (hx : x ∈ e.1.nodes) : x ∈ S.mesh.coordinates.keys :=
  h.complete.mem_keys (List.of_mem_zip he).1 hx

theorem mem_keys_of_content (h : S.Renaming f) (hx : x ∈ S.content u) :
    x ∈ S.mesh.coordinates.keys := by
  obtain ⟨e, he, -, hx⟩ := mem_content.1 hx
  exact h.mem_keys_of_placed he hx

theorem mem_keys_of_nodes (h : S.Renaming f) (hx : x ∈ S.nodes pe) :
    x ∈ S.mesh.coordinates.keys := by
  obtain ⟨unit, -, hx⟩ := mem_nodes_iff.1 hx
  exact h.mem_keys_of_content hx

theorem mem_keys_of_used (h : S.Renaming f) (hx : x ∈ S.used) : x ∈ S.mesh.coordinates.keys :=
  h.complete.mem_keys_of_connectivity (mem_ascending.1 hx)

/-- The partitioner answers alike. -/
theorem answer (h : S.Renaming f) : (S.relabel f).answer = S.answer := by
  have hassign : (S.relabel f).partitioner.assign
      ((S.relabel f).mesh.input (S.relabel f).partitioner.geometric) (S.relabel f).units =
        S.partitioner.assign (S.mesh.input S.partitioner.geometric) S.units := by
    have hinput := TetMesh.input_relabel h.increasing h.complete S.partitioner.geometric
    refine (congrArg (S.partitioner.assign · S.units) hinput).trans (h.orderOnly f _ _ ?_)
    exact h.increasing.mono fun x hx => h.complete.mem_keys_of_connectivity hx
  unfold Scenario.answer
  rw [hassign, size_mesh_relabel]
  rfl

theorem assignment (h : S.Renaming f) : (S.relabel f).assignment = S.assignment := by
  rw [Scenario.assignment, h.answer]
  rfl

theorem share (h : S.Renaming f) (pe : Nat) : (S.relabel f).share pe = S.share pe := by
  unfold Scenario.share slice span
  rw [h.assignment, size_mesh_relabel]
  rfl

theorem placed (h : S.Renaming f) :
    (S.relabel f).placed = S.placed.map (Prod.map (Tet.map f) id) := by
  rw [Scenario.placed, h.assignment]
  exact List.zip_map_left

theorem nodesOf_map (f : Nat → Nat) (es : List (Tet × Nat)) (u : Nat) :
    nodesOf (es.map (Prod.map (Tet.map f) id)) u = (nodesOf es u).map f := by
  unfold nodesOf
  rw [List.filter_map, List.flatMap_map, List.map_flatMap]
  rfl

theorem content (h : S.Renaming f) (u : Nat) :
    (S.relabel f).content u = (S.content u).map f := by
  rw [Scenario.content, h.placed, nodesOf_map]
  rfl

theorem nodes (h : S.Renaming f) (pe : Nat) : (S.relabel f).nodes pe = (S.nodes pe).map f := by
  have hincreasing : StrictMonoOn f
      {x | x ∈ (S.placed.filter fun e => S.owner e.2 = pe).flatMap fun e => e.1.nodes} := by
    refine h.increasing.mono fun x hx => ?_
    obtain ⟨e, he, hx⟩ := List.mem_flatMap.1 hx
    exact h.mem_keys_of_placed (List.mem_of_mem_filter he) hx
  rw [Scenario.nodes, Scenario.nodes, ← ascending_map hincreasing, h.placed, List.filter_map,
    List.flatMap_map, List.map_flatMap]
  rfl

/-! ### New ids -/

theorem sets (h : S.Renaming f) : (S.relabel f).sets = S.sets.map (List.map f) := by
  have hpes : (S.relabel f).pes = S.pes := rfl
  rw [Scenario.sets, Scenario.sets, List.map_map, hpes]
  exact List.map_congr_left fun pe _ => h.nodes pe

theorem used (h : S.Renaming f) : (S.relabel f).used = S.used.map f := by
  have hincreasing : StrictMonoOn f {x | x ∈ S.mesh.connectivity} :=
    h.increasing.mono fun x hx => h.complete.mem_keys_of_connectivity hx
  rw [Scenario.used, Scenario.used, ← ascending_map hincreasing, ← TetMesh.connectivity_relabel]
  rfl

theorem holder (h : S.Renaming f) (hx : x ∈ S.mesh.coordinates.keys) :
    (S.relabel f).holder (f x) = S.holder x := by
  have hcontains : ∀ set ∈ S.sets, (set.map f).contains (f x) = set.contains x := by
    intro set hset
    obtain ⟨pe, -, rfl⟩ := List.mem_map.1 hset
    rw [Bool.eq_iff_iff, List.contains_iff_mem, List.contains_iff_mem, List.mem_map]
    constructor
    · rintro ⟨y, hy, he⟩
      exact h.increasing.injOn (h.mem_keys_of_nodes hy) hx he ▸ hy
    · exact fun hmem => ⟨x, hmem, rfl⟩
  rw [Scenario.holder, Scenario.holder, Sharing.holder, Sharing.holder, h.sets, List.findIdx_map]
  exact findIdx_congr hcontains

theorem newId (h : S.Renaming f) (hx : x ∈ S.mesh.coordinates.keys) :
    (S.relabel f).newId (f x) = S.newId x := by
  rw [Scenario.newId, Scenario.newId, Sharing.place, Sharing.place, h.used, List.countP_map]
  apply List.countP_congr
  intro y hy
  have hy' := h.mem_keys_of_used hy
  have hlt := h.increasing.lt_iff_lt hy' hx
  have hholders : ∀ z ∈ S.mesh.coordinates.keys,
      Sharing.holder (S.relabel f).sets (f z) = Sharing.holder S.sets z := fun z hz => h.holder hz
  simp only [Function.comp_apply, decide_eq_true_eq, hholders y hy', hholders x hx, hlt]

theorem map_newId (h : S.Renaming f) {l : List Nat} (hl : ∀ x ∈ l, x ∈ S.mesh.coordinates.keys) :
    (l.map f).map (S.relabel f).newId = l.map S.newId := by
  rw [List.map_map]
  exact List.map_congr_left fun x hx => h.newId (hl x hx)

/-- Only the old ids of a work unit change. -/
theorem unit (h : S.Renaming f) (id : Nat) : (S.relabel f).unit id = (S.unit id).relabel f := by
  have hconnectivity := h.map_newId fun x (hx : x ∈ S.content id) => h.mem_keys_of_content hx
  have hids : ((S.content id).map f).map (fun x => ((S.relabel f).newId x, x)) =
      ((S.content id).map fun x => (S.newId x, x)).map fun e => (e.1, f e.2) := by
    rw [List.map_map, List.map_map]
    apply List.map_congr_left
    intro x hx
    rw [Function.comp_apply, h.newId (h.mem_keys_of_content hx)]
    rfl
  rw [Scenario.unit, Scenario.unit, h.content, hconnectivity, hids, ← IdMap.mapValues_ofList]
  rfl

/-! ### Bounds and costs -/

theorem highest (h : S.Renaming f) (pe : Nat) : (S.relabel f).highest pe = S.highest pe := by
  have hunits : (S.relabel f).unitsOf pe = (S.unitsOf pe).map (WorkUnit.relabel f) := by
    rw [unitsOf, unitsOf, List.map_map]
    exact List.map_congr_left fun id _ => h.unit id
  rw [Scenario.highest, Scenario.highest, hunits, List.flatMap_map]
  rfl

theorem held (h : S.Renaming f) (pe q : Nat) :
    (S.relabel f).held pe q = (S.held pe q).map f := by
  rw [Scenario.held, Scenario.held, h.nodes, List.filter_map]
  refine congrArg (List.map f) (List.filter_congr fun x hx => ?_)
  rw [Function.comp_apply, h.holder (h.mem_keys_of_nodes hx)]

theorem block (h : S.Renaming f) (pe : Nat) : (S.relabel f).block pe = S.block pe := by
  have hstart : (S.relabel f).start pe = S.start pe := by
    rw [start, start, h.used, List.countP_map]
    refine List.countP_congr fun x hx => ?_
    rw [Function.comp_apply, h.holder (h.mem_keys_of_used hx)]
  rw [Scenario.block, Scenario.block, hstart, h.held, List.length_map]

theorem upperFrom (h : S.Renaming f) (pe : Nat) :
    (S.relabel f).upperFrom pe = S.upperFrom pe := by
  unfold Scenario.upperFrom
  rw [h.highest, h.block]
  rfl

theorem lower (h : S.Renaming f) (pe : Nat) : (S.relabel f).lower pe = S.lower pe := by
  induction pe with
  | zero => rfl
  | succ pe ih => rw [Scenario.lower, Scenario.lower, h.upperFrom, ih]

theorem bounds (h : S.Renaming f) (pe : Nat) : (S.relabel f).bounds pe = S.bounds pe := by
  rw [Scenario.bounds, Scenario.bounds, upper, upper, h.upperFrom, h.lower]

theorem cost (h : S.Renaming f) (pe : Nat) : (S.relabel f).cost pe = S.cost pe := by
  unfold Scenario.cost
  rw [h.bounds, h.nodes, h.map_newId fun x hx => h.mem_keys_of_nodes hx, List.length_map,
    List.isEmpty_map]

theorem report (h : S.Renaming f) : (S.relabel f).report = S.report := by
  have hmean : ∀ g : Nat → Binary64, (S.relabel f).mean g = S.mean g := fun g => rfl
  have hcost : (S.relabel f).cost = S.cost := funext h.cost
  have hdeviation : (S.relabel f).deviation = S.deviation := by
    unfold deviation meanCost
    rw [hcost]
    rfl
  unfold Scenario.report meanCost
  rw [h.used, List.length_map, hmean, hmean, hcost, hdeviation, size_mesh_relabel]
  rfl

/-! ### Runs -/

theorem finishes_iff (h : S.Renaming f) : (S.relabel f).Finishes ↔ S.Finishes := by
  have hanswered : (S.relabel f).Answered ↔ S.Answered := by
    rw [Answered, Answered, h.answer, h.assignment]
  have hrange : ∀ pe, (S.relabel f).InRange pe ↔ S.InRange pe := by
    intro pe
    rw [InRange, InRange, h.share]
    rfl
  have hvacant : ∀ pe, (S.relabel f).vacant? pe = S.vacant? pe := by
    intro pe
    unfold vacant?
    simp only [h.content, List.isEmpty_map]
    rfl
  constructor
  · rintro ⟨ha, hr, hv⟩
    exact ⟨hanswered.1 ha, fun pe hp => (hrange pe).1 (hr pe hp),
      fun pe hp => hvacant pe ▸ hv pe hp⟩
  · rintro ⟨ha, hr, hv⟩
    exact ⟨hanswered.2 ha, fun pe hp => (hrange pe).2 (hr pe hp),
      fun pe hp => (hvacant pe).trans (hv pe hp)⟩

/-- A run that completes on the mesh with the new ids hands out what one on the other mesh does. -/
theorem completed (h : S.Renaming f) {s s' : Network} (hs : S.Completed s)
    (hs' : (S.relabel f).Completed s') :
    s'.ending = s.ending ∧
      s'.collector.bounds = s.collector.bounds ∧
      s'.ensemble.workers.map (fun w => (w.bounds, w.cost)) =
        s.ensemble.workers.map (fun w => (w.bounds, w.cost)) ∧
      s'.collector.sortedUnits = s.collector.sortedUnits.map (WorkUnit.relabel f) := by
  have hpes : (S.relabel f).pes = S.pes := rfl
  have hunits : (S.relabel f).units = S.units := rfl
  refine ⟨?_, ?_, ?_, ?_⟩
  · rw [hs'.ending, hs.ending, h.report]
  · simp only [hs'.bounds, hs.bounds, h.bounds, hpes]
  · simp only [hs'.workers, hs.workers, h.bounds, h.cost, hpes]
  · rw [hs'.units, hs.units, hunits, List.map_map]
    exact List.map_congr_left fun id _ => h.unit id

/-- The host decides on the same number of work units. -/
theorem decided_relabel (f : Nat → Nat) (S : Scenario) :
    (S.relabel f).decided = S.decided.relabel f := by
  have hdecision : (S.relabel f).decision = S.decision := by
    rw [decision, size_mesh_relabel]
    exact decideUnits_eq_decision rfl rfl
  cases hd : S.decision with
  | ok n =>
    rw [decided_of_ok hd, decided_of_ok (hdecision.trans hd)]
    rfl
  | error e =>
    rw [decided_of_error hd, decided_of_error (hdecision.trans hd)]
    rfl

theorem decided (h : S.Renaming f) : S.decided.Renaming f := by
  cases hd : S.decision with
  | ok n =>
    rw [decided_of_ok hd]
    exact ⟨h.complete, h.increasing, h.orderOnly⟩
  | error e =>
    rw [decided_of_error hd]
    exact ⟨h.complete, h.increasing, Partitioner.orderOnly_failing _ _ _⟩

/-- Two runs, each in its own order of deliveries, on the two meshes. -/
theorem atRest (h : S.Renaming f) (hs : S.Launchable) {n n' s s' : Network}
    (hl : S.launch = .ok n) (hl' : (S.relabel f).launch = .ok n') (hr : n.Reaches s)
    (hr' : n'.Reaches s') (hrest : s.AtRest) (hrest' : s'.AtRest) :
    S.decided.Completed s ∧ (S.relabel f).decided.Completed s' ∨
      (∃ e, s.ending = some (.error e)) ∧ ∃ e, s'.ending = some (.error e) := by
  have hs' := hs.relabel f
  have hiff : (S.relabel f).decided.Finishes ↔ S.decided.Finishes := by
    rw [decided_relabel]
    exact h.decided.finishes_iff
  rcases hs.atRest_cases hl hr hrest with ⟨hf, hc⟩ | ⟨hf, he⟩
  · rcases hs'.atRest_cases hl' hr' hrest' with ⟨-, hc'⟩ | ⟨hf', -⟩
    · exact .inl ⟨hc, hc'⟩
    · exact absurd (hiff.2 hf) hf'
  · rcases hs'.atRest_cases hl' hr' hrest' with ⟨hf', -⟩ | ⟨-, he'⟩
    · exact absurd (hiff.1 hf') hf
    · exact .inr ⟨he, he'⟩

end Renaming

theorem launchable_of_create {h : Host} (hm : S.mesh.IsComplete)
    (hh : Host.create S.pes S.settings = .ok h) : S.Launchable := by
  simp only [Host.create, bind, Except.bind, throw, throwThe, MonadExceptOf.throw] at hh
  split at hh
  · cases hh
  next hvalid =>
  split at hh
  · cases hh
  next hpos =>
  split at hh
  · cases hh
  next hroom =>
  refine ⟨hm, Nat.pos_of_ne_zero hpos, Nat.not_lt.1 hroom, ?_⟩
  cases hv : S.settings.validate with
  | ok _ => rfl
  | error e =>
    rw [hv] at hvalid
    cases hvalid

/-- Nodes may get other ids in the same order, as by a shift: every order of deliveries on one mesh
and every order on the other end alike, with the same report, bounds and work units, but for the
old ids in these. Which routine makes the cuts of the partitioner does not matter. -/
theorem ends_alike_on_relabelled_mesh {m : TetMesh} {f : Nat → Nat} (hm : m.IsComplete)
    (hf : StrictMonoOn f {x | x ∈ m.coordinates.keys}) (pes : Nat) (st : Settings)
    (selection : Bisection.Selection) :
    let launch (m : TetMesh) := Network.launch m.reader pes st (st.algorithm.selecting selection)
    st.algorithm.selecting .sorting = st.algorithm.partitioner ∧
      ((∃ e, launch m = .error e ∧ launch (m.relabel f) = .error e) ∨
        ∃ n n', launch m = .ok n ∧ launch (m.relabel f) = .ok n' ∧ ¬ n.Endless ∧ ¬ n'.Endless ∧
          ∀ s s', n.Reaches s → n'.Reaches s' → s.AtRest → s'.AtRest →
            ((∃ r, s.ending = some (.ok r)) ↔ ∃ r, s'.ending = some (.ok r)) ∧
              ∀ r, s.ending = some (.ok r) →
                s'.ending = some (.ok r) ∧
                  s'.collector.bounds = s.collector.bounds ∧
                  s'.ensemble.workers.map (fun w => (w.bounds, w.cost)) =
                    s.ensemble.workers.map (fun w => (w.bounds, w.cost)) ∧
                  s'.collector.sortedUnits =
                    s.collector.sortedUnits.map (WorkUnit.relabel f)) := by
  intro launch
  refine ⟨Algorithm.selecting_sorting _, ?_⟩
  let S : Scenario := ⟨m, pes, st, st.algorithm.selecting selection⟩
  have hren : S.Renaming f := ⟨hm, hf, Partitioner.orderOnly_selecting selection st.algorithm⟩
  cases hc : Host.create pes st with
  | error e =>
    have hfail : ∀ m, launch m = .error e := by
      intro m
      simp only [launch, Network.launch, Ensemble.create, hc]
      rfl
    exact .inl ⟨e, hfail m, hfail _⟩
  | ok h =>
    right
    have hs : S.Launchable := launchable_of_create hm hc
    have hs' := hs.relabel f
    refine ⟨_, _, hs.launch_eq, hs'.launch_eq, hs.not_endless hs.launch_eq,
      hs'.not_endless hs'.launch_eq, fun s s' hr hr' hrest hrest' => ?_⟩
    rcases hren.atRest hs hs.launch_eq hs'.launch_eq hr hr' hrest hrest' with
      ⟨hdone, hdone'⟩ | ⟨⟨e, he⟩, e', he'⟩
    · rw [Renaming.decided_relabel] at hdone'
      obtain ⟨hending, hsame⟩ := hren.decided.completed hdone hdone'
      rw [hending]
      exact ⟨Iff.rfl, fun r hr => ⟨hr, hsame⟩⟩
    · simp [he, he']

theorem pair_ends_alike_on_shifted_mesh :
    ∃ n n', pair.launch = .ok n ∧
      Network.launch (pair.mesh.shift 100).reader 2 pair.settings pair.partitioner = .ok n' ∧
      ∀ s s', n.Reaches s → n'.Reaches s' → s.AtRest → s'.AtRest →
        s'.ending = some (.ok pair.report) ∧
          s'.collector.sortedUnits = s.collector.sortedUnits.map (WorkUnit.relabel (· + 100)) := by
  have hshift : StrictMonoOn (· + 100) {x | x ∈ pair.mesh.coordinates.keys} :=
    fun _ _ _ _ hlt => Nat.add_lt_add_right hlt 100
  obtain ⟨hsorting, halike⟩ :=
    ends_alike_on_relabelled_mesh admissible_pair.complete hshift 2 pair.settings .sorting
  rw [hsorting] at halike
  rcases halike with ⟨e, he, -⟩ | ⟨n, n', hl, hl', -, -, hends⟩
  · cases he.symm.trans (launch_eq admissible_pair)
  · refine ⟨n, n', hl, hl', fun s s' hr hr' hrest hrest' => ?_⟩
    obtain ⟨H, h⟩ := finishes_pair.reflects admissible_pair hl hr
    have hending : s.ending = some (.ok pair.report) := by
      rw [h.ending, if_pos (h.over hrest)]
    obtain ⟨-, hsame⟩ := hends s s' hr hr' hrest hrest'
    obtain ⟨hending', -, -, hunits⟩ := hsame _ hending
    exact ⟨hending', hunits⟩

end Scenario
end MeshDecomp
