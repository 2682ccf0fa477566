import MeshDecomp.Proofs.Reflection

/-! The launch of a run: all ranks read their elements, and nothing has arrived yet. -/
namespace MeshDecomp

theorem View.of_nil (pe : Nat) : View.of [] pe = {} := by
  cases pe <;> simp [View.of, Letter.senders]

namespace Scenario

variable {S : Scenario} {pe : Nat} {m : Letter}

theorem not_gathered_nil (hp : 0 < S.pes) (b : Barrier) : ¬ S.Gathered b [] := by
  intro h
  obtain ⟨k, hk⟩ : ∃ k, k ∈ b.kinds := by cases b <;> exact ⟨_, List.mem_cons_self⟩
  exact absurd (gathered_iff.1 h k hk 0 hp) List.not_mem_nil

theorem history_nil (hp : 0 < S.pes) : S.History [] where
  nodup := List.nodup_nil
  sent := fun _ h => absurd h List.not_mem_nil
  answered := fun h => absurd h (not_gathered_nil hp _)
  inRange := fun _ h => absurd h List.not_mem_nil
  occupied := fun _ h => absurd h List.not_mem_nil

/-- The contributions of a rank that has read its elements. -/
def firstLetters (pe : Nat) : List Letter :=
  [.contribution .load pe, .contribution .setup pe, .contribution .elements pe]

/-- Processing elements of which those below some rank have started. -/
def starting (S : Scenario) (n : Nat) : Ensemble where
  workers := (List.range S.pes).map fun pe => if pe < n then S.worker pe {} else S.fresh pe
  host := S.host []

theorem start_starting (ha : S.Launchable) (hp : pe < S.pes) :
    (S.starting pe).start pe = .ok (S.starting (pe + 1))
      (.actions pe [.contribute (.load (S.span pe).size), .contribute .setup,
        .contribute (.elements (S.elementSlice pe))]) := by
  have hw : (S.starting pe).workers[pe]? = some (S.fresh pe) := by simp [starting, hp]
  rw [Ensemble.start, Ensemble.onWorker_eq hw (start_fresh ha.complete hp)]
  have hset := set_map_range (n := S.pes) (p := pe)
    (f := fun q => if q < pe then S.worker q {} else S.fresh q)
    (g := fun q => if q < pe + 1 then S.worker q {} else S.fresh q) fun q hq => by
      have hiff : q < pe + 1 ↔ q < pe := by omega
      simp only [hiff]
  rw [if_pos (Nat.lt_succ_self pe)] at hset
  simp only [starting, hset]

/-- The network once some ranks have started. -/
theorem foldl_start (ha : S.Launchable) {n : Nat} (hn : n ≤ S.pes) :
    (List.range n).foldl Network.start { ensemble := S.starting 0 } =
      { ensemble := S.starting n, pool := ((List.range n).flatMap firstLetters).map S.parcel } := by
  induction n with
  | zero => rfl
  | succ n ih =>
    rw [List.range_succ, List.foldl_append, ih (Nat.le_of_succ_le hn), List.foldl_cons,
      List.foldl_nil, Network.start]
    rw [if_neg (by simp), start_starting ha hn]
    simp only [Network.absorb, Outcome.result_ok, Outcome.state_ok, List.flatMap_append,
      List.map_append]
    congr 1

theorem host_nil (hp : 0 < S.pes) : S.host [] = {
    pes := S.pes
    settings := S.settings
    partitioner := S.partitioner
    loads := .empty S.pes
    setups := .empty S.pes
    slices := .empty S.pes
    distributions := .empty S.pes
    flattenings := .empty S.pes
    nodeSets := .empty S.pes
    costs := .empty S.pes
    deviations := .empty S.pes } := by
  simp only [host, counting, not_gathered_nil hp, decide_false, Bool.false_eq_true, ↓reduceIte]
  rfl

theorem Launchable.create_eq (ha : S.Launchable) :
    (Ensemble.create S.mesh.reader S.pes S.settings).map (·.withPartitioner S.partitioner) =
      .ok (S.starting 0) := by
  have hpes : S.pes ≠ 0 := Nat.ne_of_gt ha.pes_pos
  have hroom : ¬ Tally.maxPes < S.pes := Nat.not_lt.2 ha.room
  have hworkers : ∀ rank ∈ List.range S.pes,
      Worker.create rank S.pes S.mesh.reader S.settings =
        .ok { rank, pes := S.pes, reader := S.mesh.reader,
              geometric := S.settings.algorithm.geometric } := by
    intro rank hr
    simp only [Worker.create, ha.valid, Except.mapError, List.mem_range.1 hr, ↓reduceIte, bind,
      Except.bind, pure, Except.pure]
  simp only [Ensemble.create, Host.create, ha.valid, Except.mapError, hpes, hroom, ↓reduceIte,
    mapM_eq_ok hworkers, bind, Except.bind, pure, Except.pure, Except.map]
  simp only [Ensemble.withPartitioner, Host.withPartitioner, starting, host_nil ha.pes_pos,
    List.map_map, Nat.not_lt_zero, ↓reduceIte]
  rfl

theorem starting_pes : S.starting S.pes = S.ensemble [] := by
  simp only [starting, ensemble, View.of_nil, Ensemble.mk.injEq, and_true]
  apply List.map_congr_left
  intro pe hpe
  rw [if_pos (List.mem_range.1 hpe)]

theorem Launchable.launch_eq (ha : S.Launchable) : S.launch =
    .ok { ensemble := S.ensemble []
          pool := ((List.range S.pes).flatMap firstLetters).map S.parcel } := by
  have hcreate := ha.create_eq
  have hpes : (S.starting 0).pes = S.pes := by
    simp only [Ensemble.pes, starting, List.length_map, List.length_range]
  have hstart : Network.startAll (S.starting 0) =
      { ensemble := S.ensemble []
        pool := ((List.range S.pes).flatMap firstLetters).map S.parcel } := by
    rw [Network.startAll, hpes, foldl_start ha (Nat.le_refl _), starting_pes]
  unfold launch
  rw [Network.launch]
  cases he : Ensemble.create S.mesh.reader S.pes S.settings with
  | error e =>
    rw [he] at hcreate
    cases hcreate
  | ok s =>
    rw [he] at hcreate
    have hs : s.withPartitioner S.partitioner = S.starting 0 := Except.ok.inj hcreate
    exact congrArg Except.ok ((congrArg Network.startAll hs).trans hstart)

theorem create_eq (ha : S.Admissible) :
    (Ensemble.create S.mesh.reader S.pes S.settings).map (·.withPartitioner S.partitioner) =
      .ok (S.starting 0) :=
  Launchable.create_eq ha

theorem launch_eq (ha : S.Admissible) : S.launch =
    .ok { ensemble := S.ensemble []
          pool := ((List.range S.pes).flatMap firstLetters).map S.parcel } :=
  Launchable.launch_eq ha

theorem mem_firstLetters (hp : 0 < S.pes) :
    m ∈ (List.range S.pes).flatMap firstLetters ↔ S.Sent [] m := by
  have hnil : S.Sent [] m → S.causes m = [] := fun hs =>
    List.eq_nil_iff_forall_not_mem.2 fun c hc => absurd (hs.2 c hc) List.not_mem_nil
  simp only [List.mem_flatMap, List.mem_range, firstLetters, List.mem_cons, List.not_mem_nil,
    or_false]
  constructor
  · rintro ⟨pe, hpe, rfl | rfl | rfl⟩ <;> exact ⟨hpe, by simp [causes]⟩
  · intro hs
    have hcauses := hnil hs
    cases m with
    | contribution k pe =>
      refine ⟨pe, hs.1, ?_⟩
      cases k <;> simp_all [causes, settling]
    | command b pe => exact absurd hs.2 (not_gathered_nil hp b)
    | peer x s t => cases x <;> simp [causes] at hcauses
    | lower s => simp [causes, settling] at hcauses

theorem nodup_firstLetters (n : Nat) : ((List.range n).flatMap firstLetters).Nodup := by
  refine List.nodup_flatMap.2 ⟨fun pe _ => by simp [firstLetters], ?_⟩
  refine List.nodup_range.imp fun hne => ?_
  simp [Function.onFun, firstLetters, Ne.symm hne]

/-- Before the first delivery the network has an empty history. -/
theorem reflects_nil (ha : S.Launchable) :
    S.Reflects [] { ensemble := S.ensemble []
                    pool := ((List.range S.pes).flatMap firstLetters).map S.parcel } where
  history := history_nil ha.pes_pos
  ensemble := rfl
  pool := by
    refine ⟨_, rfl, nodup_firstLetters _, fun m => ?_⟩
    rw [mem_firstLetters ha.pes_pos]
    simp
  delivered := rfl
  collector := by
    refine ⟨[], ?_, rfl⟩
    have hnone : S.settledRanks [] = [] := by
      apply List.filter_eq_nil_iff.2
      intro pe _
      rw [View.of_nil]
      simpa using not_settled (not_complete rfl)
    rw [hnone]
  ending := by
    rw [if_neg]
    exact fun ho => absurd (ho 0 ha.pes_pos) List.not_mem_nil

end Scenario
end MeshDecomp
