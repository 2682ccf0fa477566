import MeshDecomp.Partition.Elementary
import MeshDecomp.Proofs.Ledgers
import MeshDecomp.Proofs.Reception
import MeshDecomp.Proofs.Texts

/-!
The plan of ranks with any reader and any partitioner. What these tell has to fit into a machine:
numbers into words, and lists and texts into memory. Nothing else is asked of them.
-/

namespace MeshDecomp

open Wire

/-- Given machine words a reader tells machine words, and what it tells lies in memory. -/
structure Reader.Sized (r : Reader) : Prop where
  count : ∀ n, r.count = .ok n → n < 2 ^ 64
  elements : ∀ first stop ids, first < 2 ^ 64 → stop < 2 ^ 64 → r.elements first stop = .ok ids →
    InWords ids ∧ 8 * ids.length < memory
  counting : ∀ e, r.count = .error e → Within memory e.message
  reading : ∀ first stop e, first < 2 ^ 64 → stop < 2 ^ 64 → r.elements first stop = .error e →
    Within memory e.message
  locating : ∀ nodes e, InWords nodes → r.coordinates nodes = .error e → Within memory e.message

/-- What a partitioner makes of an input are machine words, and what it tells lies in memory. -/
structure Partitioner.Sized (p : Partitioner) (input : PartitionInput) : Prop where
  name : Within memory p.name
  answering : ∀ n ids, 0 < n → n < 2 ^ 64 → p.assign input n = .ok ids →
    InWords ids ∧ 8 * ids.length < memory
  refusing : ∀ n e, 0 < n → n < 2 ^ 64 → p.assign input n = .error (.error e) →
    Within memory e.message

namespace Job

/-- What ranks start from fits into a machine. -/
structure Sized (job : Job) (size : Nat) : Prop where
  reader : job.reader.Sized
  units : ∀ n, job.settings.units = some n → n < 2 ^ 64
  /-- What all ranks read lies in memory together. -/
  gathered : (∀ pe < size, ∃ p, Portion.read job.reader size pe = .ok p) →
    8 * (4 * job.total) < memory
  partitioner : job.partitioner.Sized (job.input size)

/-- No rank crashes: blocks can be read, and the partitioner comes back. -/
structure Steady (job : Job) (size : Nat) : Prop extends job.Sized size where
  reading : job.Readable size
  returning : 0 < job.units size → ∀ c,
    job.partitioner.assign (job.input size) (job.units size) ≠ .error (.crash c)

variable {job : Job} {size pe q : Nat} {m : Letter} {H : List Letter}

namespace Sized

variable (hz : job.Sized size)

include hz

theorem total_lt : job.total < 2 ^ 64 := by
  unfold total
  cases hc : job.reader.count with
  | ok n => exact hz.reader.count n hc
  | error e => exact Nat.two_pow_pos 64

theorem span_lt (h : pe < size) : (job.span size pe).first < 2 ^ 64 ∧
    (job.span size pe).stop < 2 ^ 64 := by
  have htotal := hz.total_lt
  have hstop : (job.span size pe).stop ≤ job.total := Block.stop_span_le h
  have hle : (job.span size pe).first ≤ (job.span size pe).stop := Nat.le_add_right _ _
  omega

/-- Elements that a rank cannot read stand in the scenario with node zero. -/
theorem inWords_nodes (h : pe < size) : InWords (job.nodes size pe) := by
  unfold nodes
  cases hread : Portion.read job.reader size pe with
  | error e =>
    intro w hw
    rw [List.eq_of_mem_replicate hw]
    decide
  | ok p =>
    obtain ⟨total, ids, hc, hids, -, rfl⟩ := Portion.of_read_eq_ok hread
    obtain rfl : job.total = total := by rw [Job.total, hc]
    obtain ⟨hfirst, hstop⟩ := hz.span_lt h
    exact (hz.reader.elements _ _ ids hfirst hstop hids).1

theorem units_lt (hv : job.settings.validate = .ok ()) (hs : 0 < size) :
    job.units size < 2 ^ 64 := by
  have htotal := hz.total_lt
  have hzero : ∀ e, (job.freshHost size).decideUnits job.total = .error e →
      job.units size < 2 ^ 64 := by
    intro e he
    rw [Job.units, he]
    exact Nat.two_pow_pos 64
  rcases decideUnits_cases hv hs with ⟨n, hn, ⟨-, hu⟩ | ⟨-, hu⟩⟩ | hu
  · rw [Job.units, hu]
    rcases hn with hn | ⟨-, hle⟩
    · exact hz.units n hn
    · exact hle.trans_lt htotal
  · exact hzero _ hu
  · exact hzero _ hu

theorem inWords_verdict {ids : List Nat} (hv : job.settings.validate = .ok ()) (hs : 0 < size)
    (h : job.verdict size = .ok ids) : InWords ids := by
  obtain ⟨-, hle, -, ha, -⟩ := of_verdict_eq_ok hv hs h
  exact (hz.partitioner.answering _ ids (hs.trans_le hle) (hz.units_lt hv hs) ha).1

theorem inWords_assignment (hv : job.settings.validate = .ok ()) (hs : 0 < size) :
    InWords (job.scenario size).assignment := by
  unfold Scenario.assignment
  cases ha : (job.scenario size).answer with
  | ok ids => exact hz.inWords_verdict hv hs ((answer_eq_ok_iff hv hs).1 ha)
  | error e => exact inWords_nil

theorem fits_of_complains {e : MeshError} (h : pe < size) (he : job.Complains size pe e) :
    (RunError.mesh e).Fits := by
  obtain ⟨hfirst, hstop⟩ := hz.span_lt h
  cases he with
  | count hc => exact RunError.fits_of_within (hz.reader.counting e hc)
  | elements hi => exact RunError.fits_of_within (hz.reader.reading _ _ e hfirst hstop hi)
  | @malformed ids hi =>
    obtain ⟨-, hlen⟩ := hz.reader.elements _ _ ids hfirst hstop hi
    unfold memory at hlen
    exact RunError.fits_of_within (MeshError.within_malformedConnectivity (by omega))
  | coordinates hc =>
    refine RunError.fits_of_within (hz.reader.locating _ e (fun x hx => ?_) hc)
    exact hz.inWords_nodes h x (mem_ascending.1 hx)
  | @missing x hx =>
    exact RunError.fits_of_within
      (MeshError.within_missingCoordinates (hz.inWords_nodes h x hx))

theorem fits_of_refuses {e : RunError} (hv : job.settings.validate = .ok ()) (hs : 0 < size)
    (hsize : size < 2 ^ 32) (he : job.Refuses size (.error e)) : e.Fits := by
  have hlt : size < 2 ^ 64 := by omega
  have hunits := hz.units_lt hv hs
  generalize hf : Failure.error e = f at he
  cases he with
  | @units n hn =>
    cases hf
    exact RunError.fits_tooFewUnits (hn.trans hlt) hlt
  | load =>
    cases hf
    exact RunError.fits_load hz.total_lt hlt
  | room => cases hf
  | @partitioner e' hpos ha =>
    cases e' with
    | crash c => cases hf
    | error e' =>
      cases hf
      exact RunError.fits_of_within (hz.partitioner.refusing _ e' hpos hunits ha)
  | @assigned ids hpos ha =>
    cases hf
    obtain ⟨-, hlen⟩ := hz.partitioner.answering _ ids hpos hunits ha
    unfold memory at hlen
    exact RunError.fits_assigned hz.partitioner.name (by omega) (by omega) hz.total_lt

end Sized

/-- The host comes back once all ranks have read their elements. -/
theorem Steady.not_refuses_crash {c : Crash} (hz : job.Steady size)
    (hread : ∀ pe < size, ∃ p, Portion.read job.reader size pe = .ok p) :
    ¬ job.Refuses size (.crash c) := by
  intro hr
  generalize hf : Failure.crash c = f at hr
  cases hr with
  | units | load | assigned => cases hf
  | room hmax =>
    have hmem := hz.gathered hread
    unfold memory at hmem
    unfold Host.Gathered.maxElements at hmax
    omega
  | @partitioner e hpos ha =>
    cases e with
    | error e => cases hf
    | crash c' => exact hz.returning hpos c' ha

/-! ### The plan of a job -/

def plan (job : Job) (size : Nat) : Plan job (job.scenario size) where
  slice := job.slice size
  host := job.host size
  fault := job.fault size
  refusal := job.refusal size

theorem contribution_plan (k : Contribution.Kind) :
    (job.plan size).contribution pe k = job.contribution size pe k := by
  cases k <;> rfl

/-- A rank that cannot start complains of its block. -/
theorem of_fault_eq_some {e : RunError} (hr : job.Readable size) (h : pe < size)
    (hf : job.fault size pe = some e) :
    ∃ c, e = .mesh c ∧ job.Complains size pe c ∧
      (job.fresh size pe).start.result = .error (.error (.mesh c)) := by
  unfold fault at hf
  rcases start_cases hr h with ⟨c, hc, hstart⟩ | ⟨-, -, hstart⟩
  · rw [hstart] at hf
    cases hf
    exact ⟨c, rfl, hc, hstart⟩
  · rw [hstart] at hf
    cases hf

theorem of_fault_eq_none (hr : job.Readable size) (h : pe < size) (hf : job.fault size pe = none) :
    ∃ p, Portion.read job.reader size pe = .ok p ∧
      (job.fresh size pe).start =
        .ok (((job.scenario size).worker pe {}).withReader job.reader)
          [.contribute (.load ((job.scenario size).span pe).size), .contribute .setup,
            .contribute (.elements (job.slice size pe))] := by
  unfold fault at hf
  rcases start_cases hr h with ⟨c, -, hstart⟩ | hstart
  · rw [hstart] at hf
    cases hf
  · exact hstart

namespace Steady

variable (hz : job.Steady size) (hv : job.settings.validate = .ok ()) (hs : 0 < size)

include hz hv hs

theorem verdict_of_refusal {e : RunError} (hall : ∀ q < size, job.fault size q = none)
    (hr : job.refusal size = some e) :
    job.verdict size = .error (.error e) := by
  have hread : ∀ pe < size, ∃ p, Portion.read job.reader size pe = .ok p := fun pe hpe => by
    obtain ⟨p, hp, -⟩ := of_fault_eq_none hz.reading hpe (hall pe hpe)
    exact ⟨p, hp⟩
  unfold refusal at hr
  split at hr
  · cases hr
  · next e' he =>
    cases hr
    exact he
  · next c he => exact absurd (refuses_of_verdict hv hs he) (hz.not_refuses_crash hread)

/-- What ranks go through fits into a machine, if all ranks can read their elements. -/
theorem sized_scenario (hall : ∀ q < size, job.fault size q = none) :
    (job.scenario size).Sized where
  inMemory := by
    have hmem := hz.gathered fun pe hpe => by
      obtain ⟨p, hp, -⟩ := of_fault_eq_none hz.reading hpe (hall pe hpe)
      exact ⟨p, hp⟩
    unfold TetMesh.InMemory
    rw [Scenario.length_connectivity, size_scenario hs]
    exact hmem
  nodes := by
    intro x hx
    obtain ⟨t, ht, hx⟩ := List.mem_flatMap.1 hx
    obtain ⟨pe, hpe, ht⟩ := List.mem_flatMap.1 ht
    have hmod : (job.nodes size pe).length % 4 = 0 := by
      have := length_nodes job size pe
      omega
    refine hz.inWords_nodes (List.mem_range.1 hpe) x ?_
    rw [← Tet.flatten_ofFlat hmod]
    exact List.mem_flatMap.2 ⟨t, ht, hx⟩
  units := hz.units_lt hv hs
  assignment := hz.inWords_assignment hv hs

omit hv in
/-- A rank that could read its elements can tell the host of them. -/
theorem inWords_firstLetters (h : pe < size) (hf : job.fault size pe = none)
    (hm : m ∈ Scenario.firstLetters pe) :
    InWords (payload ((job.plan size).parcel m).content) := by
  obtain ⟨p, hp, -⟩ := of_fault_eq_none hz.reading h hf
  obtain ⟨total, ids, hc, hids, hlen, rfl⟩ := Portion.of_read_eq_ok hp
  obtain rfl : job.total = total := by rw [Job.total, hc]
  obtain ⟨hfirst, hstop⟩ := hz.span_lt h
  have hsize : (job.span size pe).size < 2 ^ 64 := (Nat.sub_le _ _).trans_lt hstop
  obtain ⟨-, hmem⟩ := hz.reader.elements _ _ ids hfirst hstop hids
  rcases Plan.mem_firstLetters_iff.1 hm with rfl | rfl | rfl
  · refine inWords_cons.2 ⟨?_, inWords_nil⟩
    rw [span_scenario hs]
    exact hsize
  · exact inWords_nil
  · refine inWords_cons.2 ⟨hfirst, inWords_append.2 ⟨inWords_list.2 ⟨?_, hz.inWords_nodes h⟩, ?_⟩⟩
    · show (job.nodes size pe).length < 2 ^ 64
      rw [length_nodes]
      unfold memory at hmem
      change _ = 4 * (job.span size pe).size at hlen
      omega
    · show InWords (wordsOfCentroids (job.slice size pe).centroids)
      unfold slice ElementSlice.ofBlock
      dsimp only
      split
      · refine inWords_centroids fun a => ?_
        rw [Centroids.length_axis_ofPoints, length_points]
        exact hsize
      · exact inWords_cons.2 ⟨wordOfFlag_lt false, inWords_nil⟩

theorem inWords_parcel (hsize : size < 2 ^ 32) (hm : (job.scenario size).Occurs m)
    (hfirst : ∀ pe, m ∈ Scenario.firstLetters pe → job.fault size pe = none)
    (hlater : (∀ pe, m ∉ Scenario.firstLetters pe) → ∀ pe < size, job.fault size pe = none) :
    InWords (payload ((job.plan size).parcel m).content) := by
  by_cases h : ∃ pe, m ∈ Scenario.firstLetters pe
  · obtain ⟨pe, h⟩ := h
    have hpe : pe < size := by
      rcases Plan.mem_firstLetters_iff.1 h with rfl | rfl | rfl <;> exact hm
    exact hz.inWords_firstLetters hs hpe (hfirst pe h) h
  · have hparcel : (job.plan size).parcel m = (job.scenario size).parcel m := by
      cases m with
      | contribution k pe =>
        cases k with
        | elements => exact absurd ⟨pe, Plan.mem_firstLetters_iff.2 (by simp)⟩ h
        | _ => rfl
      | _ => rfl
    rw [hparcel]
    exact (hz.sized_scenario hv hs (hlater (not_exists.1 h))).inWords_parcel hsize hm

/-- What ranks come upon by themselves can be told, and is not the failure of another rank. -/
theorem fits_of_raises {e : RunError} (hsize : size < 2 ^ 32) (he : (job.plan size).Raises e) :
    e.Fits ∧ ∀ pe user reason, e ≠ .aborted pe user reason := by
  have hlt : ∀ {n}, n < size → n < 2 ^ 64 := by omega
  have hunits : (job.scenario size).units < 2 ^ 64 := hz.units_lt hv hs
  have hassignment := hz.inWords_assignment hv hs
  rcases he with ⟨pe, hpe, hf⟩ | ⟨H, m, hm, hf⟩
  · obtain ⟨c, rfl, hc, -⟩ := of_fault_eq_some hz.reading hpe hf
    exact ⟨hz.fits_of_complains hpe hc, fun _ _ _ => by simp⟩
  · cases hf with
    | @refusal k pe _ hg hr =>
      have hr : job.refusal size = some e := hr
      unfold refusal at hr
      split at hr
      · cases hr
      · next e' he =>
        cases hr
        have href := refuses_of_verdict hv hs he
        refine ⟨hz.fits_of_refuses hv hs hsize href, ?_⟩
        rintro q user reason rfl
        generalize hfail : Failure.error _ = f at href
        cases href with
        | @partitioner e' => cases e' <;> cases hfail
        | _ => cases hfail
      · cases hr
        exact ⟨RunError.fits_stalled (by omega), fun _ _ _ => by simp⟩
    | letter hr hf =>
      cases hf with
      | answer => cases hr
      | @unit pe unit hu =>
        have hmem : unit ∈ (job.scenario size).share pe := List.mem_of_find?_eq_some hu
        have hword := hassignment unit (List.mem_of_mem_drop (List.mem_of_mem_take hmem))
        exact ⟨RunError.fits_unitOutOfRange (hlt hm.1) hword hunits, fun _ _ _ => by simp⟩
      | @vacant pe unit hu =>
        have hspan := (Scenario.vacant?_eq_some hu).1
        have hstop : unit < (job.scenario size).units := hspan.2.trans_le (Block.stop_span_le hm.1)
        exact ⟨RunError.fits_overdecomposition (hlt hm.1) (hstop.trans hunits) hunits (by
          show size < 2 ^ 64
          omega), fun _ _ _ => by simp⟩

/-- Ranks do as planned. -/
theorem holds (hsize : size < 2 ^ 32) : (job.plan size).Holds where
  pes_pos := hs
  pes_lt := hsize
  valid := hv
  start := fun pe hpe hf => by
    obtain ⟨-, -, hstart⟩ := of_fault_eq_none hz.reading hpe hf
    exact hstart
  start_fault := fun pe hpe e hf => by
    obtain ⟨c, rfl, -, hstart⟩ := of_fault_eq_some hz.reading hpe hf
    exact hstart
  host_nil := host_nil hs
  host_concat := fun _ _ _ hr => host_concat_of_receiver hr
  contribute := fun H k pe h hm hn hok => by
    rw [contribution_plan]
    exact contribute_eq hv h hm hn hok
  contribute_refusal := fun H k pe e h hm hn hg hall hr => by
    rw [contribution_plan]
    exact contribute_error hv h hm hn hg (hz.verdict_of_refusal hv hs hall hr)
  refusal_iff := refusal_eq_none_iff hv hs
  inWords := fun m hm => hz.inWords_parcel hv hs hsize hm
  inWords_abort := fun e he => (hz.fits_of_raises hv hs hsize he).1
  genuine := fun e he => (hz.fits_of_raises hv hs hsize he).2

end Steady
end Job

/-! ### Ranks that read a mesh -/

theorem TetMesh.of_lookUp_eq_error {m : TetMesh} {nodes : List Nat} {e : MeshError}
    (h : m.lookUp nodes = .error e) : ∃ x ∈ nodes, e = .missingCoordinates x := by
  unfold lookUp at h
  generalize (∅ : IdMap Point) = found at h
  induction nodes generalizing found with
  | nil => cases h
  | cons y nodes ih =>
    rw [List.foldlM_cons] at h
    cases hy : m.coordinates.get? y with
    | none =>
      rw [hy] at h
      cases h
      exact ⟨y, List.mem_cons_self, rfl⟩
    | some p =>
      rw [hy] at h
      obtain ⟨x, hx, he⟩ := ih _ h
      exact ⟨x, List.mem_cons_of_mem y hx, he⟩

/-- The reader of a mesh tells of nothing but the mesh and what it was asked for. -/
theorem TetMesh.sized_reader {m : TetMesh} (hm : m.InMemory) (hw : InWords m.connectivity) :
    m.reader.Sized where
  count := by
    rintro n ⟨⟩
    have hlen : m.connectivity.length = 4 * m.size := Tet.length_flatten m.tets
    unfold InMemory at hm
    omega
  elements := by
    intro first stop ids _ _ h
    have h : m.elements first stop = .ok ids := h
    unfold elements at h
    split at h
    · cases h
    · cases h
      refine ⟨fun x hx => ?_, ?_⟩
      · obtain ⟨t, ht, hx⟩ := List.mem_flatMap.1 hx
        exact hw x (List.mem_flatMap.2 ⟨t, List.mem_of_mem_drop (List.mem_of_mem_take ht), hx⟩)
      · have hlen : m.connectivity.length = 4 * m.tets.length := Tet.length_flatten m.tets
        unfold InMemory at hm
        rw [Tet.length_flatten, List.length_take, List.length_drop]
        unfold memory
        omega
  counting := by
    rintro e ⟨⟩
  reading := by
    intro first stop e hfirst hstop h
    have hsize : m.size < 2 ^ 64 := by
      have hlen : m.connectivity.length = 4 * m.size := Tet.length_flatten m.tets
      unfold InMemory at hm
      omega
    have h : m.elements first stop = .error e := h
    unfold elements at h
    split at h
    · cases h
      exact MeshError.within_rangeOutOfBounds hfirst hstop hsize
    · cases h
  locating := by
    intro nodes e hnodes h
    obtain ⟨x, hx, rfl⟩ := of_lookUp_eq_error h
    exact MeshError.within_missingCoordinates (hnodes x hx)

theorem Partitioner.sized_constant {name : String} {ids : List Nat} (geometric : Bool)
    (input : PartitionInput) (hname : Within memory name) (hw : InWords ids)
    (hlen : 8 * ids.length < memory) : (constant name geometric ids).Sized input where
  name := hname
  answering := by
    rintro n _ - - ⟨⟩
    exact ⟨hw, hlen⟩
  refusing := by
    rintro n e - - ⟨⟩

end MeshDecomp
