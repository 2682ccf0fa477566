import MeshDecomp.Proofs.Gathering
import MeshDecomp.Proofs.Plans

/-!
Ranks with any reader and any partitioner. Whatever the reader tells of and whatever the partitioner
answers, ranks go through one scenario; elements of ranks that cannot read them stand in it as
elements that nobody looks at.
-/

namespace MeshDecomp

namespace Portion

variable {r : Reader} {p : Portion} {pes pe : Nat} {e : MeshError}

theorem readSpan_eq_ok_iff {s : Span} : readSpan r s = .ok p ↔
    ∃ ids, r.elements s.first s.stop = .ok ids ∧ ids.length = 4 * s.size ∧ p = ⟨ids, s.toList⟩ := by
  cases hi : r.elements s.first s.stop with
  | error e => simp [readSpan_of_error hi]
  | ok ids =>
    rw [readSpan_of_ok hi]
    split
    · next hlen => simp [hlen, eq_comm]
    · next hlen => split <;> simp [hlen]

/-- Too few ids pass for a span where four times its size wraps around to their number. -/
theorem readSpan_eq_crash_iff {s : Span} {c : Crash} : readSpan r s = .error (.crash c) ↔
    c = .outOfRoom ∧ ∃ ids, r.elements s.first s.stop = .ok ids ∧
      ids.length ≠ 4 * s.size ∧ ids.length = 4 * s.size % UInt64.size := by
  cases hi : r.elements s.first s.stop with
  | error e => simp [readSpan_of_error hi]
  | ok ids =>
    rw [readSpan_of_ok hi]
    split
    · next hlen => simp [hlen]
    · next hlen =>
      split
      · next hword =>
        constructor
        · intro h
          cases h
          exact ⟨rfl, ids, rfl, hlen, hword⟩
        · rintro ⟨rfl, -⟩
          rfl
      · next hword =>
        constructor
        · intro h
          cases h
        · rintro ⟨-, ids', h, -, hword'⟩
          cases h
          exact absurd hword' hword

theorem of_readSpan_eq_error {s : Span} (h : readSpan r s = .error (.error e)) :
    r.elements s.first s.stop = .error e ∨
      ∃ ids, r.elements s.first s.stop = .ok ids ∧ e = .malformedConnectivity ids.length := by
  cases hi : r.elements s.first s.stop with
  | error e' =>
    rw [readSpan_of_error hi] at h
    cases h
    exact .inl rfl
  | ok ids =>
    rw [readSpan_of_ok hi] at h
    split at h
    · cases h
    · split at h
      · cases h
      · cases h
        exact .inr ⟨ids, rfl, rfl⟩

/-- A rank that reads its block reads four node ids for each element. -/
theorem of_read_eq_ok (h : read r pes pe = .ok p) : ∃ total ids, r.count = .ok total ∧
    r.elements (Block.span total pes pe).first (Block.span total pes pe).stop = .ok ids ∧
      ids.length = 4 * (Block.span total pes pe).size ∧
        p = ⟨ids, (Block.span total pes pe).toList⟩ := by
  cases hc : r.count with
  | error e =>
    rw [read_of_error hc] at h
    cases h
  | ok total =>
    rcases Nat.eq_zero_or_pos pes with rfl | hpes
    · rw [read, hc] at h
      cases h
    · rw [read_of_pos hc hpes] at h
      obtain ⟨ids, hids, hlen, hp⟩ := readSpan_eq_ok_iff.1 h
      exact ⟨total, ids, rfl, hids, hlen, hp⟩

theorem of_centroids_eq_ok {c : Centroids} (h : p.centroids r = .ok c) :
    ∃ ps : List Point, ps.length = (Tet.ofFlat p.connectivity).length ∧ c = .ofPoints ps := by
  unfold centroids at h
  simp only [bind, Except.bind, pure, Except.pure] at h
  cases hf : r.coordinates p.nodes with
  | error e =>
    rw [hf] at h
    cases h
  | ok found =>
    rw [hf] at h
    dsimp only at h
    cases hm : (Tet.ofFlat p.connectivity).mapM (mean found) with
    | error e =>
      rw [hm] at h
      cases h
    | ok ps =>
      rw [hm] at h
      cases h
      exact ⟨ps, length_of_mapM hm, rfl⟩

theorem of_read_eq_error (h : read r pes pe = .error (.error e)) : r.count = .error e ∨
    ∃ total, r.count = .ok total ∧
      (r.elements (Block.span total pes pe).first (Block.span total pes pe).stop = .error e ∨
        ∃ ids, r.elements (Block.span total pes pe).first (Block.span total pes pe).stop = .ok ids ∧
          e = .malformedConnectivity ids.length) := by
  cases hc : r.count with
  | error e' =>
    rw [read_of_error hc] at h
    cases h
    exact .inl rfl
  | ok total =>
    rcases Nat.eq_zero_or_pos pes with rfl | hpes
    · rw [read, hc] at h
      cases h
    · rw [read_of_pos hc hpes] at h
      exact .inr ⟨total, rfl, of_readSpan_eq_error h⟩

theorem of_mean_eq_error {found : IdMap Point} {t : Tet} (h : mean found t = .error e) :
    ∃ x ∈ t.nodes, e = .missingCoordinates x := by
  unfold mean at h
  simp only [bind, Except.bind, pure, Except.pure] at h
  split at h
  · next e' hm =>
    cases h
    obtain ⟨x, hx, he⟩ := exists_of_mapM_error hm
    refine ⟨x, hx, ?_⟩
    cases hf : found.get? x with
    | some p =>
      rw [hf] at he
      cases he
    | none =>
      rw [hf] at he
      exact (Except.error.inj he).symm
  · cases h

theorem of_centroids_eq_error (hlen : p.connectivity.length % 4 = 0)
    (h : p.centroids r = .error e) : r.coordinates p.nodes = .error e ∨
      ∃ x ∈ p.connectivity, e = .missingCoordinates x := by
  unfold centroids at h
  simp only [bind, Except.bind, pure, Except.pure] at h
  cases hf : r.coordinates p.nodes with
  | error e' =>
    rw [hf] at h
    cases h
    exact .inl rfl
  | ok found =>
    rw [hf] at h
    dsimp only at h
    cases hm : (Tet.ofFlat p.connectivity).mapM (mean found) with
    | ok ps =>
      rw [hm] at h
      cases h
    | error e' =>
      rw [hm] at h
      cases h
      obtain ⟨t, ht, he⟩ := exists_of_mapM_error hm
      obtain ⟨x, hx, rfl⟩ := of_mean_eq_error he
      refine .inr ⟨x, ?_, rfl⟩
      rw [← Tet.flatten_ofFlat hlen]
      exact List.mem_flatMap.2 ⟨t, ht, hx⟩

end Portion

namespace Job

section

variable (job : Job) (size : Nat)

/-- The number of elements that the reader tells of, if it does. -/
def total : Nat :=
  match job.reader.count with
  | .ok n => n
  | .error _ => 0

def span (pe : Nat) : Span := Block.span job.total size pe

/-- The nodes of the elements of a rank. -/
def nodes (pe : Nat) : List Nat :=
  match Portion.read job.reader size pe with
  | .ok p => p.connectivity
  | .error _ => List.replicate (4 * (job.span size pe).size) 0

def portion (pe : Nat) : Portion := ⟨job.nodes size pe, (job.span size pe).toList⟩

/-- The points that a rank tells the host of. -/
def points (pe : Nat) : List Point :=
  match (job.portion size pe).centroids job.reader with
  | .ok c => c.points?.getD []
  | .error _ => List.replicate (job.span size pe).size .origin

def slice : Nat → ElementSlice :=
  .ofBlock job.total size job.partitioner.geometric (job.nodes size) (job.points size)

/-- The number of work units that the host decides on, if it does. -/
def units : Nat :=
  match (job.freshHost size).decideUnits job.total with
  | .ok n => n
  | .error _ => 0

/-- What the host makes of all slices. -/
def verdict : Except (Failure RunError) (List Nat) :=
  match (job.freshHost size).decideUnits job.total with
  | .error e => .error (.error e)
  | .ok units =>
      { job.freshHost size with elements := job.total, units }.assign
        ((List.range size).map (job.slice size))

/-- What ranks go through. -/
def scenario : Scenario where
  mesh := ⟨(List.range size).flatMap fun pe => Tet.ofFlat (job.nodes size pe), ∅⟩
  pes := size
  settings := { job.settings with units := some (job.units size) }
  partitioner := { job.partitioner with
    assign := fun _ _ => (job.verdict size).mapError fun _ => .error .noParts }

/-- What a rank can find wrong with its block. -/
inductive Complains (pe : Nat) : MeshError → Prop where
  | count {e : MeshError} : job.reader.count = .error e → Complains pe e
  | elements {e : MeshError} :
      job.reader.elements (job.span size pe).first (job.span size pe).stop = .error e →
      Complains pe e
  | malformed {ids : List Nat} :
      job.reader.elements (job.span size pe).first (job.span size pe).stop = .ok ids →
      Complains pe (.malformedConnectivity ids.length)
  | coordinates {e : MeshError} :
      job.reader.coordinates (job.portion size pe).nodes = .error e → Complains pe e
  | missing {x : Nat} : x ∈ job.nodes size pe → Complains pe (.missingCoordinates x)

/-- No rank crashes when it reads its block. -/
def Readable : Prop := ∀ pe < size, ∀ c, Portion.read job.reader size pe ≠ .error (.crash c)

/-- Why a rank cannot start, if it cannot. A crash ends the program. -/
def fault (pe : Nat) : Option RunError :=
  match (job.fresh size pe).start.result with
  | .ok _ => none
  | .error (.error e) => some e
  | .error (.crash _) => some (.stalled size)

end

variable {job : Job} {size pe : Nat}

theorem length_nodes (job : Job) (size pe : Nat) :
    (job.nodes size pe).length = 4 * (job.span size pe).size := by
  unfold nodes
  cases h : Portion.read job.reader size pe with
  | error e => exact List.length_replicate
  | ok p =>
    obtain ⟨total, ids, hc, -, hlen, rfl⟩ := Portion.of_read_eq_ok h
    have htotal : job.total = total := by rw [Job.total, hc]
    rw [span, htotal]
    exact hlen

theorem length_ofFlat_nodes (job : Job) (size pe : Nat) :
    (Tet.ofFlat (job.nodes size pe)).length = (job.span size pe).size := by
  rw [Tet.length_ofFlat, length_nodes]
  omega

theorem length_points (job : Job) (size pe : Nat) :
    (job.points size pe).length = (job.span size pe).size := by
  unfold points
  cases h : (job.portion size pe).centroids job.reader with
  | error e => exact List.length_replicate
  | ok c =>
    obtain ⟨ps, hlen, rfl⟩ := Portion.of_centroids_eq_ok h
    dsimp only
    rw [Centroids.points?_ofPoints]
    exact hlen.trans (length_ofFlat_nodes job size pe)

/-! ### The scenario -/

theorem units_scenario : (job.scenario size).units = job.units size := rfl

theorem size_scenario (hs : 0 < size) : (job.scenario size).mesh.size = job.total := by
  have hlen : ((List.range size).flatMap fun pe => Tet.ofFlat (job.nodes size pe)).length =
      Block.mark job.total size size :=
    Block.length_flatMap hs (Nat.le_refl size) fun pe _ => length_ofFlat_nodes job size pe
  exact hlen.trans Block.mark_self

theorem span_scenario (hs : 0 < size) (pe : Nat) :
    (job.scenario size).span pe = job.span size pe := by
  show Block.span (job.scenario size).mesh.size size pe = _
  rw [size_scenario hs]
  rfl

theorem portion_scenario (h : pe < size) :
    (job.scenario size).portion pe = job.portion size pe := by
  have hs := Nat.zero_lt_of_lt h
  have hslice : (job.scenario size).slice pe (job.scenario size).mesh.tets =
      Tet.ofFlat (job.nodes size pe) := by
    unfold Scenario.slice
    rw [span_scenario hs]
    exact Block.slice_flatMap h fun pe _ => length_ofFlat_nodes job size pe
  have hlen := length_nodes job size pe
  unfold Scenario.portion
  rw [hslice, span_scenario hs, Tet.flatten_ofFlat (by omega)]
  rfl

theorem of_read_eq_ok {p : Portion} (h : Portion.read job.reader size pe = .ok p) :
    job.reader.count = .ok job.total ∧ p = job.portion size pe := by
  obtain ⟨total, ids, hc, -, -, hp⟩ := Portion.of_read_eq_ok h
  have htotal : job.total = total := by rw [Job.total, hc]
  have hnodes : job.nodes size pe = p.connectivity := by rw [nodes, h]
  refine ⟨htotal ▸ hc, ?_⟩
  rw [portion, hnodes, span, htotal, hp]

/-! ### The start of a rank -/

theorem complains_of_read {e : MeshError}
    (h : Portion.read job.reader size pe = .error (.error e)) :
    job.Complains size pe e := by
  rcases Portion.of_read_eq_error h with hc | ⟨total, hc, he⟩
  · exact .count hc
  · obtain rfl : job.total = total := by rw [Job.total, hc]
    rcases he with hi | ⟨ids, hi, rfl⟩
    · exact .elements hi
    · exact .malformed hi

theorem complains_of_centroids {e : MeshError}
    (h : (job.portion size pe).centroids job.reader = .error e) : job.Complains size pe e := by
  have hlen : (job.portion size pe).connectivity.length % 4 = 0 := by
    have := length_nodes job size pe
    show (job.nodes size pe).length % 4 = 0
    omega
  rcases Portion.of_centroids_eq_error hlen h with hc | ⟨x, hx, rfl⟩
  · exact .coordinates hc
  · exact .missing hx

theorem centroids_eq {c : Centroids} (h : (job.portion size pe).centroids job.reader = .ok c) :
    c = .ofPoints (job.points size pe) := by
  obtain ⟨ps, -, rfl⟩ := Portion.of_centroids_eq_ok h
  unfold points
  rw [h]
  dsimp only
  rw [Centroids.points?_ofPoints]
  rfl

/-- A processing element that has read its block. -/
def loaded (job : Job) (size pe : Nat) : Worker :=
  { job.fresh size pe with
    started := true, total := job.total, portion := job.portion size pe, completions := [.reading] }

theorem start_fresh (job : Job) (size pe : Nat) : (job.fresh size pe).start =
    (Worker.read { job.fresh size pe with started := true }).append fun w =>
      w.drain.mapError .error :=
  rfl

theorem start_of_read_error {e : Failure MeshError}
    (h : Portion.read job.reader size pe = .error e) :
    (job.fresh size pe).start.result = .error (e.map .mesh) := by
  have hreader : (job.fresh size pe).reader = job.reader := rfl
  rw [start_fresh]
  unfold Worker.read
  dsimp only
  rw [hreader]
  cases hc : job.reader.count with
  | error e' =>
    rw [Portion.read_of_error hc] at h
    cases h
    rfl
  | ok total =>
    have hp : Portion.read job.reader (job.fresh size pe).pes (job.fresh size pe).rank =
      .error e := h
    dsimp only
    rw [hp]
    rfl

theorem start_of_read {p : Portion} (h : Portion.read job.reader size pe = .ok p) (hs : 0 < size) :
    (job.fresh size pe).start =
      (Outcome.ok (job.loaded size pe)
        [.contribute (.load ((job.scenario size).span pe).size)]).append fun w =>
          w.drain.mapError .error := by
  obtain ⟨hcount, rfl⟩ := of_read_eq_ok h
  have hc : (job.fresh size pe).reader.count = .ok job.total := hcount
  have hp : Portion.read (job.fresh size pe).reader (job.fresh size pe).pes
      (job.fresh size pe).rank = .ok (job.portion size pe) := h
  have hsize : (job.portion size pe).size = ((job.scenario size).span pe).size := by
    rw [span_scenario hs]
    exact Span.length_toList _
  rw [start_fresh]
  simp only [Worker.read, hc, hp, hsize]
  rfl

theorem worker_eq (h : pe < size) : ((job.scenario size).worker pe {}).withReader job.reader =
    { job.loaded size pe with completions := [], phase := .ready } := by
  have hc : ¬ (job.scenario size).Complete pe {} := Scenario.not_complete rfl
  have hset : ¬ (job.scenario size).Settled pe {} := Scenario.not_settled hc
  simp only [Scenario.worker, Worker.withReader, Scenario.phase, hc, hset, ↓reduceIte,
    portion_scenario h, size_scenario (Nat.zero_lt_of_lt h)]
  rfl

/-- Where the host wants centroids, a rank finds them before it tells the host of its elements. -/
theorem drain_loaded (h : pe < size) :
    (∃ e, job.Complains size pe e ∧ (job.loaded size pe).drain.result = .error (.mesh e)) ∨
    (job.loaded size pe).drain =
      .ok (((job.scenario size).worker pe {}).withReader job.reader)
        [.contribute .setup, .contribute (.elements (job.slice size pe))] := by
  have hreader : (job.loaded size pe).reader = job.reader := rfl
  have hportion : (job.loaded size pe).portion = job.portion size pe := rfl
  rw [worker_eq h, Worker.drain_of_cons rfl]
  unfold Worker.complete
  cases hg : job.partitioner.geometric with
  | false =>
    rw [if_neg (by simp [loaded, fresh, hg])]
    simp only [Worker.ready, Outcome.append_ok]
    rw [Worker.drain_of_nil rfl]
    simp only [slice, ElementSlice.ofBlock, hg, Bool.false_eq_true, ↓reduceIte]
    exact .inr rfl
  | true =>
    rw [if_pos (by simp [loaded, fresh, hg])]
    simp only [Worker.findCentroids, hreader, hportion]
    cases hp : (job.portion size pe).centroids job.reader with
    | error e => exact .inl ⟨e, complains_of_centroids hp, rfl⟩
    | ok c =>
      simp only [Outcome.append_ok]
      rw [Worker.drain_of_cons rfl]
      simp only [Worker.complete, Worker.ready, Outcome.append_ok]
      rw [Worker.drain_of_nil rfl]
      simp only [slice, ElementSlice.ofBlock, hg, ↓reduceIte, centroids_eq hp]
      exact .inr rfl

/-- A rank cannot read its block, or tells the host of it. -/
theorem start_cases (hr : job.Readable size) (h : pe < size) :
    (∃ e, job.Complains size pe e ∧
      (job.fresh size pe).start.result = .error (.error (.mesh e))) ∨
    ∃ p, Portion.read job.reader size pe = .ok p ∧
      (job.fresh size pe).start =
        .ok (((job.scenario size).worker pe {}).withReader job.reader)
          [.contribute (.load ((job.scenario size).span pe).size), .contribute .setup,
            .contribute (.elements (job.slice size pe))] := by
  cases hread : Portion.read job.reader size pe with
  | error e =>
    cases e with
    | error e => exact .inl ⟨e, complains_of_read hread, start_of_read_error hread⟩
    | crash c => exact absurd hread (hr pe h c)
  | ok p =>
    rw [start_of_read hread (Nat.zero_lt_of_lt h), Outcome.append_ok]
    rcases @drain_loaded job size pe h with ⟨e, hc, he⟩ | hok
    · refine .inl ⟨e, hc, ?_⟩
      rw [Outcome.result_map, Outcome.mapError, he]
      rfl
    · rw [hok]
      exact .inr ⟨p, rfl, rfl⟩

/-! ### The answer of the host -/

theorem decideUnits_cases (hv : job.settings.validate = .ok ()) (hs : 0 < size) :
    (∃ n, (job.settings.units = some n ∨ job.settings.units = none ∧ n ≤ job.total) ∧
      (size ≤ n ∧ (job.freshHost size).decideUnits job.total = .ok n ∨
        n < size ∧ (job.freshHost size).decideUnits job.total = .error (.tooFewUnits n size))) ∨
    (job.freshHost size).decideUnits job.total = .error (.settings (.load job.total size)) := by
  have hpick : ∀ n : Nat, size ≤ n ∧ (if n < size then .error (.tooFewUnits n size) else .ok n :
      Except RunError Nat) = .ok n ∨ n < size ∧ (if n < size then .error (.tooFewUnits n size)
        else .ok n : Except RunError Nat) = .error (.tooFewUnits n size) := by
    intro n
    by_cases hn : n < size
    · exact .inr ⟨hn, if_pos hn⟩
    · exact .inl ⟨Nat.le_of_not_lt hn, if_neg hn⟩
  unfold Host.decideUnits
  simp only [freshHost, bind, Except.bind, pure, Except.pure, throw, throwThe,
    MonadExceptOf.throw]
  cases hu : job.settings.units with
  | some n => exact .inl ⟨n, .inl rfl, hpick n⟩
  | none =>
    have hshare : Settings.isShare job.settings.virtualization = true := by
      by_contra hn
      unfold Settings.validate at hv
      rw [if_pos (by simpa using hn)] at hv
      cases hv
    unfold Granularity.ofShare
    rw [hshare, if_neg (by simp), if_neg (Nat.ne_of_gt hs)]
    by_cases hl : job.total < size
    · rw [if_pos hl]
      exact .inr rfl
    · rw [if_neg hl]
      exact .inl ⟨_, .inr ⟨rfl, Nat.div_le_self _ _⟩, hpick _⟩

/-- Why the host cannot share out the elements, if it cannot. A crash ends the program. -/
def refusal (job : Job) (size : Nat) : Option RunError :=
  match job.verdict size with
  | .ok _ => none
  | .error (.error e) => some e
  | .error (.crash _) => some (.stalled size)

/-- What the partitioner is given. -/
def input (job : Job) (size : Nat) : PartitionInput :=
  Host.inputOf job.total size job.partitioner.geometric (job.nodes size) (job.points size)

theorem verdict_of_units {n : Nat} (hs : 0 < size)
    (hn : (job.freshHost size).decideUnits job.total = .ok n) :
    job.verdict size =
      if Host.Gathered.maxElements < job.total then .error (.crash .outOfRoom)
      else
        match job.partitioner.assign (job.input size) n with
        | .error e => .error (e.map .partition)
        | .ok ids =>
            if ids.length = job.total then .ok ids
            else .error (.error (.internal 0 (.assigned job.partitioner.name ids.length
              job.total))) := by
  unfold verdict
  rw [hn]
  exact Host.assign_ofBlock (fun pe _ => length_nodes job size pe)
    (fun pe _ => length_points job size pe) hs rfl

theorem of_verdict_eq_ok {ids : List Nat} (hv : job.settings.validate = .ok ()) (hs : 0 < size)
    (h : job.verdict size = .ok ids) :
    (job.freshHost size).decideUnits job.total = .ok (job.units size) ∧ size ≤ job.units size ∧
      job.total ≤ Host.Gathered.maxElements ∧
      job.partitioner.assign (job.input size) (job.units size) = .ok ids ∧
      ids.length = job.total := by
  rcases decideUnits_cases hv hs with ⟨n, -, ⟨hle, hn⟩ | ⟨-, hn⟩⟩ | hn
  · have hunits : job.units size = n := by rw [units, hn]
    rw [verdict_of_units hs hn] at h
    rw [hunits]
    split at h
    · cases h
    · next hmax =>
      cases ha : job.partitioner.assign (job.input size) n with
      | error e =>
        rw [ha] at h
        cases h
      | ok answer =>
        rw [ha] at h
        dsimp only at h
        split at h
        · next hlen =>
          cases h
          exact ⟨hn, hle, Nat.le_of_not_lt hmax, rfl, hlen⟩
        · cases h
  · rw [verdict, hn] at h
    cases h
  · rw [verdict, hn] at h
    cases h

/-- Why the host has no answer. -/
inductive Refuses (job : Job) (size : Nat) : Failure RunError → Prop where
  | units {n : Nat} : n < size → Refuses job size (.error (.tooFewUnits n size))
  | load : Refuses job size (.error (.settings (.load job.total size)))
  | room : Host.Gathered.maxElements < job.total → Refuses job size (.crash .outOfRoom)
  | partitioner {e : Failure PartitionError} : 0 < job.units size →
      job.partitioner.assign (job.input size) (job.units size) = .error e →
      Refuses job size (e.map .partition)
  | assigned {ids : List Nat} : 0 < job.units size →
      job.partitioner.assign (job.input size) (job.units size) = .ok ids →
      Refuses job size (.error (.internal 0 (.assigned job.partitioner.name ids.length job.total)))

theorem refuses_of_verdict {e : Failure RunError} (hv : job.settings.validate = .ok ())
    (hs : 0 < size) (h : job.verdict size = .error e) : job.Refuses size e := by
  rcases decideUnits_cases hv hs with ⟨n, -, ⟨hle, hn⟩ | ⟨hlt, hn⟩⟩ | hn
  · obtain rfl : job.units size = n := by rw [units, hn]
    have hpos : 0 < job.units size := hs.trans_le hle
    rw [verdict_of_units hs hn] at h
    split at h
    · next hmax =>
      cases h
      exact .room hmax
    · cases ha : job.partitioner.assign (job.input size) (job.units size) with
      | error e =>
        rw [ha] at h
        cases h
        exact .partitioner hpos ha
      | ok answer =>
        rw [ha] at h
        dsimp only at h
        split at h
        · cases h
        · cases h
          exact .assigned hpos ha
  · rw [verdict, hn] at h
    cases h
    exact .units hlt
  · rw [verdict, hn] at h
    cases h
    exact .load

/-- The host has an answer for the scenario exactly if it has one for the slices of the ranks. -/
theorem answer_eq_ok_iff {ids : List Nat} (hv : job.settings.validate = .ok ()) (hs : 0 < size) :
    (job.scenario size).answer = .ok ids ↔ job.verdict size = .ok ids := by
  rw [Scenario.answer_eq_ok_iff, size_scenario hs]
  have hassign : (job.scenario size).partitioner.assign
      ((job.scenario size).mesh.input (job.scenario size).partitioner.geometric)
        (job.scenario size).units = .ok ids ↔ job.verdict size = .ok ids := by
    show (job.verdict size).mapError _ = .ok ids ↔ _
    cases job.verdict size <;> simp [Except.mapError]
  rw [hassign]
  constructor
  · rintro ⟨-, -, hids, -⟩
    exact hids
  · intro hids
    obtain ⟨-, hle, hmax, -, hlen⟩ := of_verdict_eq_ok hv hs hids
    exact ⟨hle, hmax, hids, hlen⟩

theorem of_refusal_eq_none (h : job.refusal size = none) : ∃ ids, job.verdict size = .ok ids := by
  unfold refusal at h
  split at h
  · next ids hids => exact ⟨ids, hids⟩
  · cases h
  · cases h

theorem refusal_eq_none_iff (hv : job.settings.validate = .ok ()) (hs : 0 < size) :
    job.refusal size = none ↔ (job.scenario size).Answered := by
  constructor
  · intro h
    obtain ⟨ids, hids⟩ := of_refusal_eq_none h
    exact Scenario.answered_of_eq ((answer_eq_ok_iff hv hs).2 hids)
  · intro h
    rw [refusal, (answer_eq_ok_iff hv hs).1 h]

end Job
end MeshDecomp
