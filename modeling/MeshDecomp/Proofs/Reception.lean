import MeshDecomp.Proofs.Jobs
import MeshDecomp.Proofs.Launch

/-!
The host of ranks with any reader and any partitioner. Up to the partitioning it holds what the
ranks brought; from then on it does what the host of the scenario does.
-/

namespace MeshDecomp

namespace Host

/-- A host with other settings, another partitioner and other slices. -/
def withInput (settings : Settings) (partitioner : Partitioner) (slices : Tally ElementSlice)
    (h : Host) : Host := { h with settings, partitioner, slices }

/-- A host whose settings, partitioner and slices are changed. -/
def revise (f : Settings → Settings) (g : Partitioner → Partitioner)
    (k : Tally ElementSlice → Tally ElementSlice) (h : Host) : Host :=
  { h with settings := f h.settings, partitioner := g h.partitioner, slices := k h.slices }

section

variable {f : Settings → Settings} {g : Partitioner → Partitioner}
  {k : Tally ElementSlice → Tally ElementSlice} {h : Host} {pe : Nat} {c : Contribution}

theorem fill_revise {tally : Tally α} {kind : Contribution.Kind} {a : α}
    {go go' : Tally α → Result (List Directive)}
    (hgo : ∀ t, tally.insert kind pe a = .ok t → go' t = (go t).mapState (revise f g k)) :
    (h.revise f g k).fill tally kind pe a go' =
      (h.fill tally kind pe a go).mapState (revise f g k) := by
  unfold fill
  cases hi : tally.insert kind pe a with
  | error e => rfl
  | ok t => exact hgo t hi

theorem tryReorder_revise :
    (h.revise f g k).tryReorder = h.tryReorder.mapState (revise f g k) := by
  unfold tryReorder
  rw [apply_ite (Outcome.mapState _), apply_ite (Outcome.mapState _)]
  rfl

/-- Only what counts for the partitioning makes the host look at its settings, its partitioner and
its slices. -/
theorem contribute_revise (hk : c.kind ∉ Barrier.partition.kinds) :
    (h.revise f g k).contribute pe c = (h.contribute pe c).mapState (revise f g k) := by
  cases c with
  | load | setup | elements => simp [Contribution.kind, Barrier.kinds] at hk
  | distributed => exact fill_revise fun t _ => rfl
  | flattened => exact fill_revise fun t _ => tryReorder_revise (h := { h with flattenings := t })
  | nodes => exact fill_revise fun t _ => tryReorder_revise (h := { h with nodeSets := t })
  | cost =>
    refine fill_revise fun t _ => ?_
    dsimp only
    rw [apply_ite (Outcome.mapState _)]
    rfl
  | deviation => exact fill_revise fun t _ => rfl

end

theorem contribute_withInput {settings : Settings} {partitioner : Partitioner}
    {slices : Tally ElementSlice} {h : Host} {pe : Nat} {c : Contribution}
    (hk : c.kind ∉ Barrier.partition.kinds) :
    (h.withInput settings partitioner slices).contribute pe c =
      (h.contribute pe c).mapState (withInput settings partitioner slices) :=
  contribute_revise (f := fun _ => settings) (g := fun _ => partitioner) (k := fun _ => slices) hk

end Host

namespace Job

/-- The slices that the host holds: those of a history, until it has acted on them. -/
def slices (job : Job) (size : Nat) (H : List Letter) (acted : Bool) : Tally ElementSlice :=
  let t := (job.scenario size).tally .elements (job.slice size) H
  if acted then t.clear else t

/-- The host after a history. -/
def host (job : Job) (size : Nat) (H : List Letter) : Host :=
  ((job.scenario size).host H).withInput job.settings job.partitioner
    (job.slices size H ((job.scenario size).Gathered .partition H))

/-- Upon a contribution the host counts it, and goes on from there. -/
def next (job : Job) (size : Nat) (H : List Letter) (m : Letter) : Host :=
  ((job.scenario size).next H m).withInput job.settings job.partitioner
    (job.slices size (H ++ [m]) ((job.scenario size).Gathered .partition H))

/-- What a rank contributes: the elements that it read, and otherwise what the scenario says. -/
def contribution (job : Job) (size pe : Nat) : Contribution.Kind → Contribution
  | .elements => .elements (job.slice size pe)
  | k => (job.scenario size).contribution pe k

variable {job : Job} {size pe : Nat} {H : List Letter} {k : Contribution.Kind} {m : Letter}

theorem kind_contribution : (job.contribution size pe k).kind = k := by
  cases k <;> rfl

theorem host_nil (hs : 0 < size) : job.host size [] = job.freshHost size := by
  have hn : ¬ (job.scenario size).Gathered .partition [] := Scenario.not_gathered_nil hs _
  unfold host slices
  rw [Scenario.host_nil hs]
  simp only [hn, decide_false, Bool.false_eq_true, ↓reduceIte]
  rfl

theorem slices_concat_of_ne (h : ∀ pe, m ≠ .contribution .elements pe) (acted : Bool) :
    job.slices size (H ++ [m]) acted = job.slices size H acted := by
  unfold slices
  rw [Scenario.tally_concat_of_ne h]

theorem host_concat_of_receiver {p : Nat} (hr : m.receiver? = some p) :
    job.host size (H ++ [m]) = job.host size H := by
  have hne : ∀ pe, m ≠ .contribution .elements pe := by
    rintro pe rfl
    cases hr
  unfold host
  rw [Scenario.host_concat_of_receiver hr, slices_concat_of_ne hne]
  simp only [Scenario.gathered_concat_of_receiver hr]

/-- A contribution that does not count for the partitioning. -/
theorem contribute_later (h : (job.scenario size).History H)
    (hs : (job.scenario size).Sent H (.contribution k pe)) (hn : .contribution k pe ∉ H)
    (hk : k ∉ Barrier.partition.kinds) :
    (job.host size H).contribute pe (job.contribution size pe k) =
      .ok (job.host size (H ++ [.contribution k pe]))
        ((job.scenario size).upon (H ++ [.contribution k pe]) k) := by
  have hc : job.contribution size pe k = (job.scenario size).contribution pe k := by
    cases k <;> first | rfl | exact absurd (by decide) hk
  have hkind : ((job.scenario size).contribution pe k).kind ∉ Barrier.partition.kinds := by
    rw [← hc, kind_contribution]
    exact hk
  have hne : ∀ p, (Letter.contribution k pe) ≠ .contribution .elements p := by
    rintro p ⟨⟩
    exact hk (by decide)
  unfold host
  rw [hc, Host.contribute_withInput hkind,
    Scenario.contribute_later h hs hn (mt Scenario.mem_kinds.2 hk), Outcome.mapState_ok,
    slices_concat_of_ne hne]
  simp only [Scenario.gathered_concat hk]

theorem contribute_partition (hk : k ∈ Barrier.partition.kinds) (hpe : pe < size)
    (hn : .contribution k pe ∉ H) :
    (job.host size H).contribute pe (job.contribution size pe k) =
      (job.next size H (.contribution k pe)).tryPartition := by
  have hgn : ¬ (job.scenario size).Gathered .partition H := Scenario.not_gathered hk hpe hn
  have hslices : (job.scenario size).tally .elements (job.slice size) H =
      (job.host size H).slices := by
    simp [host, Host.withInput, slices, hgn]
  cases k with
  | load =>
    have hnext : job.next size H (.contribution .load pe) = { job.host size H with
        loads := (job.scenario size).tally .load (fun pe => ((job.scenario size).span pe).size)
          (H ++ [.contribution .load pe]) } := by
      simp [next, host, Scenario.next, Scenario.host, Scenario.counting, Host.withInput,
        Scenario.tally_concat_of_ne, slices]
    rw [hnext]
    exact Scenario.fill_host (Scenario.insert_tally hpe hn)
  | setup =>
    have hnext : job.next size H (.contribution .setup pe) = { job.host size H with
        setups := (job.scenario size).tally .setup (fun _ => ())
          (H ++ [.contribution .setup pe]) } := by
      simp [next, host, Scenario.next, Scenario.host, Scenario.counting, Host.withInput,
        Scenario.tally_concat_of_ne, slices]
    rw [hnext]
    exact Scenario.fill_host (Scenario.insert_tally_unit hpe hn)
  | elements =>
    have hnext : job.next size H (.contribution .elements pe) = { job.host size H with
        slices := (job.scenario size).tally .elements (job.slice size)
          (H ++ [.contribution .elements pe]) } := by
      simp [next, host, Scenario.next, Scenario.host, Scenario.counting, Host.withInput,
        Scenario.tally_concat_of_ne, slices, hgn]
    rw [hnext]
    exact Scenario.fill_host (hslices ▸ Scenario.insert_tally hpe hn)
  | distributed | flattened | nodes | cost | deviation => simp [Barrier.kinds] at hk

/-- Everyone is told the share of the elements that it read. -/
theorem scatter_slices {ids : List Nat} (hs : 0 < size)
    (ha : (job.scenario size).answer = .ok ids) :
    Host.scatter (job.units size) 0 ((List.range size).map (job.slice size)) ids =
      (job.scenario size).directives .partition := by
  have hassignment : (job.scenario size).assignment = ids := by
    rw [Scenario.assignment, ha]
  have hscatter : Host.scatter (job.units size) 0 ((List.range' 0 size).map (job.slice size)) _ =
      _ := Host.scatter_ofBlock (fun pe _ => length_nodes job size pe) (job.units size) size 0
        (by omega) ids
  rw [Block.mark_zero hs, List.drop_zero, ← List.range_eq_range'] at hscatter
  rw [hscatter]
  refine List.map_congr_left fun pe _ => ?_
  have hspan : Block.span job.total size pe = (job.scenario size).span pe :=
    (span_scenario hs pe).symm
  rw [hspan, ← hassignment]
  rfl

section

variable (hs : 0 < size) (hg : (job.scenario size).Genuine (H ++ [m]))
  (hn : ¬ (job.scenario size).Gathered .partition H)

include hg hn

theorem complete_next : ((job.next size H m).loads.complete &&
    (job.next size H m).setups.complete && (job.next size H m).slices.complete) = true ↔
      (job.scenario size).Gathered .partition (H ++ [m]) := by
  have hslices : (job.next size H m).slices.complete =
      ((job.scenario size).next H m).slices.complete := by
    rw [Scenario.slices_next hn]
    simp only [next, Host.withInput, slices, hn, decide_false, Bool.false_eq_true, ↓reduceIte]
    rfl
  rw [hslices]
  exact Scenario.complete_partition hg hn

theorem values_slices (hgd : (job.scenario size).Gathered .partition (H ++ [m])) :
    (job.next size H m).slices.values = (List.range size).map (job.slice size) := by
  have hslices : (job.next size H m).slices =
      (job.scenario size).tally .elements (job.slice size) (H ++ [m]) := by
    simp [next, Host.withInput, slices, hn]
  rw [hslices, hg.values_tally (Scenario.gathered_iff.1 hgd _ (by decide))]
  rfl

include hs

omit hn in
theorem sum_loads (hgd : (job.scenario size).Gathered .partition (H ++ [m])) :
    (job.next size H m).loads.values.foldr (· + ·) 0 = job.total := by
  have hvalues : (job.next size H m).loads.values = _ :=
    hg.values_tally (Scenario.gathered_iff.1 hgd _ (by decide))
  rw [hvalues, Scenario.sum_span hs, size_scenario hs]

/-- With the slices of all ranks the host makes of them what a new one would. -/
theorem tryPartition_of_verdict_ok {ids : List Nat} (hv : job.settings.validate = .ok ())
    (hgd : (job.scenario size).Gathered .partition (H ++ [m]))
    (hb : ∀ b, b ≠ .partition → ((job.scenario size).Gathered b (H ++ [m]) ↔
      (job.scenario size).Gathered b H)) (hids : job.verdict size = .ok ids) :
    (job.next size H m).tryPartition = .ok (job.host size (H ++ [m]))
      ((job.scenario size).directives .partition) := by
  obtain ⟨hunits, -⟩ := of_verdict_eq_ok hv hs hids
  have hdecide : Host.decideUnits { job.next size H m with elements := job.total } job.total =
      .ok (job.units size) := hunits
  have hassign : ∀ slices, Host.assign { job.next size H m with
      elements := job.total, units := job.units size, slices }
        ((List.range size).map (job.slice size)) = .ok ids := by
    intro slices
    rw [verdict, hunits] at hids
    exact hids
  have hother := And.intro (@Scenario.decide_gathered _ _ _ _ .reorder hb (by decide))
    (@Scenario.decide_gathered _ _ _ _ .deviation hb (by decide))
  rw [Host.tryPartition, if_pos ((complete_next hg hn).2 hgd)]
  simp only [sum_loads hs hg hgd, values_slices hg hn hgd, hdecide, hassign,
    scatter_slices hs ((answer_eq_ok_iff hv hs).2 hids)]
  congr 1
  simp only [next, host, Host.withInput, slices, Scenario.next, Scenario.host, Scenario.counting,
    hother, hn, hgd, size_scenario hs]
  simp [units_scenario]

theorem tryPartition_of_verdict_error {e : Failure RunError}
    (hgd : (job.scenario size).Gathered .partition (H ++ [m])) (he : job.verdict size = .error e) :
    (job.next size H m).tryPartition.result = .error e := by
  have hdecide : Host.decideUnits { job.next size H m with elements := job.total } job.total =
      (job.freshHost size).decideUnits job.total := rfl
  have hassign : ∀ (slices : Tally ElementSlice) (units : Nat) (l : List ElementSlice),
      Host.assign { job.next size H m with elements := job.total, units, slices } l =
        Host.assign { job.freshHost size with elements := job.total, units } l := fun _ _ _ => rfl
  rw [Host.tryPartition, if_pos ((complete_next hg hn).2 hgd)]
  simp only [sum_loads hs hg hgd, values_slices hg hn hgd, hdecide]
  rw [verdict] at he
  cases hd : (job.freshHost size).decideUnits job.total with
  | error e' =>
    rw [hd] at he
    cases he
    rfl
  | ok units =>
    rw [hd] at he
    dsimp only at he ⊢
    rw [hassign, he]
    rfl

omit hs in
/-- Until all ranks contributed the host only counts. -/
theorem tryPartition_of_not_gathered
    (hb : ∀ b, b ≠ .partition → ((job.scenario size).Gathered b (H ++ [m]) ↔
      (job.scenario size).Gathered b H))
    (hgd : ¬ (job.scenario size).Gathered .partition (H ++ [m])) :
    (job.next size H m).tryPartition = .ok (job.host size (H ++ [m])) [] := by
  have hother := And.intro (@Scenario.decide_gathered _ _ _ _ .reorder hb (by decide))
    (@Scenario.decide_gathered _ _ _ _ .deviation hb (by decide))
  rw [Host.tryPartition, if_neg (mt (complete_next hg hn).1 hgd)]
  congr 1
  simp only [next, host, Host.withInput, slices, Scenario.next, Scenario.host, Scenario.counting,
    hother, hn, hgd]

end

/-! ### A contribution -/

/-- A contribution is counted, and the last one for a barrier is acted upon. -/
theorem contribute_eq (hv : job.settings.validate = .ok ()) (h : (job.scenario size).History H)
    (hs : (job.scenario size).Sent H (.contribution k pe)) (hn : .contribution k pe ∉ H)
    (hok : (job.scenario size).Gathered .partition (H ++ [.contribution k pe]) →
      job.refusal size = none) :
    (job.host size H).contribute pe (job.contribution size pe k) =
      .ok (job.host size (H ++ [.contribution k pe]))
        ((job.scenario size).upon (H ++ [.contribution k pe]) k) := by
  have hpe : pe < size := hs.1
  have hsize := Nat.zero_lt_of_lt hpe
  by_cases hk : k ∈ Barrier.partition.kinds
  · have hg : (job.scenario size).Genuine (H ++ [.contribution k pe]) := h.genuine.concat hs.1 hn
    have hno : ¬ (job.scenario size).Gathered .partition H := Scenario.not_gathered hk hpe hn
    have hb : ∀ b, b ≠ .partition →
        ((job.scenario size).Gathered b (H ++ [.contribution k pe]) ↔
          (job.scenario size).Gathered b H) := fun b hne =>
      Scenario.barrier_ne (Scenario.mem_kinds.1 hk) hne
    rw [contribute_partition hk hpe hn, Scenario.upon, Scenario.mem_kinds.1 hk]
    by_cases hgd : (job.scenario size).Gathered .partition (H ++ [.contribution k pe])
    · obtain ⟨ids, hids⟩ := of_refusal_eq_none (hok hgd)
      rw [tryPartition_of_verdict_ok hsize hg hno hv hgd hb hids]
      simp only [hgd, ↓reduceIte]
    · rw [tryPartition_of_not_gathered hg hno hb hgd]
      simp only [hgd, ↓reduceIte]
  · exact contribute_later h hs hn hk

/-- The last contribution before the partitioning makes a host fail that has no answer. -/
theorem contribute_error {e : Failure RunError} (hv : job.settings.validate = .ok ())
    (h : (job.scenario size).History H)
    (hs : (job.scenario size).Sent H (.contribution k pe)) (hn : .contribution k pe ∉ H)
    (hg : (job.scenario size).Gathered .partition (H ++ [.contribution k pe]))
    (he : job.verdict size = .error e) :
    ((job.host size H).contribute pe (job.contribution size pe k)).result = .error e := by
  have hpe : pe < size := hs.1
  have hsize := Nat.zero_lt_of_lt hpe
  have hk : k ∈ Barrier.partition.kinds := by
    by_contra hk
    have hgd : (job.scenario size).Gathered .partition H := (Scenario.gathered_concat hk).1 hg
    have hids := (answer_eq_ok_iff hv hsize).1 (h.answered hgd)
    cases hids.symm.trans he
  rw [contribute_partition hk hpe hn]
  exact tryPartition_of_verdict_error hsize (h.genuine.concat hs.1 hn)
    (Scenario.not_gathered hk hpe hn) hg he

end Job
end MeshDecomp
