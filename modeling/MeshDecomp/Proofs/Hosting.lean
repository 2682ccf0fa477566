import MeshDecomp.Proofs.Gathering
import MeshDecomp.Proofs.Tallies

/-! The host in closed form: what it counted, computed and wants done after any history. -/
namespace MeshDecomp

open Letter

/-- A host with other settings and another partitioner. -/
def Host.under (st : Settings) (p : Partitioner) (h : Host) : Host :=
  { h with settings := st, partitioner := p }

namespace Scenario

variable {S : Scenario} {H : List Letter} {pe : Nat} {k : Contribution.Kind} {b : Barrier}
  {m : Letter}

/-- The host before it acts on what it counted: `acted` tells which barriers it has passed. -/
def counting (S : Scenario) (H : List Letter) (acted : Barrier → Bool) : Host where
  pes := S.pes
  settings := S.settings
  partitioner := S.partitioner
  loads := S.tally .load (fun pe => (S.span pe).size) H
  setups := S.tally .setup (fun _ => ()) H
  slices :=
    let t := S.tally .elements S.elementSlice H
    if acted .partition then t.clear else t
  distributions := S.tally .distributed (fun _ => ()) H
  flattenings := S.tally .flattened (fun _ => ()) H
  nodeSets :=
    let t := S.tally .nodes S.nodes H
    if acted .reorder then t.clear else t
  costs := S.tally .cost S.cost H
  deviations := S.tally .deviation S.deviation H
  elements := if acted .partition then S.mesh.size else 0
  units := if acted .partition then S.units else 0
  nodes := if acted .reorder then S.used.length else 0
  meanCost := if acted .deviation then S.meanCost else .zero
  reordered := acted .reorder

/-- The host after a history. -/
def host (S : Scenario) (H : List Letter) : Host := S.counting H fun b => S.Gathered b H

/-- Upon a contribution the host counts it, and goes on from there. -/
def next (S : Scenario) (H : List Letter) (m : Letter) : Host :=
  S.counting (H ++ [m]) fun b => S.Gathered b H

theorem gathered_concat (hk : k ∉ b.kinds) :
    S.Gathered b (H ++ [.contribution k pe]) ↔ S.Gathered b H := by
  rw [gathered_iff, gathered_iff]
  refine forall₂_congr fun k' hk' => forall₂_congr fun p _ => ?_
  have hne : k' ≠ k := fun he => hk (he ▸ hk')
  simp [hne]

theorem not_gathered (hk : k ∈ b.kinds) (hpe : pe < S.pes) (hn : .contribution k pe ∉ H) :
    ¬ S.Gathered b H := fun h => hn (gathered_iff.1 h k hk pe hpe)

/-- The barrier that a contribution counts for; the last one counts for the report. -/
def barrier? : Contribution.Kind → Option Barrier
  | .load => some .partition
  | .setup => some .partition
  | .elements => some .partition
  | .distributed => some .flatten
  | .flattened => some .reorder
  | .nodes => some .reorder
  | .cost => some .deviation
  | .deviation => none

theorem mem_kinds : k ∈ b.kinds ↔ barrier? k = some b := by
  cases k <;> cases b <;> decide

/-- What the host wants done at a barrier. -/
def directives (S : Scenario) : Barrier → List Directive
  | .partition => (List.range S.pes).map fun pe => .tell pe (S.command pe .partition)
  | .flatten => [.broadcast .flatten]
  | .reorder => (List.range S.pes).map fun pe => .tell pe (S.command pe .reorder)
  | .deviation => [.broadcast (.deviation S.meanCost)]

theorem parcels_directives (b : Barrier) :
    (S.directives b).flatMap (Directive.parcels S.pes) =
      ((List.range S.pes).map (Letter.command b)).map S.parcel := by
  have htell : ∀ (c : Nat → Command) (l : List Nat),
      (l.map fun pe => Directive.tell pe (c pe)).flatMap (Directive.parcels S.pes) =
        l.map fun pe => ⟨.pe pe, 0, .command (c pe)⟩ := by
    intro c l
    induction l with
    | nil => rfl
    | cons pe l ih =>
      rw [List.map_cons, List.flatMap_cons, ih]
      rfl
  cases b <;> simp [directives, htell, Directive.parcels, parcel, command, Function.comp_def]

theorem report_directives (b : Barrier) : (S.directives b).findSome? Directive.report? = none := by
  cases b <;> simp [directives, Directive.report?]

theorem decideUnits_eq (hu : S.settings.units.isSome) {h : Host} (hs : h.settings = S.settings)
    (hp : h.pes = S.pes) :
    h.decideUnits S.mesh.size =
      if S.units < S.pes then .error (.tooFewUnits S.units S.pes) else .ok S.units := by
  have hunits : S.settings.units = some S.units := by
    obtain ⟨n, hn⟩ := Option.isSome_iff_exists.1 hu
    simp [units, hn]
  simp only [Host.decideUnits, hs, hunits, hp, bind, Except.bind, pure, Except.pure]
  split <;> rfl

/-- A contribution to one barrier leaves the others as they are. -/
theorem decide_gathered {b b' : Barrier}
    (hb : ∀ b', b' ≠ b → (S.Gathered b' (H ++ [m]) ↔ S.Gathered b' H)) (hne : b' ≠ b) :
    decide (S.Gathered b' H) = decide (S.Gathered b' (H ++ [m])) :=
  decide_eq_decide.2 (hb b' hne).symm

/-! ### The partitioning -/

theorem slices_next (hn : ¬ S.Gathered .partition H) :
    (S.next H m).slices = S.tally .elements S.elementSlice (H ++ [m]) := by
  simp [next, counting, hn]

theorem complete_partition (hg : S.Genuine (H ++ [m])) (hn : ¬ S.Gathered .partition H) :
    ((S.next H m).loads.complete && (S.next H m).setups.complete &&
      (S.next H m).slices.complete) = true ↔ S.Gathered .partition (H ++ [m]) := by
  rw [Bool.and_eq_true, Bool.and_eq_true, slices_next hn, hg.complete_tally, gathered_iff]
  have hloads : (S.next H m).loads.complete = true ↔ _ := hg.complete_tally
  have hsetups : (S.next H m).setups.complete = true ↔ _ := hg.complete_tally
  rw [hloads, hsetups]
  simp [Barrier.kinds, and_assoc]

/-- The loads of all ranks are all elements. -/
theorem sum_loads_next (hp : 0 < S.pes) (hg : S.Genuine (H ++ [m]))
    (hgd : S.Gathered .partition (H ++ [m])) :
    (S.next H m).loads.values.foldr (· + ·) 0 = S.mesh.size := by
  have hv : (S.next H m).loads.values = _ := hg.values_tally (gathered_iff.1 hgd _ (by decide))
  rw [hv, sum_span hp]

theorem tryPartition_next (hp : 0 < S.pes) (hu : S.settings.units.isSome)
    (hg : S.Genuine (H ++ [m])) (hn : ¬ S.Gathered .partition H)
    (hb : ∀ b, b ≠ .partition → (S.Gathered b (H ++ [m]) ↔ S.Gathered b H)) :
    (¬ S.Gathered .partition (H ++ [m]) →
      (S.next H m).tryPartition = .ok (S.host (H ++ [m])) []) ∧
    (S.Gathered .partition (H ++ [m]) →
      (S.Answered →
        (S.next H m).tryPartition = .ok (S.host (H ++ [m])) (S.directives .partition)) ∧
      ∀ e, S.answer = .error e → (S.next H m).tryPartition.result = .error e) := by
  have hcond := complete_partition hg hn
  have hother := And.intro (@decide_gathered S _ _ _ .reorder hb (by decide))
    (@decide_gathered S _ _ _ .deviation hb (by decide))
  refine ⟨fun hgn => ?_, fun hgd => ?_⟩
  · rw [Host.tryPartition, if_neg (mt hcond.1 hgn)]
    simp only [next, host, counting, hother, hn, hgn]
  have hloads := sum_loads_next hp hg hgd
  have hvalues : (S.next H m).slices.values = (List.range S.pes).map S.elementSlice := by
    rw [slices_next hn, hg.values_tally (gathered_iff.1 hgd _ (by decide))]
  rw [Host.tryPartition, if_pos (hcond.2 hgd)]
  simp only [hloads, hvalues]
  rw [decideUnits_eq hu rfl rfl]
  by_cases hlt : S.units < S.pes
  · rw [if_pos hlt]
    have he : S.answer = .error (.error (.tooFewUnits S.units S.pes)) := by rw [answer, if_pos hlt]
    refine ⟨fun ha => ?_, fun e herr => ?_⟩
    · exact absurd (he.symm.trans ha) (by simp)
    · cases he.symm.trans herr
      rfl
  rw [if_neg hlt]
  dsimp only
  rw [assign_elementSlices hp (Nat.le_of_not_lt hlt) rfl rfl rfl]
  refine ⟨fun ha => ?_, fun e herr => ?_⟩
  · rw [show S.answer = _ from ha]
    dsimp only
    congr 1
    · simp only [next, host, counting, hother, hn, hgd]
      simp
    · exact scatter_elementSlices hp S.assignment
  · rw [herr]
    rfl

/-! ### The renumbering -/

theorem nodeSets_next (hn : ¬ S.Gathered .reorder H) :
    (S.next H m).nodeSets = S.tally .nodes S.nodes (H ++ [m]) := by
  simp [next, counting, hn]

theorem complete_reorder (hg : S.Genuine (H ++ [m])) (hn : ¬ S.Gathered .reorder H) :
    ((S.next H m).flattenings.complete && (S.next H m).nodeSets.complete) = true ↔
      S.Gathered .reorder (H ++ [m]) := by
  have hflat : (S.next H m).flattenings.complete = true ↔ _ := hg.complete_tally
  rw [Bool.and_eq_true, nodeSets_next hn, hg.complete_tally, hflat, gathered_iff]
  simp [Barrier.kinds]

/-- Every rank is told where its block starts and whom it has to ask. -/
theorem directives_reorder (hc : Sharing.Covers S.used S.sets) :
    ((Sharing.ofSets S.sets).asked.zip (Sharing.ofSets S.sets).starts).mapIdx
      (fun pe s => Directive.tell pe (.reorder s.2 s.1)) = S.directives .reorder := by
  have hlen : S.sets.length = S.pes := by simp [sets]
  have hasked : (Sharing.ofSets S.sets).asked.length = S.pes := by simp [Sharing.ofSets, hlen]
  apply List.ext_getElem?
  intro pe
  rw [List.getElem?_mapIdx, directives, List.getElem?_map]
  by_cases hp : pe < S.pes
  · have hstart := hc.starts_getElem? (hlen.symm ▸ hp)
    have hask : (Sharing.ofSets S.sets).asked[pe]? = some (S.asked pe) := by
      unfold asked
      rw [List.getElem?_eq_getElem (hasked.symm ▸ hp)]
      rfl
    have hzip : ((Sharing.ofSets S.sets).asked.zip (Sharing.ofSets S.sets).starts)[pe]? =
        some (S.asked pe, S.start pe) := List.getElem?_zip_eq_some.2 ⟨hask, hstart⟩
    rw [hzip, List.getElem?_range hp]
    rfl
  · have hle : S.pes ≤ pe := Nat.le_of_not_lt hp
    rw [List.getElem?_eq_none (by rw [List.length_zip, hasked]; omega),
      List.getElem?_eq_none (by rwa [List.length_range])]
    rfl

theorem tryReorder_next (hc : Sharing.Covers S.used S.sets)
    (hg : S.Genuine (H ++ [m])) (hn : ¬ S.Gathered .reorder H)
    (hb : ∀ b, b ≠ .reorder → (S.Gathered b (H ++ [m]) ↔ S.Gathered b H)) :
    (S.next H m).tryReorder = .ok (S.host (H ++ [m]))
      (if S.Gathered .reorder (H ++ [m]) then S.directives .reorder else []) := by
  have hreordered : (S.next H m).reordered = false := by simp [next, counting, hn]
  have hcond := complete_reorder hg hn
  have hother := And.intro (@decide_gathered S _ _ _ .partition hb (by decide))
    (@decide_gathered S _ _ _ .deviation hb (by decide))
  rw [Host.tryReorder, hreordered, if_neg Bool.false_ne_true]
  by_cases hgd : S.Gathered .reorder (H ++ [m])
  · have hvalues : (S.next H m).nodeSets.values = S.sets := by
      rw [nodeSets_next hn, hg.values_tally (gathered_iff.1 hgd _ (by decide))]
      rfl
    rw [if_pos (hcond.2 hgd), if_pos hgd, hvalues]
    dsimp only
    rw [directives_reorder hc, hc.total_eq]
    congr 1
    simp only [next, host, counting, hother, hn, hgd]
    simp
  · rw [if_neg (mt hcond.1 hgd), if_neg hgd]
    simp only [next, host, counting, hother, hn, hgd]

/-! ### Contributions -/

/-- What the host wants done upon a contribution. -/
def upon (S : Scenario) (H : List Letter) (k : Contribution.Kind) : List Directive :=
  match barrier? k with
  | some b => if S.Gathered b H then S.directives b else []
  | none => if S.Over H then [.finished S.report] else []

theorem fill_host {h : Host} {t : Tally α} {pe : Nat} {k : Contribution.Kind} {a : α} {t' : Tally α}
    {go : Tally α → Host.Result (List Directive)} (ht : t.insert k pe a = .ok t') :
    h.fill t k pe a go = go t' := by
  rw [Host.fill, ht]

/-- What the host counts does not depend on its settings. -/
theorem contribute_partition_under (st : Settings) (p : Partitioner)
    (hk : barrier? k = some .partition) (hpe : pe < S.pes) (hn : .contribution k pe ∉ H) :
    ((S.host H).under st p).contribute pe (S.contribution pe k) =
      ((S.next H (.contribution k pe)).under st p).tryPartition := by
  have hgn : ¬ S.Gathered .partition H := not_gathered (mem_kinds.2 hk) hpe hn
  cases k <;> simp only [barrier?, Option.some.injEq, reduceCtorEq] at hk
  · have hnext : S.next H (.contribution .load pe) = { S.host H with
        loads := S.tally .load (fun pe => (S.span pe).size) (H ++ [.contribution .load pe]) } := by
      simp [next, host, counting, tally_concat_of_ne]
    rw [hnext]
    exact fill_host (insert_tally hpe hn)
  · have hnext : S.next H (.contribution .setup pe) = { S.host H with
        setups := S.tally .setup (fun _ => ()) (H ++ [.contribution .setup pe]) } := by
      simp [next, host, counting, tally_concat_of_ne]
    rw [hnext]
    exact fill_host (insert_tally_unit hpe hn)
  · have hnext : S.next H (.contribution .elements pe) = { S.host H with
        slices := S.tally .elements S.elementSlice (H ++ [.contribution .elements pe]) } := by
      simp [next, host, counting, tally_concat_of_ne, hgn]
    have hslices : (S.host H).slices = S.tally .elements S.elementSlice H := by
      simp [host, counting, hgn]
    rw [hnext]
    exact fill_host (hslices ▸ insert_tally hpe hn)

theorem contribute_partition (hk : barrier? k = some .partition) (hpe : pe < S.pes)
    (hn : .contribution k pe ∉ H) :
    (S.host H).contribute pe (S.contribution pe k) =
      (S.next H (.contribution k pe)).tryPartition :=
  contribute_partition_under S.settings S.partitioner hk hpe hn

theorem contribute_reorder (hk : barrier? k = some .reorder) (hpe : pe < S.pes)
    (hn : .contribution k pe ∉ H) :
    (S.host H).contribute pe (S.contribution pe k) =
      (S.next H (.contribution k pe)).tryReorder := by
  have hgn : ¬ S.Gathered .reorder H := not_gathered (mem_kinds.2 hk) hpe hn
  cases k <;> simp only [barrier?, Option.some.injEq, reduceCtorEq] at hk
  · have hnext : S.next H (.contribution .flattened pe) = { S.host H with
        flattenings := S.tally .flattened (fun _ => ()) (H ++ [.contribution .flattened pe]) } := by
      simp [next, host, counting, tally_concat_of_ne]
    rw [hnext]
    exact fill_host (insert_tally_unit hpe hn)
  · have hnext : S.next H (.contribution .nodes pe) = { S.host H with
        nodeSets := S.tally .nodes S.nodes (H ++ [.contribution .nodes pe]) } := by
      simp [next, host, counting, tally_concat_of_ne, hgn]
    have hsets : (S.host H).nodeSets = S.tally .nodes S.nodes H := by
      simp [host, counting, hgn]
    rw [hnext]
    exact fill_host (hsets ▸ insert_tally hpe hn)

theorem barrier_ne (hk : barrier? k = some b) {b' : Barrier} (hne : b' ≠ b) :
    S.Gathered b' (H ++ [.contribution k pe]) ↔ S.Gathered b' H :=
  gathered_concat fun hk' => hne (Option.some.inj ((mem_kinds.1 hk').symm.trans hk))

theorem contribute_distributed (hg : S.Genuine (H ++ [.contribution .distributed pe]))
    (hpe : pe < S.pes) (hn : .contribution .distributed pe ∉ H) :
    (S.host H).contribute pe .distributed =
      .ok (S.host (H ++ [.contribution .distributed pe]))
        (if S.Gathered .flatten (H ++ [.contribution .distributed pe]) then S.directives .flatten
        else []) := by
  have hsame : ∀ b, b ≠ .flatten →
      (S.Gathered b (H ++ [.contribution .distributed pe]) ↔ S.Gathered b H) :=
    fun b hne => barrier_ne rfl hne
  have hhost : S.host (H ++ [.contribution .distributed pe]) = { S.host H with
      distributions :=
        S.tally .distributed (fun _ => ()) (H ++ [.contribution .distributed pe]) } := by
    simp [host, counting, tally_concat_of_ne, hsame]
  have hall : (S.tally .distributed (fun _ => ()) (H ++ [.contribution .distributed pe])).complete =
      true ↔ S.Gathered .flatten (H ++ [.contribution .distributed pe]) := by
    rw [hg.complete_tally, gathered_iff]
    simp [Barrier.kinds]
  refine (fill_host (insert_tally_unit hpe hn)).trans ?_
  rw [← hhost]
  simp only [hall]
  rfl

theorem contribute_cost (hg : S.Genuine (H ++ [.contribution .cost pe])) (hpe : pe < S.pes)
    (hn : .contribution .cost pe ∉ H) :
    (S.host H).contribute pe (.cost (S.cost pe)) =
      .ok (S.host (H ++ [.contribution .cost pe]))
        (if S.Gathered .deviation (H ++ [.contribution .cost pe]) then S.directives .deviation
        else []) := by
  have hgn : ¬ S.Gathered .deviation H := not_gathered (by decide) hpe hn
  have hsame : ∀ b, b ≠ .deviation →
      (S.Gathered b (H ++ [.contribution .cost pe]) ↔ S.Gathered b H) :=
    fun b hne => barrier_ne rfl hne
  have hhost : S.host (H ++ [.contribution .cost pe]) = { S.host H with
      costs := S.tally .cost S.cost (H ++ [.contribution .cost pe])
      meanCost :=
        if S.Gathered .deviation (H ++ [.contribution .cost pe]) then S.meanCost else .zero } := by
    simp [host, counting, tally_concat_of_ne, hsame]
  have hzero : (S.host H).meanCost = .zero := by simp [host, counting, hgn]
  have hall : (S.tally .cost S.cost (H ++ [.contribution .cost pe])).complete = true ↔
      S.Gathered .deviation (H ++ [.contribution .cost pe]) := by
    rw [hg.complete_tally, gathered_iff]
    simp [Barrier.kinds]
  refine (fill_host (insert_tally hpe hn)).trans ?_
  simp only [hall]
  by_cases hgd : S.Gathered .deviation (H ++ [.contribution .cost pe])
  · have hmean : Host.mean { S.host H with
        costs := S.tally .cost S.cost (H ++ [.contribution .cost pe]) }
        (S.tally .cost S.cost (H ++ [.contribution .cost pe])) = S.meanCost := by
      rw [Host.mean, hg.values_tally (gathered_iff.1 hgd _ (by decide))]
      rfl
    rw [hhost, hmean, if_pos hgd, if_pos hgd, if_pos hgd]
    rfl
  · rw [hhost, if_neg hgd, if_neg hgd, if_neg hgd, ← hzero]

theorem contribute_deviation (h : S.History H) (hs : S.Sent H (.contribution .deviation pe))
    (hn : .contribution .deviation pe ∉ H) :
    (S.host H).contribute pe (.deviation (S.deviation pe)) =
      .ok (S.host (H ++ [.contribution .deviation pe]))
        (if S.Over (H ++ [.contribution .deviation pe]) then [.finished S.report] else []) := by
  have hpe : pe < S.pes := hs.1
  have hg : S.Genuine (H ++ [.contribution .deviation pe]) := h.genuine.concat hpe hn
  have hsame : ∀ b, S.Gathered b (H ++ [.contribution .deviation pe]) ↔ S.Gathered b H :=
    fun b => gathered_concat (by cases b <;> decide)
  have hhost : S.host (H ++ [.contribution .deviation pe]) = { S.host H with
      deviations := S.tally .deviation S.deviation (H ++ [.contribution .deviation pe]) } := by
    simp [host, counting, tally_concat_of_ne, hsame]
  have hover : (S.tally .deviation S.deviation (H ++ [.contribution .deviation pe])).complete =
      true ↔ S.Over (H ++ [.contribution .deviation pe]) := hg.complete_tally
  refine (fill_host (insert_tally hpe hn)).trans ?_
  rw [← hhost]
  simp only [hover]
  by_cases ho : S.Over (H ++ [.contribution .deviation pe])
  · have hd : .command .deviation pe ∈ H := hs.2 _ List.mem_cons_self
    have hr : .command .reorder pe ∈ H :=
      (settled_iff.1 (h.settled_of_deviation hd)) _ (mem_settling.2 (.inl rfl))
    have hp : .command .partition pe ∈ H :=
      h.partition_of_flatten (h.flatten_of_reorder hr hpe) hpe
    have hvalues : (S.host (H ++ [.contribution .deviation pe])).deviations.values =
        (List.range S.pes).map S.deviation := hg.values_tally ho
    have hreport : (S.host (H ++ [.contribution .deviation pe])).report = S.report := by
      simp only [Host.report, Host.mean, hvalues]
      simp [host, counting, hsame, h.gathered hd, h.gathered hr, h.gathered hp, report, mean]
    simp only [ho, ↓reduceIte, hreport]
  · simp only [ho, ↓reduceIte]

/-- After the partitioning the host counts contributions, and acts on the last one of a kind. -/
theorem contribute_later (h : S.History H) (hs : S.Sent H (.contribution k pe))
    (hn : .contribution k pe ∉ H) (hk : barrier? k ≠ some .partition) :
    (S.host H).contribute pe (S.contribution pe k) =
      .ok (S.host (H ++ [.contribution k pe])) (S.upon (H ++ [.contribution k pe]) k) := by
  have hpe : pe < S.pes := hs.1
  have hg : S.Genuine (H ++ [.contribution k pe]) := h.genuine.concat hpe hn
  have hreorder (hk : barrier? k = some .reorder) (hf : .command .flatten pe ∈ H) :
      (S.host H).contribute pe (S.contribution pe k) =
        .ok (S.host (H ++ [.contribution k pe])) (S.upon (H ++ [.contribution k pe]) k) := by
    rw [contribute_reorder hk hpe hn, upon, hk]
    exact tryReorder_next (h.numbers hf).covers hg (not_gathered (mem_kinds.2 hk) hpe hn)
      fun b hne => barrier_ne hk hne
  cases k with
  | load | setup | elements => exact absurd rfl hk
  | distributed => exact contribute_distributed hg hpe hn
  | flattened | nodes => exact hreorder rfl (hs.2 _ List.mem_cons_self)
  | cost => exact contribute_cost hg hpe hn
  | deviation => exact contribute_deviation h hs hn

/-- The host counts a contribution, and acts on the last one of a kind. -/
theorem contribute_host (ha : S.Determined) (h : S.History H) (hs : S.Sent H (.contribution k pe))
    (hn : .contribution k pe ∉ H)
    (hanswer : S.Gathered .partition (H ++ [.contribution k pe]) → S.Answered) :
    (S.host H).contribute pe (S.contribution pe k) =
      .ok (S.host (H ++ [.contribution k pe])) (S.upon (H ++ [.contribution k pe]) k) := by
  by_cases hk : barrier? k = some .partition
  · have hpe : pe < S.pes := hs.1
    obtain ⟨hno, hyes⟩ := tryPartition_next ha.pes_pos ha.explicit (h.genuine.concat hs.1 hn)
      (not_gathered (mem_kinds.2 hk) hpe hn) fun b hne => barrier_ne hk hne
    rw [contribute_partition hk hpe hn, upon, hk]
    by_cases hgd : S.Gathered .partition (H ++ [.contribution k pe])
    · rw [(hyes hgd).1 (hanswer hgd)]
      simp only [hgd, ↓reduceIte]
    · rw [hno hgd]
      simp only [hgd, ↓reduceIte]
  · exact contribute_later h hs hn hk

/-- The contribution that makes the host partition makes it fail where there is no answer. -/
theorem contribute_host_error (ha : S.Determined) (h : S.History H)
    (hs : S.Sent H (.contribution k pe)) (hn : .contribution k pe ∉ H)
    (hg : S.Gathered .partition (H ++ [.contribution k pe])) {e : Failure RunError}
    (he : S.answer = .error e) :
    ((S.host H).contribute pe (S.contribution pe k)).result = .error e := by
  have hk : barrier? k = some .partition := by
    by_contra hk
    have hgd : S.Gathered .partition H := (gathered_concat fun hm => hk (mem_kinds.1 hm)).1 hg
    have hans : S.answer = .ok S.assignment := h.answered hgd
    cases hans.symm.trans he
  have hpe : pe < S.pes := hs.1
  obtain ⟨-, hyes⟩ := tryPartition_next ha.pes_pos ha.explicit (h.genuine.concat hs.1 hn)
    (not_gathered (mem_kinds.2 hk) hpe hn) fun b hne => barrier_ne hk hne
  rw [contribute_partition hk hpe hn]
  exact (hyes hg).2 e he

end Scenario
end MeshDecomp
