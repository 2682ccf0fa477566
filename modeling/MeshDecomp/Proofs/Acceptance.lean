import MeshDecomp.Proofs.Hosting
import MeshDecomp.Proofs.Logs
import MeshDecomp.Proofs.Repeats

/-!
One call at a barrier. A contribution whose slot is free is counted; the last one that the host
waits for makes it tell all ranks at once, and any other one makes it tell nothing.
-/

namespace MeshDecomp

open Scenario (barrier?)

/-- The barrier at which a directive is given. The report comes behind all barriers. -/
def Directive.barrier? : Directive → Option Barrier
  | .broadcast c => some c.barrier
  | .tell _ c => some c.barrier
  | .finished _ => none

namespace Host

variable {h : Host} {pe q pes : Nat} {c : Contribution} {k : Contribution.Kind}
  {goal : Option Barrier}

/-- The tally of the kind has a free slot for the rank. -/
def Accepts (h : Host) (pe : Nat) (c : Contribution) : Prop := pe < h.pes ∧ pe ∉ h.held c.kind

instance : Decidable (h.Accepts pe c) := inferInstanceAs (Decidable (_ ∧ _))

theorem Orderly.lt_room (ho : h.Orderly) (ha : h.Accepts pe c) : pe < h.room c.kind :=
  ha.1.trans_eq (ho.room c.kind).symm

/-- What is not accepted is refused. -/
theorem Orderly.contribute_of_not_accepts (ho : h.Orderly) (hn : ¬ h.Accepts pe c) :
    ∃ v, h.contribute pe c = .fail h (.error (.internal pe v)) := by
  have hroom : h.room c.kind = h.pes := ho.room c.kind
  by_cases hpe : pe < h.pes
  · have hm : pe ∈ h.held c.kind := by
      by_contra hm
      exact hn ⟨hpe, hm⟩
    exact ⟨_, contribute_of_mem (hpe.trans_eq hroom.symm) hm⟩
  · exact ⟨_, contribute_of_le (hroom.trans_le (Nat.not_lt.1 hpe))⟩

/-! ### What is counted -/

/-- The number of contributions of one kind that were ever accepted. -/
def filled (h : Host) : Contribution.Kind → Nat
  | .load => h.loads.filled
  | .setup => h.setups.filled
  | .elements => h.slices.filled
  | .distributed => h.distributions.filled
  | .flattened => h.flattenings.filled
  | .nodes => h.nodeSets.filled
  | .cost => h.costs.filled
  | .deviation => h.deviations.filled

theorem filled_taken :
    (h.taken pe c).filled k = if k = c.kind then h.filled k + 1 else h.filled k := by
  cases c <;> cases k <;> simp [filled, taken, Contribution.kind, Tally.put]

theorem Moves.filled {h' : Host} (hmv : h.Moves h') : h'.filled k = h.filled k := by
  cases hmv <;> cases k <;> rfl

theorem nodup_held : (h.held k).Nodup := by
  cases k <;> exact IdMap.nodup_keys _

theorem length_held_taken (hm : pe ∉ h.held c.kind) : ((h.taken pe c).held k).length =
    if k = c.kind then (h.held k).length + 1 else (h.held k).length := by
  split
  · next hk =>
    have hn : (pe :: h.held k).Nodup := List.nodup_cons.2 ⟨hk ▸ hm, nodup_held⟩
    have hp : ((h.taken pe c).held k).Perm (pe :: h.held k) := by
      rw [List.perm_ext_iff_of_nodup nodup_held hn]
      intro q
      rw [mem_held_taken, List.mem_cons, and_iff_right hk]
    rw [hp.length_eq, List.length_cons]
  · next hk =>
    have hp : ((h.taken pe c).held k).Perm (h.held k) := by
      rw [List.perm_ext_iff_of_nodup nodup_held nodup_held]
      intro q
      rw [mem_held_taken, or_iff_right (not_and_of_not_left _ hk)]
    rw [hp.length_eq]

/-- The host counts what it holds, unless it let go of it. -/
structure Tallied (h : Host) : Prop where
  orderly : h.Orderly
  filled : ∀ k, h.letsGo k = false → h.filled k = (h.held k).length
  lt : ∀ k, ∀ q ∈ h.held k, q < h.pes

theorem tallied_create {settings : Settings} {h₀ : Host} (hc : create pes settings = .ok h₀)
    (p : Partitioner) : (h₀.withPartitioner p).Tallied := by
  have hnew := new_create hc p
  obtain ⟨-, rfl⟩ := eq_of_create hc
  constructor
  · exact hnew.orderly
  · intro k _
    rw [hnew.held k]
    cases k <;> rfl
  · intro k q hq
    rw [hnew.held k] at hq
    exact absurd hq List.not_mem_nil

namespace Tallied

theorem taken (ht : h.Tallied) (ha : h.Accepts pe c) : (h.taken pe c).Tallied := by
  constructor
  · exact ht.orderly.taken (ht.orderly.lt_room ha) ha.2
  · intro k hk
    rw [letsGo_taken] at hk
    rw [filled_taken, length_held_taken ha.2, ht.filled k hk]
  · intro k q hq
    rw [pes_taken]
    rcases mem_held_taken.1 hq with ⟨-, rfl⟩ | hq
    · exact ha.1
    · exact ht.lt k q hq

/-- A barrier that is passed empties tallies, and never changes their counts. -/
theorem moves {h' : Host} (ht : h.Tallied) (hmv : h.Moves h') : h'.Tallied := by
  constructor
  · exact hmv.orderly ht.orderly
  · intro k hk
    -- what is kept now was kept before, with the same count
    have hbefore : h.letsGo k = false := by
      rw [Bool.eq_false_iff] at hk ⊢
      exact mt (hmv.letsGo ht.orderly) hk
    rw [hmv.filled, hmv.held ht.orderly, hk, hbefore, if_pos rfl, ht.filled k hbefore]
  · intro k q hq
    rw [hmv.held ht.orderly] at hq
    rw [hmv.pes]
    split at hq
    · exact ht.lt k q hq
    · exact absurd hq List.not_mem_nil

theorem contribute (ht : h.Tallied) : (h.contribute pe c).state.Tallied := by
  by_cases ha : h.Accepts pe c
  · exact (ht.taken ha).moves (ht.orderly.moves (ht.orderly.lt_room ha) ha.2)
  · obtain ⟨v, hv⟩ := ht.orderly.contribute_of_not_accepts ha
    rwa [hv]

theorem after (ht : h.Tallied) (calls : List (Nat × Contribution)) : (h.after calls).Tallied := by
  induction calls generalizing h with
  | nil => exact ht
  | cons call calls ih => exact ih ht.contribute

/-- Unless the host let go of a kind, it counted as many as there are ranks exactly if it holds one
from every rank. -/
theorem filled_eq_iff (ht : h.Tallied) (hk : h.letsGo k = false) :
    h.filled k = h.pes ↔ ∀ q < h.pes, q ∈ h.held k := by
  have hsub : h.held k ⊆ List.range h.pes := fun q hq => List.mem_range.2 (ht.lt k q hq)
  have hall := length_eq_iff_subset nodup_held List.nodup_range hsub
  rw [List.length_range, ← ht.filled k hk] at hall
  rw [hall]
  constructor
  · intro hrange q hq
    exact hrange (List.mem_range.2 hq)
  · intro hheld q hq
    exact hheld q (List.mem_range.1 hq)

end Tallied

/-! ### When a barrier opens -/

/-- Everything that the host waits for is there, and it has not passed yet. -/
def Ready (h : Host) (goal : Option Barrier) : Prop :=
  ∀ k, barrier? k = goal → h.letsGo k = false ∧ h.filled k = h.room k

theorem Tallied.length_held_of_ready (ht : h.Tallied) (hr : h.Ready (barrier? k)) :
    (h.held k).length = h.pes := by
  obtain ⟨hkeeps, hfilled⟩ := hr k rfl
  rw [← ht.filled k hkeeps, hfilled, ht.orderly.room]

theorem ready_partition_iff : h.Ready (some .partition) ↔
    h.units = 0 ∧ h.loads.complete ∧ h.setups.complete ∧ h.slices.complete := by
  simp only [Tally.complete, decide_eq_true_eq]
  constructor
  · intro hr
    have hunits : h.units = 0 := not_not.1 (of_decide_eq_false (hr .elements rfl).1)
    exact ⟨hunits, (hr .load rfl).2, (hr .setup rfl).2, (hr .elements rfl).2⟩
  · rintro ⟨hunits, hloads, hsetups, hslices⟩ k hk
    cases k with
    | load => exact ⟨rfl, hloads⟩
    | setup => exact ⟨rfl, hsetups⟩
    | elements => exact ⟨decide_eq_false (not_not.2 hunits), hslices⟩
    | _ => cases hk

theorem ready_reorder_iff : h.Ready (some .reorder) ↔
    h.reordered = false ∧ h.flattenings.complete ∧ h.nodeSets.complete := by
  simp only [Tally.complete, decide_eq_true_eq]
  constructor
  · intro hr
    exact ⟨(hr .nodes rfl).1, (hr .flattened rfl).2, (hr .nodes rfl).2⟩
  · rintro ⟨hreordered, hflattenings, hsets⟩ k hk
    cases k with
    | flattened => exact ⟨rfl, hflattenings⟩
    | nodes => exact ⟨hreordered, hsets⟩
    | _ => cases hk

/-- Where the host waits for one kind, and keeps it. -/
theorem ready_iff_of_alone (hk : k ∈ [.distributed, .cost, .deviation]) :
    h.Ready (barrier? k) ↔ h.filled k = h.room k := by
  have halone : ∀ j, barrier? j = barrier? k → j = k := by
    intro j hj
    cases k <;> simp at hk <;> cases j <;> cases hj <;> rfl
  have hkeeps : h.letsGo k = false := by
    cases k <;> simp at hk <;> rfl
  constructor
  · intro hr
    exact (hr k rfl).2
  · intro hfilled j hj
    rw [halone j hj]
    exact ⟨hkeeps, hfilled⟩

/-- Such a tally is complete when its barrier opens. -/
theorem complete_iff_ready {α : Type} {t : Tally α}
    (hk : k ∈ [.distributed, .cost, .deviation]) (hfilled : h.filled k = t.filled)
    (hroom : h.room k = t.pes) : t.complete = true ↔ h.Ready (barrier? k) := by
  rw [ready_iff_of_alone hk, hfilled, hroom]
  exact decide_eq_true_iff

/-! ### Contributions that are not the last -/

theorem tryPartition_of_not_ready (hz : h.slices.complete → h.units = 0)
    (hr : ¬ h.Ready (some .partition)) : h.tryPartition = .ok h [] := by
  unfold tryPartition
  rw [if_neg]
  intro hc
  simp only [Bool.and_eq_true] at hc
  exact hr (ready_partition_iff.2 ⟨hz hc.2, hc.1.1, hc.1.2, hc.2⟩)

theorem tryReorder_of_not_ready (hr : ¬ h.Ready (some .reorder)) : h.tryReorder = .ok h [] := by
  unfold tryReorder
  split
  · rfl
  · next hreordered =>
    rw [if_neg]
    intro hc
    rw [Bool.and_eq_true] at hc
    exact hr (ready_reorder_iff.2 ⟨Bool.eq_false_iff.2 hreordered, hc⟩)

theorem contribute_of_partition (hpe : pe < h.room c.kind) (hm : pe ∉ h.held c.kind)
    (hk : barrier? c.kind = some .partition) :
    h.contribute pe c = (h.taken pe c).tryPartition := by
  cases c with
  | load | setup | elements => exact fill_of_not_mem hpe hm
  | _ => cases hk

theorem contribute_of_reorder (hpe : pe < h.room c.kind) (hm : pe ∉ h.held c.kind)
    (hk : barrier? c.kind = some .reorder) : h.contribute pe c = (h.taken pe c).tryReorder := by
  cases c with
  | flattened | nodes => exact fill_of_not_mem hpe hm
  | _ => cases hk

/-- A contribution that is not the last one at its barrier is counted, and that is all. -/
theorem Orderly.contribute_of_not_ready (ho : h.Orderly) (ha : h.Accepts pe c)
    (hr : ¬ (h.taken pe c).Ready (barrier? c.kind)) :
    h.contribute pe c = .ok (h.taken pe c) [] := by
  have hpe := ho.lt_room ha
  have hunits : (h.taken pe c).units = h.units := units_taken
  have hzero := fun hk hc => hunits.trans (ho.units_eq_zero hpe ha.2 hk hc)
  cases c with
  | load | setup | elements =>
    rw [contribute_of_partition hpe ha.2 rfl]
    exact tryPartition_of_not_ready (hzero (by simp [Contribution.kind])) hr
  | flattened | nodes =>
    rw [contribute_of_reorder hpe ha.2 rfl]
    exact tryReorder_of_not_ready hr
  | distributed | deviation =>
    rw [Host.contribute, fill_of_not_mem hpe ha.2]
    apply congrArg (Outcome.ok _)
    exact if_neg (mt (complete_iff_ready (by simp [Contribution.kind]) rfl rfl).1 hr)
  | cost =>
    rw [Host.contribute, fill_of_not_mem hpe ha.2]
    exact if_neg (mt (complete_iff_ready (by simp [Contribution.kind]) rfl rfl).1 hr)

/-! ### The last contribution -/

/-- The directives of a call; none if it fails. -/
def told (o : Result (List Directive)) : List Directive :=
  match o.result with
  | .ok ds => ds
  | .error _ => []

/-- All that is given to `pes` ranks at a barrier: one broadcast, or one command to each rank in
their order. -/
def Announces (pes : Nat) (ds : List Directive) : Option Barrier → Prop
  | some .partition => ∃ (units : Nat) (ids : Nat → List Nat),
      ds = (List.range pes).map fun pe => .tell pe (.partition units (ids pe))
  | some .flatten => ds = [.broadcast .flatten]
  | some .reorder => ∃ (first : Nat → Nat) (asked : Nat → IdMap (List Nat)),
      ds = (List.range pes).map fun pe => .tell pe (.reorder (first pe) (asked pe))
  | some .deviation => ∃ mean, ds = [.broadcast (.deviation mean)]
  | none => ∃ r, ds = [.finished r]

theorem barrier?_of_announces {ds : List Directive} (h : Announces pes ds goal) {d : Directive}
    (hd : d ∈ ds) : d.barrier? = goal := by
  match goal with
  | some .partition =>
    obtain ⟨units, ids, rfl⟩ := h
    obtain ⟨q, -, rfl⟩ := List.mem_map.1 hd
    rfl
  | some .flatten =>
    obtain rfl := h
    rw [List.mem_singleton.1 hd]
    rfl
  | some .reorder =>
    obtain ⟨first, asked, rfl⟩ := h
    obtain ⟨q, -, rfl⟩ := List.mem_map.1 hd
    rfl
  | some .deviation =>
    obtain ⟨mean, rfl⟩ := h
    rw [List.mem_singleton.1 hd]
    rfl
  | none =>
    obtain ⟨r, rfl⟩ := h
    rw [List.mem_singleton.1 hd]
    rfl

/-- Every rank is told its share, in the order of the ranks. -/
theorem scatter_eq_map (units first : Nat) (slices : List ElementSlice) (ids : List Nat) :
    ∃ share : Nat → List Nat, scatter units first slices ids =
      (List.range' first slices.length).map fun pe => .tell pe (.partition units (share pe)) := by
  induction slices generalizing first ids with
  | nil => exact ⟨fun _ => [], rfl⟩
  | cons s slices ih =>
    obtain ⟨share, hshare⟩ := ih (first + 1) (ids.drop s.size)
    use Function.update share first (ids.take s.size)
    rw [scatter, hshare, List.length_cons, List.range'_succ, List.map_cons, Function.update_self]
    congr 1
    apply List.map_congr_left
    intro pe hpe
    have hlater : first < pe := (List.mem_range'_1.1 hpe).1
    rw [Function.update_of_ne (Nat.ne_of_gt hlater)]

theorem length_values {α : Type} {t : Tally α} : t.values.length = t.slots.keys.length := by
  rw [Tally.values, IdMap.values, IdMap.keys, List.length_map, List.length_map]

theorem told_tryPartition (ht : h.Tallied) (hr : h.Ready (some .partition)) :
    told h.tryPartition = [] ∨ Announces h.pes (told h.tryPartition) (some .partition) := by
  obtain ⟨-, hloads, hsetups, hslices⟩ := ready_partition_iff.1 hr
  have hlen : h.slices.values.length = h.pes :=
    length_values.trans (ht.length_held_of_ready (k := .elements) hr)
  unfold tryPartition
  rw [hloads, hsetups, hslices, if_pos (by decide)]
  dsimp only
  split
  · exact .inl rfl
  · next units _ =>
    split
    · exact .inl rfl
    · next ids _ =>
      obtain ⟨share, hshare⟩ := scatter_eq_map units 0 h.slices.values ids
      rw [hlen, ← List.range_eq_range'] at hshare
      exact .inr ⟨units, share, hshare⟩

theorem mapIdx_eq_map_range {α β : Type} (f : Nat → α → β) (l : List α) (d : α) :
    l.mapIdx f = (List.range l.length).map fun i => f i (l.getD i d) := by
  apply List.ext_getElem
  · rw [List.length_mapIdx, List.length_map, List.length_range]
  · intro i hi _
    rw [List.length_mapIdx] at hi
    rw [List.getElem_mapIdx, List.getElem_map, List.getElem_range, List.getD_eq_getElem?_getD,
      List.getElem?_eq_getElem hi, Option.getD_some]

theorem told_tryReorder (ht : h.Tallied) (hr : h.Ready (some .reorder)) :
    Announces h.pes (told h.tryReorder) (some .reorder) := by
  obtain ⟨hreordered, hflattenings, hsets⟩ := ready_reorder_iff.1 hr
  have hlen : h.nodeSets.values.length = h.pes :=
    length_values.trans (ht.length_held_of_ready (k := .nodes) hr)
  unfold tryReorder
  rw [hreordered, hflattenings, hsets, if_neg (by decide), if_pos (by decide)]
  generalize hsharing : Sharing.ofSets h.nodeSets.values = sharing
  have hzip : (sharing.asked.zip sharing.starts).length = h.pes := by
    rw [← hsharing, Sharing.ofSets, List.length_zip, List.length_mapIdx,
      Sharing.length_startsFrom, List.length_mapIdx, Nat.min_self, hlen]
  have htold := mapIdx_eq_map_range (fun pe (s : IdMap (List Nat) × Nat) =>
    Directive.tell pe (.reorder s.2 s.1)) (sharing.asked.zip sharing.starts) default
  rw [hzip] at htold
  exact ⟨_, _, htold⟩

/-- At the last contribution the host gives everything that there is to give at the barrier; only
the partitioning may fail. -/
theorem Tallied.announces_of_ready (ht : h.Tallied) (ha : h.Accepts pe c)
    (hr : (h.taken pe c).Ready (barrier? c.kind)) :
    told (h.contribute pe c) = [] ∧ barrier? c.kind = some .partition ∨
      Announces h.pes (told (h.contribute pe c)) (barrier? c.kind) := by
  have hpe := ht.orderly.lt_room ha
  have htaken := ht.taken ha
  cases c with
  | load | setup | elements =>
    rw [contribute_of_partition hpe ha.2 rfl]
    rcases told_tryPartition htaken hr with hnil | htold
    · exact .inl ⟨hnil, rfl⟩
    · exact .inr htold
  | flattened | nodes =>
    rw [contribute_of_reorder hpe ha.2 rfl]
    exact .inr (told_tryReorder htaken hr)
  | distributed =>
    have hfull : (h.distributions.put pe ()).complete = true :=
      (complete_iff_ready (by simp [Contribution.kind]) rfl rfl).2 hr
    rw [Host.contribute, fill_of_not_mem hpe ha.2, hfull]
    exact .inr rfl
  | cost x =>
    have hfull : (h.costs.put pe x).complete = true :=
      (complete_iff_ready (by simp [Contribution.kind]) rfl rfl).2 hr
    rw [Host.contribute, fill_of_not_mem hpe ha.2]
    dsimp only
    rw [if_pos hfull]
    exact .inr ⟨_, rfl⟩
  | deviation x =>
    have hfull : (h.deviations.put pe x).complete = true :=
      (complete_iff_ready (by simp [Contribution.kind]) rfl rfl).2 hr
    rw [Host.contribute, fill_of_not_mem hpe ha.2, hfull]
    exact .inr ⟨_, rfl⟩

/-! ### The other barriers -/

theorem letsGo_tryPartition (hk : k ≠ .elements) :
    h.tryPartition.state.letsGo k = h.letsGo k := by
  unfold tryPartition
  split
  · dsimp only
    split
    · cases k <;> rfl
    · split <;> cases k <;> first | rfl | exact absurd rfl hk
  · rfl

theorem letsGo_tryReorder (hk : k ≠ .nodes) : h.tryReorder.state.letsGo k = h.letsGo k := by
  unfold tryReorder
  split
  · rfl
  split
  · cases k <;> first | rfl | exact absurd rfl hk
  · rfl

/-- A contribution to one barrier leaves the others as they are. -/
theorem Orderly.letsGo_contribute_of_ne (ho : h.Orderly) (hne : barrier? k ≠ barrier? c.kind) :
    (h.contribute pe c).state.letsGo k = h.letsGo k := by
  by_cases ha : h.Accepts pe c
  · have hpe := ho.lt_room ha
    have hkeeps : (h.taken pe c).letsGo k = h.letsGo k := letsGo_taken
    cases c with
    | load | setup | elements =>
      have hk : k ≠ .elements := by
        rintro rfl
        exact hne rfl
      rw [contribute_of_partition hpe ha.2 rfl, letsGo_tryPartition hk, hkeeps]
    | flattened | nodes =>
      have hk : k ≠ .nodes := by
        rintro rfl
        exact hne rfl
      rw [contribute_of_reorder hpe ha.2 rfl, letsGo_tryReorder hk, hkeeps]
    | distributed | deviation =>
      rw [Host.contribute, fill_of_not_mem hpe ha.2]
      exact hkeeps
    | cost =>
      rw [Host.contribute, fill_of_not_mem hpe ha.2]
      dsimp only
      split <;> cases k <;> rfl
  · obtain ⟨v, hv⟩ := ho.contribute_of_not_accepts ha
    rw [hv, Outcome.state_fail]

/-- The host lets go of a kind only at the last contribution to its barrier. -/
theorem Orderly.ready_of_letsGo (ho : h.Orderly) (hbefore : h.letsGo k = false)
    (hafter : (h.contribute pe c).state.letsGo k) :
    h.Accepts pe c ∧ barrier? k = barrier? c.kind ∧ (h.taken pe c).Ready (barrier? c.kind) := by
  have ha : h.Accepts pe c := by
    by_contra hno
    obtain ⟨v, hv⟩ := ho.contribute_of_not_accepts hno
    rw [hv, Outcome.state_fail, hbefore] at hafter
    cases hafter
  refine ⟨ha, ?_, ?_⟩
  · by_contra hne
    rw [ho.letsGo_contribute_of_ne hne, hbefore] at hafter
    cases hafter
  · by_contra hr
    rw [ho.contribute_of_not_ready ha hr, Outcome.state_ok, letsGo_taken, hbefore] at hafter
    cases hafter

end Host
end MeshDecomp
