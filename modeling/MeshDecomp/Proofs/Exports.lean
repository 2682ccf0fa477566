import MeshDecomp.Partition.Elementary
import MeshDecomp.Proofs.RoundTrips

/-!
The accounts of the distribution. Everything that a rank read for another one is on its way, parked,
or taken over, and the sender knows how many acknowledgements are to come.
-/
namespace MeshDecomp

namespace Network

/-- The nodes of a work unit that a rank has from a source. -/
def lookUp (s : Network) (pe unit source : Nat) : Option (List Nat) :=
  s.ensemble.workers[pe]?.bind fun w => Worker.lookUp w.table unit source

/-- How many messages of an errand wait for the end of it. -/
def outstanding (s : Network) (log : List Parcel) (e : Errand) (p q : Nat) : Nat :=
  s.countAt log e p q .outbound + s.countAt log e p q .waiting + s.countAt log e p q .returning

end Network

namespace Scenario

/-- A rank read an element of a work unit of another rank. -/
def Exports (S : Scenario) (ids : List Nat) (p q : Nat) : Prop :=
  p < S.pes ∧ q ≠ p ∧ ∃ unit ∈ S.slice p ids, S.owner unit = q

instance (S : Scenario) (ids : List Nat) (p q : Nat) : Decidable (S.Exports ids p q) :=
  inferInstanceAs (Decidable (_ ∧ _ ∧ ∃ unit ∈ S.slice p ids, _))

/-- The nodes that `p` read of a work unit of `q`. -/
def shipment (S : Scenario) (ids : List Nat) (p q unit : Nat) : Option (List Nat) :=
  let nodes := nodesOf (S.slice p (S.mesh.tets.zip ids)) unit
  if S.owner unit = q ∧ nodes ≠ [] then some nodes else none

/-- Where the work units of every rank are that belong to another rank. -/
structure ExportsAccounted (S : Scenario) (ids : List Nat) (log : List Parcel) (s : Network) :
    Prop where
  ranks : s.ensemble.workers.length = S.pes
  handled : ∀ p w, s.ensemble.workers[p]? = some w →
    (w.partitioned = true ↔ Commanded log .partition p)
  before : ∀ p q, p ≠ q → ¬ Commanded log .partition p →
    (∀ l, s.countAt log .units p q l = 0) ∧ ∀ unit, s.lookUp q unit p = none
  others : ∀ p q, ¬ S.Exports ids p q → ∀ l, s.countAt log .units p q l = 0
  after : ∀ p q, S.Exports ids p q → Commanded log .partition p → ∃ l,
    (∀ l', s.countAt log .units p q l' = if l' = l then 1 else 0) ∧
    ∀ unit, s.lookUp q unit p =
      if l = .returning ∨ l = .closed then S.shipment ids p q unit else none
  pending : ∀ p w, s.ensemble.workers[p]? = some w →
    w.pendingAcks = (List.range S.pes).countP fun q => 0 < s.outstanding log .units p q
  adds : ∀ c ∈ s.pool, ∀ m, c.content = .peer (.add m) → ∃ q, c.target = .pe q ∧
    S.Exports ids c.sender q ∧ ∀ unit, m.get? unit = S.shipment ids c.sender q unit
  parked : ∀ q, ∀ c ∈ s.parked q,
    S.Exports ids c.1 q ∧ ∀ unit, c.2.get? unit = S.shipment ids c.1 q unit
  acks : ∀ c ∈ s.pool, c.content = .peer .ack → ∃ p, c.target = .pe p ∧ S.Exports ids p c.sender
  flattened : ∀ pe, Commanded (s.pool ++ log) .flatten pe →
    (∀ p q l, l ≠ .closed → s.countAt log .units p q l = 0) ∧ (∀ q, s.parked q = []) ∧
    ∀ q w, s.ensemble.workers[q]? = some w → ∀ unit, S.owner unit = q →
      w.nodesOf unit = nodesOf (S.mesh.tets.zip ids) unit

variable {S : Scenario} {p q pe unit : Nat} {e : Errand} {l : Leg} {H fatal : List Letter}
  {ids : List Nat} {n s : Network} {log : List Parcel}

theorem shipment_assignment :
    S.shipment S.assignment p q unit = (S.cargo p q).get? unit := by
  rw [get?_cargo, get?_buckets, shipment]
  unfold placed
  by_cases hq : S.owner unit = q <;> simp [hq]

/-- A rank has something for another one exactly if it read an element for it. -/
theorem Answered.exports_iff (h : S.Answered) :
    S.Exports S.assignment p q ↔ S.Occurs (.peer .add p q) := by
  refine and_congr_right fun hp => ?_
  have hshare : (S.slice p S.placed).map Prod.snd = S.slice p S.assignment :=
    map_snd_slice_placed hp h.length_assignment
  rw [mem_keys_exports, IdMap.ne_empty_iff, ← hshare]
  refine and_congr_right fun _ => ⟨?_, ?_⟩
  · rintro ⟨unit, hu, hown⟩
    obtain ⟨e, he, rfl⟩ := List.mem_map.1 hu
    have hne : nodesOf (S.slice p S.placed) e.2 ≠ [] := fun h0 =>
      nodesOf_eq_nil_iff.1 h0 e he rfl
    exact ⟨e.2, _, get?_cargo_eq_some_iff.2 ⟨hown, hne, rfl⟩⟩
  · rintro ⟨unit, l, hl⟩
    obtain ⟨hown, e, he, hu⟩ := exists_of_get?_cargo hl
    exact ⟨unit, List.mem_map.2 ⟨e, he, hu⟩, hown⟩

/-- What is left of the work units that a rank sent, without those that were acknowledged. -/
theorem History.size_sub_length_acks (h : S.History H) (hp : p < S.pes) :
    (S.exports p).size - (View.of H p).acks.length =
      (List.range S.pes).countP fun q =>
        S.Occurs (.peer .add p q) ∧ .peer .ack q p ∉ H := by
  have hacks : (View.of H p).acks.length =
      (S.exports p).keys.countP fun q => .peer .ack q p ∈ H := by
    rw [← List.countP_true]
    refine countP_eq_of_nodup (Letter.nodup_senders h.nodup) (IdMap.nodup_keys _) fun q => ?_
    have hmem : q ∈ (View.of H p).acks ↔ .peer .ack q p ∈ H := Letter.mem_senders
    rw [hmem, decide_eq_true_eq, and_iff_left rfl]
    refine (and_iff_right_of_imp fun hm => ?_).symm
    have hocc : S.Occurs (.peer .ack q p) := (h.sent _ hm).1
    exact hocc.2
  have hopen : ((List.range S.pes).countP fun q =>
      S.Occurs (.peer .add p q) ∧ .peer .ack q p ∉ H) =
      (S.exports p).keys.countP fun q => ¬ (decide (.peer .ack q p ∈ H) = true) := by
    refine countP_eq_of_nodup List.nodup_range (IdMap.nodup_keys _) fun q => ?_
    simp only [List.mem_range, decide_eq_true_eq]
    constructor
    · rintro ⟨-, ho, hn⟩
      exact ⟨ho.2, hn⟩
    · rintro ⟨hk, hn⟩
      exact ⟨lt_of_mem_keys_exports (Nat.zero_lt_of_lt hp) hk, ⟨hp, hk⟩, hn⟩
  rw [hacks, hopen, ← IdMap.length_keys,
    List.length_eq_countP_add_countP fun q => decide (Letter.peer .ack q p ∈ H)]
  exact Nat.add_sub_cancel_left _ _

namespace Follows

variable (h : S.Follows H fatal log s)

include h

theorem outstanding_pos_iff : 0 < s.outstanding log e p q ↔
    S.Open H e p q ∧ .peer e.back q p ∉ H := by
  rw [h.history.closed_iff, Network.outstanding]
  simp only [h.countAt_eq]
  by_cases ho : S.Open H e p q
  · cases leg H e p q <;> simp [ho]
  · simp [ho]

theorem lookUp_eq : s.lookUp q unit p =
    if .command .partition q ∈ H ∧ (p = q ∨ .peer .add p q ∈ H) then
      S.shipment S.assignment p q unit
    else none := by
  by_cases hc : .command .partition q ∈ H
  · rw [Network.lookUp, h.getElem?_worker (h.history.lt hc), Option.bind_some]
    simp [stopped, worker, View.of, hc, lookUp_table, shipment_assignment, Letter.mem_senders]
  · rw [if_neg fun hand => hc hand.1, Network.lookUp]
    by_cases hq : q < S.pes
    · rw [h.getElem?_worker hq, Option.bind_some]
      simp [stopped, worker, View.of, hc]
    · rw [h.getElem?_eq_none hq, Option.bind_none]

theorem pendingAcks_eq {w : Worker} (hw : s.ensemble.workers[p]? = some w) :
    w.pendingAcks = (List.range S.pes).countP fun q => 0 < s.outstanding log .units p q := by
  obtain ⟨hp, rfl⟩ := h.worker_eq hw
  simp only [h.outstanding_pos_iff]
  by_cases hc : .command .partition p ∈ H
  · have hopen : ∀ q, S.Open H .units p q ↔ S.Occurs (.peer .add p q) := fun q =>
      and_iff_right hc
    simp only [hopen]
    exact (if_pos (decide_eq_true hc)).trans (h.history.size_sub_length_acks hp)
  · have hopen : ∀ q, ¬ S.Open H .units p q := fun q ho => hc ho.1
    simp [hopen, stopped, worker, View.of, hc]

variable (hh : S.Honest ids)

include hh

theorem assignment_eq (hc : .command .partition p ∈ H) : S.assignment = ids :=
  hh.assignment_of_answered (h.history.answered_of_partition hc)

theorem open_units_iff : S.Open H .units p q ↔
    Commanded log .partition p ∧ S.Exports ids p q := by
  rw [h.commanded_log (by decide)]
  refine and_congr_right fun hc => ?_
  rw [← h.assignment_eq hh hc]
  exact (h.history.answered_of_partition hc).exports_iff.symm

theorem countAt_units_eq_zero (hn : ¬ (Commanded log .partition p ∧ S.Exports ids p q)) :
    s.countAt log .units p q l = 0 := by
  rw [h.countAt_eq, if_neg fun ho => hn ((h.open_units_iff hh).1 ho.1)]

/-- A rank has what it took over, and nothing else of other ranks. -/
theorem lookUp_units (hne : p ≠ q) : s.lookUp q unit p =
    if leg H .units p q = .returning ∨ leg H .units p q = .closed then S.shipment ids p q unit
    else none := by
  have htaken : leg H .units p q = .returning ∨ leg H .units p q = .closed ↔
      .command .partition q ∈ H ∧ .peer .add p q ∈ H := leg_taken_iff
  simp only [h.lookUp_eq, htaken, hne, false_or]
  split
  · next hc => rw [h.assignment_eq hh hc.1]
  · rfl

theorem cargo_eq (ho : S.Open H .units p q) :
    (S.cargo p q).get? unit = S.shipment ids p q unit := by
  rw [← h.assignment_eq hh ho.1, shipment_assignment]

/-- Once the host has the ranks look at their work units, everything is in its place. -/
theorem distributed (hg : S.Gathered .flatten H) :
    (∀ p q l, l ≠ .closed → s.countAt log .units p q l = 0) ∧ (∀ q, s.parked q = []) ∧
      ∀ q w, s.ensemble.workers[q]? = some w → ∀ unit, S.owner unit = q →
        w.nodesOf unit = nodesOf (S.mesh.tets.zip ids) unit := by
  have hpart : ∀ p < S.pes, .command .partition p ∈ H := fun p hp =>
    (h.history.distributed_of_gathered hg hp).1
  refine ⟨fun p q l hl => ?_, fun q => ?_, fun q w hw unit hu => ?_⟩
  · rw [h.countAt_eq, if_neg]
    rintro ⟨ho, rfl⟩
    have hocc : S.Occurs (.peer .add p q) := ho.2
    have hack : .peer .ack q p ∈ H := (h.history.distributed_of_gathered hg hocc.1).2 q hocc.2
    exact hl ((h.history.closed_iff (e := .units)).1 hack).2.symm
  · rw [h.parked_eq]
    split
    · rfl
    · next hn =>
      have hq : ¬ q < S.pes := fun hq => hn (hpart q hq)
      have hnil : Letter.senders .add q H = [] := h.history.senders_eq_nil (e := .units) hq
      rw [hnil, List.map_nil]
  · obtain ⟨hq, rfl⟩ := h.worker_eq hw
    have hans : S.Answered := h.history.answered_of_partition (hpart q hq)
    rw [← h.assignment_eq hh (hpart q hq)]
    apply (h.history.supplied hg hq).nodesOf_eq hans (Nat.zero_lt_of_lt hq) hu
    exact if_pos (decide_eq_true (hpart q hq))

end Follows

/-- Two tetrahedra with a common edge, each in a work unit of the rank that did not read it. -/
def crossed : Scenario := { pair with partitioner := .reversed "reversed" false }

theorem admissible_crossed : crossed.Admissible where
  complete := admissible_pair.complete
  pes_pos := admissible_pair.pes_pos
  pes_lt := admissible_pair.pes_lt
  valid := admissible_pair.valid
  explicit := admissible_pair.explicit

theorem finishes_crossed : crossed.Finishes where
  answered := rfl
  inRange := by decide
  occupied := by decide

theorem honest_crossed : crossed.Honest [1, 0] where
  answer := rfl
  length := rfl
  lt_units := by decide

/-- In every reachable state of an honest run: a rank sends nothing before it was told the work
units of its elements. Afterwards everything that it read for another rank is in exactly one
place: on its way, parked, or taken over with the acknowledgement on its way or arrived. The
acknowledgements that a rank waits for are those that have not arrived, and nothing else is sent.
So when the host has the ranks look at their work units, nothing is on its way or parked, and every
work unit is complete. -/
theorem exports_accounted (ha : S.Admissible) (hh : S.Honest ids) (hl : S.launch = .ok n)
    (hr : n.Run log s) : S.ExportsAccounted ids log s := by
  obtain ⟨H, fatal, h⟩ := hh.follows ha hl hr
  constructor
  case ranks => exact h.length_workers
  case handled =>
    intro p w hw
    obtain ⟨hp, rfl⟩ := h.worker_eq hw
    rw [h.commanded_log (by decide)]
    exact decide_eq_true_iff
  case before =>
    intro p q hne hc
    refine ⟨fun l => h.countAt_units_eq_zero hh fun ho => hc ho.1, fun unit => ?_⟩
    rw [h.lookUp_units hh hne, if_neg]
    intro htaken
    have ho : S.Open H .units p q := h.history.open_of_there (leg_taken_iff.1 htaken).2
    exact hc ((h.open_units_iff hh).1 ho).1
  case others => exact fun p q hn l => h.countAt_units_eq_zero hh fun ho => hn ho.2
  case after =>
    intro p q hx hc
    have ho : S.Open H .units p q := (h.open_units_iff hh).2 ⟨hc, hx⟩
    refine ⟨leg H .units p q, fun l => ?_, fun unit => h.lookUp_units hh (Ne.symm hx.2.1)⟩
    rw [h.countAt_eq]
    simp only [ho, true_and]
  case pending => exact fun p w hw => h.pendingAcks_eq hw
  case adds =>
    intro c hc units hunits
    obtain ⟨m, hs, rfl⟩ := h.exists_sent (List.mem_append_left log hc)
    obtain ⟨p, q, rfl, hmessage⟩ := eq_peer_of_content hunits rfl
    have ho : S.Open H .units p q := sent_there_iff.1 hs
    cases hmessage
    exact ⟨q, rfl, ((h.open_units_iff hh).1 ho).2, fun unit => h.cargo_eq hh ho⟩
  case parked =>
    intro q c hc
    rw [h.parked_eq] at hc
    split at hc
    · cases hc
    · obtain ⟨p, hp, rfl⟩ := List.mem_map.1 hc
      have ho : S.Open H .units p q := h.history.open_of_there (Letter.mem_senders.1 hp)
      exact ⟨((h.open_units_iff hh).1 ho).2, fun unit => h.cargo_eq hh ho⟩
  case acks =>
    intro c hc hack
    obtain ⟨m, hs, rfl⟩ := h.exists_sent (List.mem_append_left log hc)
    obtain ⟨q, p, rfl, -⟩ := eq_peer_of_content hack rfl
    have hback : S.Sent H (.peer Errand.units.back q p) := hs
    have ho : S.Open H .units p q := h.history.open_of_there (h.history.sent_back_iff.1 hback).1
    exact ⟨p, rfl, ((h.open_units_iff hh).1 ho).2⟩
  case flattened => exact fun pe hc => h.distributed hh (h.gathered_of_commanded hc)

theorem crossed_exports_accounted :
    crossed.Admissible ∧ crossed.Honest [1, 0] ∧
      crossed.Exports [1, 0] 0 1 ∧ crossed.Exports [1, 0] 1 0 ∧
      ∃ n log s, crossed.launch = .ok n ∧ n.Run log s ∧ s.ending = some (.ok crossed.report) ∧
        crossed.ExportsAccounted [1, 0] log s := by
  obtain ⟨n, log, s, hl, hr, he⟩ := finishes_crossed.exists_run admissible_crossed
  exact ⟨admissible_crossed, honest_crossed, by decide, by decide, n, log, s, hl, hr, he,
    exports_accounted admissible_crossed honest_crossed hl hr⟩

end Scenario
end MeshDecomp
