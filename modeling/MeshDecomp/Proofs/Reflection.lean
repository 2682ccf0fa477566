import MeshDecomp.Proofs.Hosting
import MeshDecomp.Proofs.Turns
import Mathlib.Data.List.InsertIdx

/-! A network after any order of deliveries: what everyone knows, what is on its way and what was
handed out follow from the letters that arrived. -/
namespace MeshDecomp

theorem set_map_range {f g : Nat → α} {n p : Nat} (h : ∀ q, q ≠ p → f q = g q) :
    ((List.range n).map f).set p (g p) = (List.range n).map g := by
  apply List.ext_getElem
  · simp
  · intro q hq _
    rw [List.getElem_set]
    split
    · next he => simp [← he]
    · next hne => simpa using h q (Ne.symm hne)

section

variable {e : Ensemble} {call : Worker → Outcome Worker (Failure RunError) (List Action)}
  {w w' : Worker} {rank : Nat}

theorem Ensemble.onWorker_eq {as : List Action} (hw : e.workers[rank]? = some w)
    (hcall : call w = .ok w' as) :
    e.onWorker rank call = .ok { e with workers := e.workers.set rank w' } (.actions rank as) := by
  simp only [onWorker, hw, hcall, Outcome.mapState_ok, Outcome.map_ok]

theorem Ensemble.onWorker_error {cause : Failure RunError} (hw : e.workers[rank]? = some w)
    (hcall : (call w).result = .error cause) :
    (e.onWorker rank call).result = .error cause := by
  simp only [onWorker, hw, Outcome.mapState, Outcome.map, hcall]
  rfl

end

namespace Scenario

variable {S : Scenario} {pe : Nat} {m : Letter} {H : List Letter}

/-- All processing elements and the host after a history. -/
def ensemble (S : Scenario) (H : List Letter) : Ensemble where
  workers := (List.range S.pes).map fun pe => S.worker pe (.of H pe)
  host := S.host H

theorem pes_ensemble (H : List Letter) : (S.ensemble H).pes = S.pes := by
  simp only [Ensemble.pes, ensemble, List.length_map, List.length_range]

/-- The ranks that have their bounds. -/
def settledRanks (S : Scenario) (H : List Letter) : List Nat :=
  (List.range S.pes).filter fun pe => S.Settled pe (.of H pe)

/-- What a delivery makes its receiver ask for. -/
structure Turn (S : Scenario) (H : List Letter) (m : Letter) (r : Response) : Prop where
  parcels : ∃ out, r.parcels S.pes = out.map S.parcel ∧ S.Releases H m out
  collect : ∃ ranks, (S.settledRanks (H ++ [m])).Perm (S.settledRanks H ++ ranks) ∧
    ∀ c, r.collect c = ranks.foldl S.handOut c
  report : r.report? = if S.Over (H ++ [m]) then some S.report else none

theorem getElem?_workers (hp : pe < S.pes) :
    (S.ensemble H).workers[pe]? = some (S.worker pe (.of H pe)) := by
  simp [ensemble, hp]

theorem deliver_of_receiver (hr : m.receiver? = some pe) :
    (S.ensemble H).deliver (S.parcel m) =
      (S.ensemble H).onWorker pe fun w => (S.call m w).mapError .error := by
  cases m <;> cases hr <;> rfl

theorem gathered_concat_of_receiver (hr : m.receiver? = some pe) (b : Barrier) :
    S.Gathered b (H ++ [m]) ↔ S.Gathered b H := by
  rw [gathered_iff, gathered_iff]
  refine forall₂_congr fun k _ => forall₂_congr fun p _ => ?_
  have hne : Letter.contribution k p ≠ m := by
    rintro rfl
    cases hr
  simp [hne]

theorem host_concat_of_receiver (hr : m.receiver? = some pe) : S.host (H ++ [m]) = S.host H := by
  have hne : ∀ k p, m ≠ .contribution k p := by
    rintro k p rfl
    cases hr
  simp only [host, gathered_concat_of_receiver hr, counting, tally_concat_of_ne (hne _)]

theorem over_concat (h : ∀ p, m ≠ .contribution .deviation p) :
    S.Over (H ++ [m]) ↔ S.Over H := by
  apply forall₂_congr
  intro p _
  simp [Ne.symm (h p)]

/-- Only the receiver of a letter can settle its bounds upon it. -/
theorem settledRanks_concat (hr : m.receiver? = some pe) (hp : pe < S.pes) :
    (S.settledRanks (H ++ [m])).Perm (S.settledRanks H ++
      if S.Settled pe (.of (H ++ [m]) pe) ∧ ¬ S.Settled pe (.of H pe) then [pe] else []) := by
  have hmono : S.Settled pe (.of H pe) → S.Settled pe (.of (H ++ [m]) pe) := by
    rw [settled_iff, settled_iff]
    exact fun h c hc => List.mem_append_left _ (h c hc)
  have hother : ∀ q, q ≠ pe → View.of (H ++ [m]) q = View.of H q := fun q hq =>
    View.of_concat_of_ne (by rw [hr]; simpa using Ne.symm hq)
  refine (List.perm_ext_iff_of_nodup (List.nodup_range.filter _) ?_).2 fun q => ?_
  · refine List.nodup_append.2 ⟨List.nodup_range.filter _, by split <;> simp, ?_⟩
    rintro q hq _ hq' rfl
    split at hq'
    · next hnew =>
      obtain rfl := List.mem_singleton.1 hq'
      simp only [settledRanks, List.mem_filter, decide_eq_true_eq] at hq
      exact hnew.2 hq.2
    · cases hq'
  · simp only [settledRanks, List.mem_append, List.mem_filter, List.mem_range, decide_eq_true_eq]
    by_cases hq : q = pe
    · subst hq
      by_cases hold : S.Settled q (.of H q)
      · simp [hold, hmono hold, hp]
      · by_cases hnew : S.Settled q (.of (H ++ [m]) q) <;> simp [hold, hnew, hp]
    · rw [hother q hq]
      split <;> simp [hq]

theorem settledRanks_concat_contribution (k : Contribution.Kind) :
    S.settledRanks (H ++ [.contribution k pe]) = S.settledRanks H := by
  have hview : ∀ q, View.of (H ++ [.contribution k pe]) q = View.of H q := fun q =>
    View.of_concat_of_ne (by simp [Letter.receiver?])
  simp only [settledRanks, hview]

/-- The arrival of a letter at a rank. -/
theorem deliver_answers {as : List Action} (hr : m.receiver? = some pe) (hp : pe < S.pes)
    (ho : ¬ S.Over H) (ha : S.Answers H m pe as) :
    (S.ensemble H).deliver (S.parcel m) = .ok (S.ensemble (H ++ [m])) (.actions pe as) ∧
      S.Turn H m (.actions pe as) := by
  have hnot : ∀ p, m ≠ .contribution .deviation p := by
    rintro p rfl
    cases hr
  refine ⟨?_, ha.out, ⟨_, settledRanks_concat hr hp, fun c => ?_⟩, ?_⟩
  · have hcall : (S.call m (S.worker pe (.of H pe))).mapError Failure.error =
        .ok (S.worker pe (.of (H ++ [m]) pe)) as := congrArg _ ha.state
    rw [deliver_of_receiver hr, Ensemble.onWorker_eq (getElem?_workers hp) hcall]
    have hset := set_map_range (n := S.pes) (f := fun q => S.worker q (.of H q))
      (g := fun q => S.worker q (.of (H ++ [m]) q)) fun q hq => by
        rw [View.of_concat_of_ne (by rw [hr]; simpa using Ne.symm hq)]
    simp only [ensemble, host_concat_of_receiver hr, hset]
  · refine (ha.collect c).trans ?_
    split <;> rfl
  · rw [if_neg (mt (over_concat hnot).1 ho)]
    rfl

/-- What the host sends upon a contribution. -/
def calls (S : Scenario) (H : List Letter) (k : Contribution.Kind) : List Letter :=
  match barrier? k with
  | some b => if S.Gathered b H then (List.range S.pes).map (.command b) else []
  | none => []

theorem parcels_upon (k : Contribution.Kind) :
    (S.upon H k).flatMap (Directive.parcels S.pes) = (S.calls H k).map S.parcel := by
  unfold upon calls
  cases barrier? k with
  | none => dsimp only; split <;> rfl
  | some b =>
    dsimp only
    split
    · exact parcels_directives b
    · rfl

theorem releases_contribution (k : Contribution.Kind) (hp : pe < S.pes) :
    S.Releases H (.contribution k pe) (S.calls (H ++ [.contribution k pe]) k) where
  nodup := by
    unfold calls
    cases barrier? k with
    | none => exact List.nodup_nil
    | some b =>
      dsimp only
      split
      · exact List.nodup_range.map fun _ _ he => by simpa using he
      · exact List.nodup_nil
  mem_iff := by
    intro c
    rw [mem_causes_contribution]
    simp only [mem_kinds, calls]
    constructor
    · intro hc
      split at hc
      · next b hb =>
        split at hc
        · next hg =>
          obtain ⟨q, hq, rfl⟩ := List.mem_map.1 hc
          exact ⟨⟨List.mem_range.1 hq, hg⟩, b, q, rfl, hb, hp⟩
        · cases hc
      · cases hc
    · rintro ⟨hs, b, q, rfl, hb, -⟩
      have hg : S.Gathered b (H ++ [.contribution k pe]) := hs.2
      rw [hb]
      dsimp only
      rw [if_pos hg]
      exact List.mem_map_of_mem (List.mem_range.2 hs.1)

/-- The arrival of a letter at the host. -/
theorem deliver_contribution {k : Contribution.Kind} (ha : S.Determined) (h : S.History H)
    (hs : S.Sent H (.contribution k pe)) (hn : .contribution k pe ∉ H) (ho : ¬ S.Over H)
    (hok : ∀ e, ¬ S.Fails H (.contribution k pe) e) :
    (S.ensemble H).deliver (S.parcel (.contribution k pe)) =
        .ok (S.ensemble (H ++ [.contribution k pe]))
          (.directives (S.upon (H ++ [.contribution k pe]) k)) ∧
      S.Turn H (.contribution k pe) (.directives (S.upon (H ++ [.contribution k pe]) k)) := by
  have hanswer : S.Gathered .partition (H ++ [.contribution k pe]) → S.Answered := by
    intro hg
    cases hans : S.answer with
    | ok ids => exact answered_of_eq hans
    | error e => exact absurd (.answer hg hans) (hok e)
  have hhost := contribute_host ha h hs hn hanswer
  have hview : ∀ q, View.of (H ++ [.contribution k pe]) q = View.of H q := fun q =>
    View.of_concat_of_ne (by simp [Letter.receiver?])
  refine ⟨?_, ⟨_, parcels_upon k, releases_contribution k hs.1⟩, ⟨[], ?_, fun c => rfl⟩, ?_⟩
  · show (((S.host H).contribute pe (S.contribution pe k)).mapState _).map _ = _
    rw [hhost]
    simp only [ensemble, hview, Outcome.mapState_ok, Outcome.map_ok]
  · rw [settledRanks_concat_contribution, List.append_nil]
  · show (S.upon _ k).findSome? Directive.report? = _
    unfold upon
    cases hb : barrier? k with
    | none =>
      dsimp only
      split <;> rfl
    | some b =>
      have hk : k ≠ .deviation := by
        rintro rfl
        cases hb
      dsimp only
      rw [if_neg (mt (over_concat fun p => by simp [hk]).1 ho)]
      split
      · exact report_directives b
      · rfl

theorem receiver_lt (hs : S.Occurs m) (hr : m.receiver? = some pe) : pe < S.pes := by
  cases m with
  | contribution k p => cases hr
  | command b p => cases hr; exact hs
  | peer x s t =>
    cases hr
    cases x with
    | add => exact lt_of_mem_keys_exports (Nat.zero_lt_of_lt hs.1) hs.2
    | ack => exact hs.1
    | request => exact (lt_of_mem_keys_asked hs.1 hs.2).trans hs.1
    | reply => exact hs.1
  | lower s => cases hr; exact hs

/-- A letter makes its receiver fail, or everyone does what the history asks for. -/
theorem deliver_letter (ha : S.Determined) (h : S.History H) (hs : S.Sent H m) (hn : m ∉ H)
    (ho : ¬ S.Over H) :
    (∃ e, S.Fails H m e ∧ ((S.ensemble H).deliver (S.parcel m)).result = .error e) ∨
      S.History (H ++ [m]) ∧ ∃ r,
        (S.ensemble H).deliver (S.parcel m) = .ok (S.ensemble (H ++ [m])) r ∧ S.Turn H m r := by
  cases hr : m.receiver? with
  | some pe =>
    have hp := receiver_lt hs.1 hr
    rcases h.answers hs hn hr with ⟨e, hf, he⟩ | ⟨hok, as, has⟩
    · refine .inl ⟨_, hf, ?_⟩
      rw [deliver_of_receiver hr]
      exact Ensemble.onWorker_error (getElem?_workers hp) (congrArg (Except.mapError _) he)
    · exact .inr ⟨h.concat hs hn hok, _, deliver_answers hr hp ho has⟩
  | none =>
    cases m with
    | contribution k pe =>
      by_cases hok : ∃ e, S.Fails H (.contribution k pe) e
      · obtain ⟨e, hf⟩ := hok
        refine .inl ⟨e, hf, ?_⟩
        cases hf with
        | answer hg he =>
          have herr := contribute_host_error ha h hs hn hg he
          show (((S.host H).contribute pe (S.contribution pe k)).result.map _) = _
          rw [herr]
          rfl
      · have hok := not_exists.1 hok
        exact .inr ⟨h.concat hs hn hok, _, deliver_contribution ha h hs hn ho hok⟩
    | command b pe => cases hr
    | peer x s t => cases hr
    | lower s => cases hr

/-! ### Networks -/

/-- A network whose history is `H`. -/
structure Reflects (S : Scenario) (H : List Letter) (n : Network) : Prop where
  history : S.History H
  ensemble : n.ensemble = S.ensemble H
  pool : ∃ flight : List Letter, n.pool = flight.map S.parcel ∧ flight.Nodup ∧
    ∀ m, m ∈ flight ↔ S.Sent H m ∧ m ∉ H
  delivered : n.delivered = H.length
  collector : ∃ ranks : List Nat, ranks.Perm (S.settledRanks H) ∧
    n.collector = ranks.foldl S.handOut {}
  ending : n.ending = if S.Over H then some (.ok S.report) else none

/-- A run that failed upon the arrival of a letter. -/
structure Broken (S : Scenario) (H : List Letter) (m : Letter) (e : Failure RunError)
    (n : Network) : Prop where
  history : S.History H
  sent : S.Sent H m
  new : m ∉ H
  fails : S.Fails H m e
  delivered : n.delivered = H.length + 1
  ending : n.ending = some (.error e)

variable {n k : Network}

theorem Reflects.not_over (h : S.Reflects H n) (he : n.ending = none) : ¬ S.Over H := by
  intro ho
  rw [h.ending, if_pos ho] at he
  cases he

/-- What is on its way after the arrival of a letter. -/
theorem mem_flight_concat {c : Letter} {flight out : List Letter} (hm : S.Sent H m) (hn : m ∉ H)
    (hsent : ∀ c ∈ H, S.Sent H c) (hnd : flight.Nodup)
    (hflight : ∀ c, c ∈ flight ↔ S.Sent H c ∧ c ∉ H) (hrel : S.Releases H m out) :
    c ∈ flight.erase m ++ out ↔ S.Sent (H ++ [m]) c ∧ c ∉ H ++ [m] := by
  have hnew : ∀ c, S.Sent H c → m ∉ S.causes c := fun c hc hmc => hn (hc.2 m hmc)
  rw [List.mem_append, hnd.mem_erase_iff, hflight, hrel.mem_iff, List.mem_append,
    List.mem_singleton, not_or]
  constructor
  · intro hcases
    rcases hcases with ⟨hne, hc, hcn⟩ | ⟨hc, hmc⟩
    · exact ⟨hc.mono (List.subset_append_left _ _), hcn, hne⟩
    · refine ⟨hc, fun hH => hnew c (hsent c hH) hmc, ?_⟩
      rintro rfl
      exact hnew c hm hmc
  · rintro ⟨hc, hcn, hne⟩
    by_cases hmc : m ∈ S.causes c
    · exact .inr ⟨hc, hmc⟩
    · refine .inl ⟨hne, ⟨hc.1, fun c' hc' => ?_⟩, hcn⟩
      refine (List.mem_append.1 (hc.2 c' hc')).resolve_right fun hm' => hmc ?_
      exact List.mem_singleton.1 hm' ▸ hc'

/-- A delivery takes a letter from those in flight to its receiver. -/
theorem Reflects.deliver_eq (h : S.Reflects H n) {i : Nat} (hd : n.deliver i = some k) :
    ∃ (flight : List Letter) (m : Letter), flight.Nodup ∧
      (∀ c, c ∈ flight ↔ S.Sent H c ∧ c ∉ H) ∧ m ∈ flight ∧ ¬ S.Over H ∧
      n.pool[i]? = some (S.parcel m) ∧
      k = Network.absorb { n with
        pool := (flight.erase m).map S.parcel, delivered := n.delivered + 1 }
        ((S.ensemble H).deliver (S.parcel m)) := by
  obtain ⟨flight, hpool, hnd, hflight⟩ := h.pool
  have hnone : n.ending = none := by
    unfold Network.deliver at hd
    split at hd
    · assumption
    · cases hd
  cases hi : flight[i]? with
  | none =>
    simp [Network.deliver, hnone, hpool, hi] at hd
  | some m =>
    have herase : flight.eraseIdx i = flight.erase m := by
      obtain ⟨hlt, hget⟩ := List.getElem?_eq_some_iff.1 hi
      rw [← hget, hnd.erase_getElem]
    refine ⟨flight, m, hnd, hflight, List.mem_of_getElem? hi, h.not_over hnone, ?_, ?_⟩
    · rw [hpool, List.getElem?_map, hi, Option.map_some]
    · simp only [Network.deliver, hnone, hpool, List.getElem?_map, hi, Option.map_some,
        Option.some.injEq] at hd
      rw [← hd, h.ensemble, ← herase, List.eraseIdx_map, hnone]

/-- The turn of a receiver leaves the network as the longer history says. -/
theorem Reflects.absorb (h : S.Reflects H n) {flight : List Letter} {r : Response}
    (hnd : flight.Nodup) (hflight : ∀ c, c ∈ flight ↔ S.Sent H c ∧ c ∉ H) (hm : m ∈ flight)
    (hh : S.History (H ++ [m])) (ht : S.Turn H m r) :
    S.Reflects (H ++ [m]) (Network.absorb { n with
      pool := (flight.erase m).map S.parcel, delivered := n.delivered + 1 }
      (.ok (S.ensemble (H ++ [m])) r)) := by
  obtain ⟨hs, hn⟩ := (hflight m).1 hm
  obtain ⟨out, hout, hrel⟩ := ht.parcels
  obtain ⟨ranks, hranks, hcollect⟩ := ht.collect
  obtain ⟨settled, hsettled, hcollector⟩ := h.collector
  simp only [Network.absorb, Outcome.result_ok, Outcome.state_ok, pes_ensemble, hout,
    ← List.map_append, ht.report, hcollect]
  refine ⟨hh, rfl, ⟨_, rfl, ?_, fun c => ?_⟩, ?_, ⟨settled ++ ranks, ?_, ?_⟩, ?_⟩
  · refine List.nodup_append.2 ⟨hnd.erase m, hrel.nodup, ?_⟩
    rintro c hc _ hc' rfl
    have hsent := ((hflight c).1 (List.mem_of_mem_erase hc)).1
    exact hn (hsent.2 m ((hrel.mem_iff c).1 hc').2)
  · exact mem_flight_concat hs hn h.history.sent hnd hflight hrel
  · simp [h.delivered]
  · exact (hsettled.append_right ranks).trans hranks.symm
  · simp only [hcollector, List.foldl_append]
  · dsimp only
    split <;> rfl

/-- Upon a delivery the history gets longer, or the receiver of the letter fails. -/
theorem Reflects.deliver_cases (h : S.Reflects H n) (ha : S.Determined) {i : Nat}
    (hd : n.deliver i = some k) :
    ∃ (flight : List Letter) (m : Letter), flight.Nodup ∧
      (∀ c, c ∈ flight ↔ S.Sent H c ∧ c ∉ H) ∧ m ∈ flight ∧
      n.pool[i]? = some (S.parcel m) ∧
      (S.Reflects (H ++ [m]) k ∨ ∃ e, S.Fails H m e ∧
        ((S.ensemble H).deliver (S.parcel m)).result = .error e ∧
        k = Network.absorb { n with
          pool := (flight.erase m).map S.parcel, delivered := n.delivered + 1 }
          ((S.ensemble H).deliver (S.parcel m))) := by
  obtain ⟨flight, m, hnd, hflight, hm, ho, hpool, hk⟩ := h.deliver_eq hd
  obtain ⟨hs, hn⟩ := (hflight m).1 hm
  refine ⟨flight, m, hnd, hflight, hm, hpool, ?_⟩
  rcases deliver_letter ha h.history hs hn ho with ⟨e, hf, he⟩ | ⟨hh, r, hr, ht⟩
  · exact .inr ⟨e, hf, he, hk⟩
  · rw [hk, hr]
    exact .inl (h.absorb hnd hflight hm hh ht)

/-- After a delivery the network is what the longer history says, or the run has failed. -/
theorem Reflects.deliver (h : S.Reflects H n) (ha : S.Determined) {i : Nat}
    (hd : n.deliver i = some k) :
    ∃ m, S.Reflects (H ++ [m]) k ∨ ∃ e, S.Broken H m e k := by
  obtain ⟨flight, m, -, hflight, hm, -, hlonger | ⟨e, hf, he, rfl⟩⟩ := h.deliver_cases ha hd
  · exact ⟨m, .inl hlonger⟩
  · obtain ⟨hs, hn⟩ := (hflight m).1 hm
    refine ⟨m, .inr ⟨e, h.history, hs, hn, hf, ?_, ?_⟩⟩
    · rw [Network.absorb, he, ← h.delivered]
    · rw [Network.absorb, he]

end Scenario
end MeshDecomp
