import MeshDecomp.Partition.Elementary
import MeshDecomp.Proofs.Barriers
import MeshDecomp.Proofs.DeliveryOrder

/-!
Where the settings leave the number of work units open, the host decides on it once it knows the
elements. The run goes step by step as with that number in the settings.
-/

namespace MeshDecomp

namespace Scenario

variable {S : Scenario} {H : List Letter} {pe : Nat} {k : Contribution.Kind} {m : Letter}

/-- What the host decides on for the whole mesh. -/
def decision (S : Scenario) : Except RunError Nat := (S.host []).decideUnits S.mesh.size

/-- The number of work units in the settings. Where the host cannot decide, a partitioner without
an answer makes it fail at the same contribution. -/
def decided (S : Scenario) : Scenario :=
  match S.decision with
  | .ok n => { S with settings := { S.settings with units := some n } }
  | .error _ =>
      { S with
        settings := { S.settings with units := some S.pes }
        partitioner := .failing S.partitioner.name S.partitioner.geometric "" }

theorem decideUnits_eq_decision {h : Host} (hs : h.settings = S.settings) (hp : h.pes = S.pes) :
    h.decideUnits S.mesh.size = S.decision := by
  simp only [decision, Host.decideUnits, hs, hp]
  rfl

/-- A decision gives every rank at least one work unit. -/
theorem pes_le_decision {n : Nat} (h : S.decision = .ok n) : S.pes ≤ n := by
  have hlast : ∀ u, (if u < S.pes then throw (.tooFewUnits u S.pes) else return u :
      Except RunError Nat) = .ok n → S.pes ≤ n := by
    intro u hu
    split at hu
    · cases hu
    · next hle =>
      cases hu
      exact Nat.le_of_not_lt hle
  unfold decision Host.decideUnits at h
  cases hu : (S.host []).settings.units with
  | some u =>
    rw [hu] at h
    exact hlast u h
  | none =>
    rw [hu] at h
    cases hg : (Granularity.ofShare (S.host []).settings.virtualization S.mesh.size
        (S.host []).pes).mapError RunError.settings with
    | error e =>
      rw [hg] at h
      cases h
    | ok g =>
      rw [hg] at h
      exact hlast g.units h

theorem decided_of_ok {n : Nat} (h : S.decision = .ok n) :
    S.decided = { S with settings := { S.settings with units := some n } } := by
  rw [decided, h]

theorem decided_of_error {e : RunError} (h : S.decision = .error e) :
    S.decided = { S with
      settings := { S.settings with units := some S.pes }
      partitioner := .failing S.partitioner.name S.partitioner.geometric "" } := by
  rw [decided, h]

/-- Only the number of work units and the answer of the partitioner can differ. -/
theorem decided_frame (S : Scenario) :
    S.decided.mesh = S.mesh ∧ S.decided.pes = S.pes ∧
      S.decided.partitioner.geometric = S.partitioner.geometric := by
  cases h : S.decision with
  | ok n =>
    rw [decided_of_ok h]
    exact ⟨rfl, rfl, rfl⟩
  | error e =>
    rw [decided_of_error h]
    exact ⟨rfl, rfl, rfl⟩

theorem validate_units {st : Settings} (h : st.validate = .ok ()) {n : Nat} (hn : 0 < n) :
    ({ st with units := some n } : Settings).validate = .ok () := by
  unfold Settings.validate at h ⊢
  split at h
  · cases h
  · next hshare =>
    have hne : some n ≠ some 0 := by
      simpa using Nat.ne_of_gt hn
    rw [if_neg hshare, if_neg hne]

theorem Launchable.decided (h : S.Launchable) :
    S.decided.Determined ∧ S.decided.pes ≤ S.decided.units := by
  cases hd : S.decision with
  | ok n =>
    have hle := pes_le_decision hd
    rw [decided_of_ok hd]
    exact ⟨⟨⟨h.complete, h.pes_pos, h.room,
      validate_units h.valid (Nat.lt_of_lt_of_le h.pes_pos hle)⟩, rfl⟩, hle⟩
  | error e =>
    rw [decided_of_error hd]
    exact ⟨⟨⟨h.complete, h.pes_pos, h.room, validate_units h.valid h.pes_pos⟩, rfl⟩, Nat.le_refl _⟩

end Scenario

/-! ### Two hosts step by step -/

/-- The same outcome but for the settings of the host, or two failures. -/
def Host.Alike (st : Settings) (p : Partitioner) (o o' : Host.Result α) : Prop :=
  o = o'.mapState (Host.under st p) ∨
    (∃ e, o.result = .error e) ∧ ∃ e, o'.result = .error e

namespace Host

variable {st : Settings} {p : Partitioner} {h : Host}

/-- The load of all ranks together. -/
def load (h : Host) : Nat := h.loads.values.foldr (· + ·) 0

theorem tryPartition_under {n : Nat} (hd : (h.under st h.partitioner).decideUnits h.load = .ok n)
    (hd' : h.decideUnits h.load = .ok n) :
    (h.under st h.partitioner).tryPartition = h.tryPartition.mapState (under st h.partitioner) := by
  by_cases hc : (h.loads.complete && h.setups.complete && h.slices.complete) = true
  · rw [tryPartition_of_ok (h := h.under st h.partitioner) hc rfl hd, tryPartition_of_ok hc rfl hd']
    rfl
  · rw [tryPartition, tryPartition, if_neg hc]
    exact if_neg hc

end Host

namespace Scenario

variable {S : Scenario} {H : List Letter} {pe : Nat} {k : Contribution.Kind} {m : Letter}

theorem answer_decided_of_error {e : RunError} (h : S.decision = .error e) :
    ∃ e, S.decided.answer = .error e := by
  rw [decided_of_error h]
  unfold answer
  split
  · exact ⟨_, rfl⟩
  · split
    · exact ⟨_, rfl⟩
    · exact ⟨_, rfl⟩

theorem load_next (hs : S.Launchable) (hg : S.decided.Genuine (H ++ [m]))
    (hgd : S.decided.Gathered .partition (H ++ [m])) :
    (S.decided.next H m).load = S.mesh.size := by
  rw [← S.decided_frame.1]
  exact sum_loads_next hs.decided.1.pes_pos hg hgd

/-- The contribution upon which the host may partition. -/
theorem tryPartition_alike (hs : S.Launchable) (hg : S.decided.Genuine (H ++ [m]))
    (hn : ¬ S.decided.Gathered .partition H)
    (hb : ∀ b, b ≠ .partition →
      (S.decided.Gathered b (H ++ [m]) ↔ S.decided.Gathered b H)) :
    Host.Alike S.settings S.partitioner
      ((S.decided.next H m).under S.settings S.partitioner).tryPartition
      (S.decided.next H m).tryPartition := by
  obtain ⟨hd, hunits⟩ := hs.decided
  obtain ⟨hmesh, hpes, -⟩ := S.decided_frame
  have hcond := complete_partition hg hn
  by_cases hgd : S.decided.Gathered .partition (H ++ [m])
  · have hload := load_next hs hg hgd
    have hdecision : ((S.decided.next H m).under S.settings S.partitioner).decideUnits
        (S.decided.next H m).load = S.decision := by
      rw [hload]
      exact decideUnits_eq_decision rfl hpes
    cases hdec : S.decision with
    | ok n =>
      left
      have hpart : (S.decided.next H m).partitioner = S.partitioner := by
        change S.decided.partitioner = S.partitioner
        rw [decided_of_ok hdec]
      have hself : (S.decided.next H m).decideUnits (S.decided.next H m).load = .ok n := by
        rw [hload, ← hmesh, decideUnits_eq hd.explicit rfl rfl, if_neg (Nat.not_lt.2 hunits)]
        rw [decided_of_ok hdec]
        rfl
      rw [← hpart] at hdecision ⊢
      exact Host.tryPartition_under (hdecision.trans hdec) hself
    | error e =>
      right
      obtain ⟨e', he'⟩ := answer_decided_of_error hdec
      obtain ⟨-, hyes⟩ := tryPartition_next hd.pes_pos hd.explicit hg hn hb
      have hfails := Host.tryPartition_of_error
        (h := (S.decided.next H m).under S.settings S.partitioner) (hcond.2 hgd) rfl
        (hdecision.trans hdec)
      exact ⟨⟨_, congrArg Outcome.result hfails⟩, e', (hyes hgd).2 e' he'⟩
  · left
    have hno : ¬ ((S.decided.next H m).loads.complete && (S.decided.next H m).setups.complete &&
        (S.decided.next H m).slices.complete) = true := mt hcond.1 hgd
    rw [Host.tryPartition, Host.tryPartition, if_neg hno]
    exact if_neg hno

/-- A contribution finds the host alike, and leaves it alike. -/
theorem contribute_alike (hs : S.Launchable) (h : S.decided.History H)
    (hm : S.decided.Sent H (.contribution k pe)) (hn : .contribution k pe ∉ H) :
    Host.Alike S.settings S.partitioner
      (((S.decided.host H).under S.settings S.partitioner).contribute pe
        (S.decided.contribution pe k))
      ((S.decided.host H).contribute pe (S.decided.contribution pe k)) := by
  have hpe : pe < S.decided.pes := hm.1
  by_cases hk : barrier? k = some .partition
  · rw [contribute_partition_under _ _ hk hpe hn, contribute_partition hk hpe hn]
    exact tryPartition_alike hs (h.genuine.concat hpe hn) (not_gathered (mem_kinds.2 hk) hpe hn)
      fun b hne => barrier_ne hk hne
  · left
    have hkind : (S.decided.contribution pe k).kind = k := by cases k <;> rfl
    have hlater : (S.decided.contribution pe k).kind ∉ Barrier.partition.kinds := by
      rw [hkind]
      exact mt mem_kinds.1 hk
    exact Host.contribute_revise (f := fun _ => S.settings) (g := fun _ => S.partitioner) (k := id)
      hlater

end Scenario

/-! ### Networks -/

/-- Processing elements with a host with other settings and another partitioner. -/
def Ensemble.under (st : Settings) (p : Partitioner) (e : Ensemble) : Ensemble :=
  { e with host := e.host.under st p }

/-- A network whose host has other settings and another partitioner. -/
def Network.under (st : Settings) (p : Partitioner) (n : Network) : Network :=
  { n with ensemble := n.ensemble.under st p }

/-- The same network but for the settings of the host, or two that failed. -/
inductive Network.Alike (st : Settings) (p : Partitioner) (s s' : Network) : Prop
  | same : s = s'.under st p → Alike st p s s'
  | failed (e e' : Failure RunError) : s.ending = some (.error e) → s'.ending = some (.error e') →
      s.delivered = s'.delivered → Alike st p s s'

theorem Ensemble.onWorker_under {st : Settings} {p : Partitioner} (e : Ensemble) (rank : Nat)
    (call : Worker → Outcome Worker (Failure RunError) (List Action)) :
    (e.under st p).onWorker rank call = (e.onWorker rank call).mapState (under st p) := by
  have hworkers : (e.under st p).workers = e.workers := rfl
  unfold onWorker
  rw [hworkers]
  cases e.workers[rank]? <;> rfl

namespace Network

variable {st : Settings} {p : Partitioner}

theorem absorb_under (n : Network) (o : Ensemble.Result Response) :
    (n.under st p).absorb (o.mapState (Ensemble.under st p)) = (n.absorb o).under st p := by
  obtain ⟨e, c | r⟩ := o <;> rfl

theorem absorb_failed {n : Network} {o : Ensemble.Result Response} {e : Failure RunError}
    (h : o.result = .error e) : (n.absorb o).ending = some (.error e) := by
  unfold absorb
  rw [h]

/-- Receivers that make alike what arrives keep networks alike. -/
theorem alike_absorb {n : Network} {o o' : Ensemble.Result Response}
    (h : o = o'.mapState (Ensemble.under st p) ∨
      (∃ e, o.result = .error e) ∧ ∃ e, o'.result = .error e) :
    Alike st p ((n.under st p).absorb o) (n.absorb o') := by
  rcases h with rfl | ⟨⟨e, he⟩, e', he'⟩
  · exact .same (absorb_under n o')
  · refine .failed e e' (absorb_failed he) (absorb_failed he') ?_
    rw [delivered_absorb, delivered_absorb]
    rfl

end Network

namespace Scenario

variable {S : Scenario} {H : List Letter} {m : Letter} {n s s' k : Network}

/-- Whoever a letter is for makes the same of it. -/
theorem ensemble_deliver_alike (hs : S.Launchable) (h : S.decided.History H)
    (hm : S.decided.Sent H m) (hn : m ∉ H) :
    ((S.decided.ensemble H).under S.settings S.partitioner).deliver (S.decided.parcel m) =
        ((S.decided.ensemble H).deliver (S.decided.parcel m)).mapState
          (Ensemble.under S.settings S.partitioner) ∨
      (∃ c, (((S.decided.ensemble H).under S.settings S.partitioner).deliver
          (S.decided.parcel m)).result = .error c) ∧
        ∃ c, ((S.decided.ensemble H).deliver (S.decided.parcel m)).result = .error c := by
  cases m with
  | contribution k pe =>
    rcases contribute_alike hs h hm hn with heq | ⟨⟨c, hc⟩, c', hc'⟩
    · left
      change ((((S.decided.host H).under S.settings S.partitioner).contribute pe
        (S.decided.contribution pe k)).mapState _).map _ = _
      rw [heq]
      rfl
    · right
      refine ⟨⟨c, ?_⟩, c', ?_⟩
      · change (((S.decided.host H).under S.settings S.partitioner).contribute pe
          (S.decided.contribution pe k)).result.map _ = _
        rw [hc]
        rfl
      · change ((S.decided.host H).contribute pe (S.decided.contribution pe k)).result.map _ = _
        rw [hc']
        rfl
  | command b pe => exact .inl (Ensemble.onWorker_under _ _ _)
  | peer x a b => cases x <;> exact .inl (Ensemble.onWorker_under _ _ _)
  | lower a => exact .inl (Ensemble.onWorker_under _ _ _)

theorem deliver_alike (hs : S.Launchable) (h : S.decided.Reflects H s') {i : Nat}
    (hd : (s'.under S.settings S.partitioner).deliver i = some k) :
    ∃ k', s'.deliver i = some k' ∧ Network.Alike S.settings S.partitioner k k' := by
  have hnone : s'.ending = none := by
    by_contra hne
    have hdone : (s'.under S.settings S.partitioner).deliver i = none :=
      Network.deliver_of_ending (n := s'.under S.settings S.partitioner) hne i
    cases hdone.symm.trans hd
  cases hp : s'.pool[i]? with
  | none =>
    simp [Network.deliver, Network.under, hp] at hd
  | some p =>
    have hd' : s'.deliver i = some (Network.absorb
        { s' with pool := s'.pool.eraseIdx i, delivered := s'.delivered + 1 }
        (s'.ensemble.deliver p)) := by
      simp only [Network.deliver, hnone, hp]
    have hk : some k = some (Network.absorb (Network.under S.settings S.partitioner
        { s' with pool := s'.pool.eraseIdx i, delivered := s'.delivered + 1 })
        ((s'.ensemble.under S.settings S.partitioner).deliver p)) := by
      rw [← hd]
      simp only [Network.deliver, Network.under, hnone, hp]
    obtain ⟨flight, m, -, hflight, hm, -, hpool, -⟩ := h.deliver_eq hd'
    obtain rfl : p = S.decided.parcel m := Option.some.inj (hp.symm.trans hpool)
    obtain ⟨hsent, hnew⟩ := (hflight m).1 hm
    refine ⟨_, hd', ?_⟩
    rw [Option.some.inj hk, h.ensemble]
    exact Network.alike_absorb (ensemble_deliver_alike hs h.history hsent hnew)

/-- Nobody has looked at the settings yet. -/
theorem ensemble_nil_under (hs : S.Launchable) :
    S.ensemble [] = (S.decided.ensemble []).under S.settings S.partitioner := by
  have hpos : 0 < S.decided.pes := hs.decided.1.pes_pos
  simp only [ensemble, View.of_nil, worker_nil, host_nil hs.pes_pos, host_nil hpos]
  cases h : S.decision with
  | ok n =>
    rw [decided_of_ok h]
    rfl
  | error e =>
    rw [decided_of_error h]
    rfl

theorem parcels_decided (n : Nat) :
    ((List.range n).flatMap firstLetters).map S.parcel =
      ((List.range n).flatMap firstLetters).map S.decided.parcel := by
  apply List.map_congr_left
  intro m hm
  obtain ⟨pe, -, hm⟩ := List.mem_flatMap.1 hm
  obtain ⟨hmesh, hpes, hgeometric⟩ := S.decided_frame
  simp only [firstLetters, List.mem_cons, List.not_mem_nil, or_false] at hm
  rcases hm with rfl | rfl | rfl
  · simp only [parcel, contribution, span, hmesh, hpes]
  · rfl
  · simp only [parcel, contribution, elementSlice, portion, slice, span, hmesh, hpes, hgeometric]

/-- The launch is alike. -/
theorem launch_alike (hs : S.Launchable) (hl : S.launch = .ok n) :
    ∃ n', S.decided.launch = .ok n' ∧ n = n'.under S.settings S.partitioner := by
  obtain ⟨hd, -⟩ := hs.decided
  refine ⟨_, hd.launch_eq, ?_⟩
  rw [← Except.ok.inj (hs.launch_eq.symm.trans hl), ensemble_nil_under hs, parcels_decided,
    ← S.decided_frame.2.1]
  rfl

/-- Whatever a run reaches, the run with the number of work units in the settings reaches alike. -/
theorem reaches_alike (hs : S.Launchable) (hl : S.launch = .ok n) (hr : n.Reaches s) :
    ∃ n' s', S.decided.launch = .ok n' ∧ n'.Reaches s' ∧
      Network.Alike S.settings S.partitioner s s' := by
  obtain ⟨hd, -⟩ := hs.decided
  obtain ⟨n', hl', hn⟩ := launch_alike hs hl
  induction hr with
  | refl => exact ⟨n', n', hl', .refl, .same hn⟩
  | @deliver m k i hr hstep ih =>
    obtain ⟨n', s', hl', hr', hsame | ⟨e, e', he, he', hdel⟩⟩ := ih
    · rcases reaches_cases hd hl' hr' with ⟨H, hrefl⟩ | ⟨H, c, e, hbroken⟩
      · obtain ⟨k', hk', halike⟩ := deliver_alike hs hrefl (hsame ▸ hstep)
        exact ⟨n', k', hl', .deliver i hr' hk', halike⟩
      · have hne : m.ending ≠ none := by
          rw [hsame]
          exact hbroken.ending ▸ Option.some_ne_none _
        cases hstep.symm.trans (Network.deliver_of_ending hne i)
    · cases hstep.symm.trans (Network.deliver_of_ending (by simp [he]) i)

/-! ### Ends of runs -/

/-- What a run that has finished leaves behind. -/
structure Completed (S : Scenario) (s : Network) : Prop where
  ending : s.ending = some (.ok S.report)
  units : s.collector.sortedUnits = (List.range S.units).map S.unit
  bounds : s.collector.bounds = .ofList ((List.range S.pes).map fun pe => (pe, S.bounds pe))
  workers : s.ensemble.workers.map (fun w => (w.bounds, w.cost)) =
    (List.range S.pes).map fun pe => (some (S.bounds pe), some (S.cost pe))

theorem completed_of_over (hp : 0 < S.pes) (h : S.Reflects H s) (ho : S.Over H) :
    S.Completed s where
  ending := by rw [h.ending, if_pos ho]
  units := sortedUnits_of_over hp h ho
  bounds := collected_bounds_of_over h ho
  workers := by
    have hw := congrArg (List.map fun x => (x.1, x.2.1)) (workers_of_over h ho)
    simpa only [List.map_map, Function.comp_def] using hw

theorem Completed.under {st : Settings} {p : Partitioner} (h : S.Completed s) :
    S.Completed (s.under st p) :=
  ⟨h.ending, h.units, h.bounds, h.workers⟩

/-- Without an explicit number of work units no order of deliveries goes on for ever either. -/
theorem Launchable.not_endless (hs : S.Launchable) (hl : S.launch = .ok n) : ¬ n.Endless := by
  refine Network.not_endless_of_delivered_le (b := S.decided.letters.length) fun s hr => ?_
  obtain ⟨n', s', hl', hr', halike⟩ := reaches_alike hs hl hr
  have hle := delivered_le hs.decided.1 hl' hr'
  cases halike with
  | same h => exact h ▸ hle
  | failed _ _ _ _ hdel => exact hdel ▸ hle

/-- Wherever a run ends, it has finished or failed, and which of the two is known from the
beginning. -/
theorem Launchable.atRest_cases (hs : S.Launchable) (hl : S.launch = .ok n) (hr : n.Reaches s)
    (hrest : s.AtRest) :
    S.decided.Finishes ∧ S.decided.Completed s ∨
      ¬ S.decided.Finishes ∧ ∃ e, s.ending = some (.error e) := by
  obtain ⟨hd, -⟩ := hs.decided
  obtain ⟨n', s', hl', hr', halike⟩ := reaches_alike hs hl hr
  rcases reaches_cases hd hl' hr' with ⟨H, hrefl⟩ | ⟨H, m, e, hbroken⟩
  · left
    have hsame : s = s'.under S.settings S.partitioner := by
      rcases halike with hsame | ⟨-, e', -, he', -⟩
      · exact hsame
      · rw [hrefl.ending] at he'
        split at he' <;> cases he'
    have ho : S.decided.Over H := by
      by_contra ho
      have hnone : s'.ending = none := by rw [hrefl.ending, if_neg ho]
      have hpool := Network.pool_eq_nil hrest (by rw [hsame]; exact hnone)
      rw [hsame] at hpool
      exact ho (hrefl.over_of_pool hpool)
    exact ⟨hrefl.history.finishes ho hd.pes_pos,
      hsame ▸ (completed_of_over hd.pes_pos hrefl ho).under⟩
  · right
    refine ⟨fun hf => hf.not_fails hbroken.sent hbroken.fails, ?_⟩
    rcases halike with hsame | ⟨c, -, hc, -, -⟩
    · exact ⟨e, hsame ▸ hbroken.ending⟩
    · exact ⟨c, hc⟩

end Scenario
end MeshDecomp
