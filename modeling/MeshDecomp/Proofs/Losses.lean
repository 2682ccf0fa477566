import MeshDecomp.Proofs.HonestRuns
import MeshDecomp.Proofs.Quiescence

/-!
Runs that lose messages. For those that take part, a lost message is one that is still on its way:
a lossy run is a run without losses whose pool also holds what was lost.
-/

namespace MeshDecomp

namespace Network

variable {n m k s : Network} {lost : List Parcel} {p : Parcel} {i : Nat}

/-- The network with other messages on their way. -/
def withPool (n : Network) (pool : List Parcel) : Network := { n with pool }

@[simp] theorem pool_withPool (pool : List Parcel) : (n.withPool pool).pool = pool := rfl

@[simp] theorem ending_withPool (pool : List Parcel) : (n.withPool pool).ending = n.ending := rfl

@[simp] theorem delivered_withPool (pool : List Parcel) :
    (n.withPool pool).delivered = n.delivered := rfl

/-- A call adds to the pool, whatever is in there. -/
theorem absorb_withPool (n : Network) (o : Ensemble.Result Response) :
    ∃ out, ∀ pool, (n.withPool pool).absorb o = (n.absorb o).withPool (pool ++ out) := by
  unfold absorb
  cases o.result with
  | error e => exact ⟨[], fun pool => by simp [withPool]⟩
  | ok r => exact ⟨_, fun pool => rfl⟩

/-- A message on its way can be delivered, unless the run ended. -/
theorem deliver_eq_some (he : n.ending = none) (hp : n.pool[i]? = some p) :
    n.deliver i = some (absorb { n with
      pool := n.pool.eraseIdx i, delivered := n.delivered + 1 } (n.ensemble.deliver p)) := by
  rw [deliver, he, hp]

theorem lose_eq_some (h : n.lose i = some k) :
    ∃ p, n.pool[i]? = some p ∧ n.ending = none ∧ k = n.withPool (n.pool.eraseIdx i) := by
  unfold lose at h
  split at h
  · next p he hp => exact ⟨p, hp, he, (Option.some.inj h).symm⟩
  · cases h

theorem perm_cons_eraseIdx {l : List Parcel} (h : l[i]? = some p) :
    l.Perm (p :: l.eraseIdx i) := by
  obtain ⟨hlt, rfl⟩ := List.getElem?_eq_some_iff.1 h
  exact (List.getElem_cons_eraseIdx_perm hlt).symm

/-- What is delivered in a network can be delivered as well with more messages on their way. -/
theorem deliver_withPool {pool : List Parcel} (h : n.deliver i = some k)
    (hpool : pool.Perm (n.pool ++ lost)) :
    ∃ j pool', pool'.Perm (k.pool ++ lost) ∧
      (n.withPool pool).deliver j = some (k.withPool pool') := by
  have he : n.ending = none := ending_of_deliver h
  obtain ⟨p, hp⟩ : ∃ p, n.pool[i]? = some p := by
    by_contra hnone
    rw [deliver, he, Option.eq_none_iff_forall_ne_some.2 (not_exists.1 hnone)] at h
    cases h
  have hmem : p ∈ pool := hpool.mem_iff.2 (List.mem_append_left _ (List.mem_of_getElem? hp))
  obtain ⟨j, hj⟩ := List.mem_iff_getElem?.1 hmem
  have hrest : (pool.eraseIdx j).Perm (n.pool.eraseIdx i ++ lost) := by
    have hall := (perm_cons_eraseIdx hj).symm.trans hpool
    exact (hall.trans ((perm_cons_eraseIdx hp).append_right lost)).cons_inv
  obtain ⟨out, hout⟩ := absorb_withPool { n with delivered := n.delivered + 1 }
    (n.ensemble.deliver p)
  have hk : k = _ := Option.some.inj (h.symm.trans ((deliver_eq_some he hp).trans
    (congrArg some (hout (n.pool.eraseIdx i)))))
  refine ⟨j, pool.eraseIdx j ++ out, ?_, ?_⟩
  · rw [hk, pool_withPool, List.append_assoc]
    refine (hrest.append_right out).trans ?_
    rw [List.append_assoc]
    exact (List.perm_append_comm).append_left _
  · have hj' : (n.withPool pool).pool[j]? = some p := hj
    rw [deliver_eq_some (ending_withPool pool ▸ he) hj', hk]
    exact congrArg some (hout (pool.eraseIdx j))

/-- A lossy run is a run whose lost messages stay on their way. -/
theorem LossyRun.exists_reaches (h : n.LossyRun lost s) :
    ∃ pool, pool.Perm (s.pool ++ lost) ∧ n.Reaches (s.withPool pool) := by
  induction h with
  | nil => exact ⟨n.pool, by simp, .refl⟩
  | deliver i _ hd ih =>
    obtain ⟨pool, hpool, hr⟩ := ih
    obtain ⟨j, pool', hpool', hd'⟩ := deliver_withPool hd hpool
    exact ⟨pool', hpool', .deliver j hr hd'⟩
  | @lose lost m k p i _ hp hl ih =>
    obtain ⟨pool, hpool, hr⟩ := ih
    obtain ⟨_, -, -, rfl⟩ := lose_eq_some hl
    refine ⟨pool, hpool.trans (((perm_cons_eraseIdx hp).append_right lost).trans ?_), hr⟩
    rw [pool_withPool, ← List.append_assoc]
    exact (List.perm_append_singleton p (m.pool.eraseIdx i ++ lost)).symm

end Network

namespace Scenario

variable {S : Scenario} {H : List Letter} {n s k : Network} {lost : List Parcel} {ids : List Nat}

/-- What arrived and what is on its way are different letters. -/
theorem Reflects.delivered_add_length_le (h : S.Reflects H n) :
    n.delivered + n.pool.length ≤ S.letters.length := by
  obtain ⟨flight, hpool, hnd, hflight⟩ := h.pool
  have hnodup : (H ++ flight).Nodup := by
    refine List.nodup_append.2 ⟨h.history.nodup, hnd, ?_⟩
    rintro c hc _ hm rfl
    exact ((hflight c).1 hm).2 hc
  have hsub : H ++ flight ⊆ S.letters := by
    intro c hc
    rcases List.mem_append.1 hc with hc | hc
    · exact mem_letters.2 (h.history.sent c hc).1
    · exact mem_letters.2 ((hflight c).1 hc).1.1
  have hlen : n.pool.length = flight.length := by rw [hpool, List.length_map]
  have hle := (hnodup.subperm hsub).length_le
  rwa [List.length_append, ← h.delivered, ← hlen] at hle

/-- Nothing is on its way any more when a run has finished. -/
theorem Reflects.pool_of_over (h : S.Reflects H n) (ho : S.Over H) (hp : 0 < S.pes) :
    n.pool = [] := by
  obtain ⟨flight, hpool, -, hflight⟩ := h.pool
  have hnil : flight = [] := List.eq_nil_iff_forall_not_mem.2 fun c hc =>
    ((hflight c).1 hc).2 (h.history.mem_of_over ho hp ((hflight c).1 hc).1.1)
  rw [hpool, hnil, List.map_nil]

/-- A run that finishes has lost nothing. -/
theorem lost_eq_nil_of_finished {r : Report} (ha : S.Admissible) (hl : S.launch = .ok n)
    (hr : n.LossyRun lost s) (he : s.ending = some (.ok r)) : lost = [] := by
  obtain ⟨pool, hpool, hreach⟩ := hr.exists_reaches
  obtain ⟨H, h, ho, -⟩ := reflects_of_finished ha hl hreach he
  have hnil : pool = [] := h.pool_of_over ho ha.pes_pos
  rw [hnil] at hpool
  exact (List.append_eq_nil_iff.1 hpool.symm.eq_nil).2

/-- Every delivery and every loss uses up a letter. -/
theorem delivered_add_length_lost_le (ha : S.Admissible) (hl : S.launch = .ok n)
    (hr : n.LossyRun lost s) (he : s.ending = none) :
    s.delivered + lost.length ≤ S.letters.length := by
  obtain ⟨pool, hpool, hreach⟩ := hr.exists_reaches
  rcases reaches_cases ha hl hreach with ⟨H, h⟩ | ⟨H, m, e, h⟩
  · have hle : s.delivered + pool.length ≤ S.letters.length := h.delivered_add_length_le
    rw [hpool.length_eq, List.length_append] at hle
    omega
  · have hend : s.ending = some (.error e) := h.ending
    rw [he] at hend
    cases hend

theorem not_lossyEndless (ha : S.Admissible) (hl : S.launch = .ok n) : ¬ n.LossyEndless := by
  rintro ⟨run, h0, hstep⟩
  have hreach : ∀ k, ∃ lost, n.LossyRun lost (run k) ∧ k ≤ (run k).delivered + lost.length := by
    intro k
    induction k with
    | zero => exact ⟨[], h0 ▸ .nil, Nat.zero_le _⟩
    | succ k ih =>
      obtain ⟨lost, hr, hle⟩ := ih
      obtain ⟨i, hd | hi⟩ := hstep k
      · refine ⟨lost, .deliver i hr hd, ?_⟩
        rw [Network.delivered_deliver hd]
        omega
      · obtain ⟨p, hp, -, hk⟩ := Network.lose_eq_some hi
        refine ⟨lost ++ [p], .lose i hr hp hi, ?_⟩
        rw [hk, Network.delivered_withPool, List.length_append, List.length_singleton]
        omega
  obtain ⟨lost, hr, hle⟩ := hreach (S.letters.length + 1)
  have hend : (run (S.letters.length + 1)).ending = none := by
    obtain ⟨i, hd | hi⟩ := hstep (S.letters.length + 1)
    · exact Network.ending_of_deliver hd
    · exact (Network.lose_eq_some hi).choose_spec.2.1
  have := delivered_add_length_lost_le ha hl hr hend
  omega

/-- No loss of messages leads to a report, or to a failure but that of a work unit without elements:
in the end nothing is on its way and nothing was reported. -/
theorem lossy_run_never_finishes (ha : S.Admissible) (hm : S.mesh.InMemory)
    (hu : S.pes ≤ S.units) (hh : S.Honest ids) :
    ∃ n, S.launch = .ok n ∧ ¬ n.LossyEndless ∧ ∀ lost s, n.LossyRun lost s → lost ≠ [] →
      (∀ r, s.ending ≠ some (.ok r)) ∧
      (∀ e, s.ending = some (.error e) → ∃ unit < S.units, unit ∉ ids ∧
        e = .error (.overdecomposition (Block.owner S.units S.pes unit) unit S.units S.pes)) ∧
      (s.AtRest → s.ending = none ∧ s.pool = [] ∨ ∃ e, s.ending = some (.error e)) := by
  have hl := launch_eq ha
  refine ⟨_, hl, not_lossyEndless ha hl, fun lost s hr hlost => ?_⟩
  have hreport : ∀ r, s.ending ≠ some (.ok r) := fun r he =>
    hlost (lost_eq_nil_of_finished ha hl hr he)
  refine ⟨hreport, fun e he => ?_, fun hrest => ?_⟩
  · obtain ⟨pool, -, hreach⟩ := hr.exists_reaches
    exact hh.eq_overdecomposition ha hm hu hl hreach he
  · match he : s.ending with
    | none => exact .inl ⟨rfl, Network.pool_eq_nil hrest he⟩
    | some (.ok r) => exact absurd he (hreport r)
    | some (.error e) => exact .inr ⟨e, rfl⟩

/-- The first message that the two ranks send is lost. -/
theorem pair_never_finishes :
    pair.Admissible ∧ pair.mesh.InMemory ∧ pair.pes ≤ pair.units ∧ pair.Honest [0, 1] ∧
      ∃ n, pair.launch = .ok n ∧ ∃ p s, n.LossyRun [p] s ∧ (∀ r, s.ending ≠ some (.ok r)) ∧
        (∀ e, s.ending = some (.error e) → ∃ unit < pair.units, unit ∉ [0, 1] ∧
          e = .error (.overdecomposition (Block.owner pair.units pair.pes unit) unit pair.units
            pair.pes)) ∧
        (s.AtRest → s.ending = none ∧ s.pool = [] ∨ ∃ e, s.ending = some (.error e)) := by
  have hm : pair.mesh.InMemory := by
    unfold TetMesh.InMemory
    decide
  have hh : pair.Honest [0, 1] := ⟨rfl, rfl, by decide⟩
  obtain ⟨n, hl, -, hlost⟩ := lossy_run_never_finishes admissible_pair hm (by decide) hh
  refine ⟨admissible_pair, hm, by decide, hh, n, hl, pair.parcel (.contribution .load 0),
    n.withPool n.pool.tail, ?_⟩
  have hrun : n.LossyRun [pair.parcel (.contribution .load 0)] (n.withPool n.pool.tail) := by
    obtain rfl := Except.ok.inj (hl.symm.trans (launch_eq admissible_pair))
    exact .lose 0 .nil rfl rfl
  exact ⟨hrun, hlost _ _ hrun (List.cons_ne_nil _ _)⟩

end Scenario
end MeshDecomp
