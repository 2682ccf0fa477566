import MeshDecomp.Proofs.Agreement
import MeshDecomp.Proofs.JobPlans

/-!
Ranks that never crash agree on how a run ends, whatever their reader, their settings and their
partitioner are. Those that can be created go through their plan; if none can, all of them return
one error.
-/

namespace MeshDecomp

open Wire

/-! ### Ranks that cannot be created -/

namespace Progress

def isFresh : Progress → Bool
  | .fresh => true
  | _ => false

theorem turn_fresh_of_error {job : Job} {l : Link σ} {net : σ} {e : Failure RunError}
    (h : Rank.create job l.rank l.size = .error e) :
    ∃ net', Progress.fresh.turn job l net = some (.returned ⟨.error e, {}⟩, net') := by
  unfold turn
  dsimp only
  rw [h]
  exact ⟨_, rfl⟩

end Progress

/-- No rank can be created. -/
def Job.Barren (job : Job) (size : Nat) (e : RunError) : Prop :=
  ∀ rank < size, Rank.create job rank size = .error (.error e)

namespace Universe

/-- Every rank that had a turn returned one error. -/
def Fruitless (e : RunError) (u : Universe) : Prop :=
  ∀ p ∈ u.ranks, p = .fresh ∨ p = .returned ⟨.error (.error e), {}⟩

/-- The number of ranks that had no turn yet. -/
def fresh (u : Universe) : Nat := u.ranks.countP Progress.isFresh

namespace Fruitless

variable {job : Job} {u v : Universe} {e : RunError} {rank size : Nat}

theorem turn (h : u.Fruitless e) (hc : job.Barren u.ranks.length e)
    (ht : u.turn job rank = some v) :
    v.Fruitless e ∧ v.ranks.length = u.ranks.length ∧ v.fresh < u.fresh := by
  cases hp : u.ranks[rank]? with
  | none => simp [Universe.turn, hp] at ht
  | some p =>
    obtain ⟨hlt, hget⟩ := List.getElem?_eq_some_iff.1 hp
    have hmem := List.mem_of_getElem? hp
    rcases h p hmem with rfl | rfl
    · obtain ⟨mail, hturn⟩ := @Progress.turn_fresh_of_error _ job
        (.mailbox u.ranks.length rank) u.mail _ (hc rank hlt)
      obtain rfl : ⟨u.ranks.set rank (.returned ⟨.error (.error e), {}⟩), mail⟩ = v := by
        simpa [Universe.turn, hp, hturn] using ht
      refine ⟨fun q hq => ?_, List.length_set, ?_⟩
      · exact (List.mem_or_eq_of_mem_set hq).elim (h q) .inr
      · have hpos : 0 < u.ranks.countP Progress.isFresh := List.countP_pos_iff.2 ⟨_, hmem, rfl⟩
        have hset : (u.ranks.set rank (.returned ⟨.error (.error e), {}⟩)).countP
            Progress.isFresh = u.ranks.countP Progress.isFresh - 1 := by
          rw [List.countP_set hlt, hget]
          rfl
        show List.countP _ _ < _
        rw [hset]
        exact Nat.sub_lt hpos Nat.one_pos
    · rw [Universe.turn, hp] at ht
      cases ht

theorem reaches (h : u.Fruitless e) (hc : job.Barren u.ranks.length e) (hr : u.Reaches job v) :
    v.Fruitless e ∧ v.ranks.length = u.ranks.length := by
  induction hr with
  | refl => exact ⟨h, rfl⟩
  | turn rank _ ht ih =>
    obtain ⟨h', hlen⟩ := ih
    obtain ⟨h'', hlen', -⟩ := h'.turn (hlen ▸ hc) ht
    exact ⟨h'', hlen'.trans hlen⟩

theorem not_endless (h : u.Fruitless e) (hc : job.Barren u.ranks.length e) :
    ¬ u.Endless job := by
  rintro ⟨run, h0, hstep⟩
  have hrun : ∀ k, (run k).Fruitless e ∧ (run k).ranks.length = u.ranks.length ∧
      (run k).fresh + k ≤ u.fresh := by
    intro k
    induction k with
    | zero => exact h0.symm ▸ ⟨h, rfl, Nat.le_refl _⟩
    | succ k ih =>
      obtain ⟨hf, hlen, hk⟩ := ih
      obtain ⟨rank, ht⟩ := hstep k
      obtain ⟨hf', hlen', hlt⟩ := hf.turn (hlen ▸ hc) ht
      exact ⟨hf', hlen'.trans hlen, by omega⟩
  obtain ⟨-, -, hk⟩ := hrun (u.fresh + 1)
  omega

theorem not_crashed {pe : Nat} {c : Crash} (h : u.Fruitless e) : ¬ u.Crashed pe c := by
  rintro ⟨created, hc⟩
  rcases h _ (List.mem_of_getElem? hc) with hf | hr
  · cases hf
  · cases hr

/-- All ranks return the error. -/
theorem agreed (h : u.Fruitless e) (hc : job.Barren u.ranks.length e)
    (hg : ∀ pe user reason, e ≠ .aborted pe user reason) (hb : u.isBlocked job = true) :
    u.Agreed := by
  have hended : ∀ pe < u.ranks.length, u.Ended pe ⟨.error (.error e), {}⟩ := by
    intro pe hpe
    have hget := List.getElem?_eq_getElem hpe
    rcases h _ (List.getElem_mem hpe) with hf | hr
    · obtain ⟨mail, hturn⟩ := @Progress.turn_fresh_of_error _ job
        (.mailbox u.ranks.length pe) u.mail _ (hc pe hpe)
      have hnone := List.all_eq_true.1 hb pe (List.mem_range.2 hpe)
      simp [Universe.turn, hget, hf, hturn] at hnone
    · exact hget.trans (congrArg some hr)
  have hunique : ∀ {p e' c}, u.Ended p ⟨.error (.error e'), c⟩ → e' = e := by
    intro p e' c hp
    rcases h _ (List.mem_of_getElem? hp) with hf | hr
    · cases hf
    · cases hr
      rfl
  refine ⟨fun pe hpe => ⟨_, hended pe hpe⟩, .inr fun pe hpe => ⟨_, _, hended pe hpe⟩, ?_, ?_⟩
  · intro p q e₁ e₂ c c' hp hq
    rw [hunique hp, hunique hq]
  · intro p q user reason c hp
    exact absurd (hunique hp).symm (hg q user reason)

end Fruitless
end Universe

namespace Job

variable {job : Job} {size : Nat}

/-- No rank can be created with settings that no run can use. -/
theorem barren_of_validate {f : SettingsFault} (h : job.settings.validate = .error f) :
    job.Barren size (.settings f) := by
  intro rank _
  simp only [Rank.create, Worker.create, h, Except.mapError, bind, Except.bind]

/-- Before the first turn all ranks are fresh. -/
theorem exists_create (hs : size < 2 ^ 32) :
    ∃ u, Universe.create size = .ok u ∧ u.ranks.length = size ∧ ∀ p ∈ u.ranks, p = .fresh := by
  have hroom : ¬ Mailboxes.maxSize < size := by
    unfold Mailboxes.maxSize
    omega
  refine ⟨⟨List.replicate size .fresh, .empty size⟩, ?_, List.length_replicate,
    fun p hp => List.eq_of_mem_replicate hp⟩
  simp only [Universe.create, Mailboxes.create, hroom, ↓reduceIte, bind, Except.bind, pure,
    Except.pure]

/-- However ranks take their turns, these come to an end and no rank crashes. Where nobody has a
turn any more all ranks have returned, and agree. -/
def Agrees (job : Job) (size : Nat) : Prop :=
  ∃ u, Universe.create size = .ok u ∧ ¬ u.Endless job ∧ ∀ v, u.Reaches job v →
    (∀ pe c, ¬ v.Crashed pe c) ∧
      (v.isBlocked job = true → v.ranks.length = size ∧ v.Agreed)

theorem agrees_of_barren {e : RunError} (hs : size < 2 ^ 32) (hc : job.Barren size e)
    (hg : ∀ pe user reason, e ≠ .aborted pe user reason) : job.Agrees size := by
  obtain ⟨u, hu, rfl, hfresh⟩ := exists_create hs
  have hf : u.Fruitless e := fun p hp => .inl (hfresh p hp)
  refine ⟨u, hu, hf.not_endless hc, fun v hr => ?_⟩
  obtain ⟨hf, hlen⟩ := hf.reaches hc hr
  exact ⟨fun _ _ => hf.not_crashed, fun hb => ⟨hlen, hf.agreed (hlen.symm ▸ hc) hg hb⟩⟩

theorem agrees_of_validate {f : SettingsFault} (hs : size < 2 ^ 32)
    (h : job.settings.validate = .error f) : job.Agrees size :=
  agrees_of_barren hs (barren_of_validate h) fun _ _ _ => by simp

namespace Steady

variable (hz : job.Steady size)

include hz

/-- Ranks that can be created go through their plan. -/
theorem agrees_of_pos (hv : job.settings.validate = .ok ()) (hpos : 0 < size)
    (hs : size < 2 ^ 32) : job.Agrees size := by
  have hholds := hz.holds hv hpos hs
  have hsound := Plan.sound_nil hholds
  refine ⟨_, Plan.create_universe hholds, hsound.not_endless hholds, fun v hr => ?_⟩
  obtain ⟨L, hL, rfl⟩ := hsound.reaches hholds hr
  refine ⟨fun _ _ => hL.not_crashed, fun hb => ⟨?_, hL.agreed hholds (fun pe hpe e hf => ?_) hb⟩⟩
  · have hlen : ((job.plan size).universeOf L).ranks.length = (job.scenario size).pes := by
      simp [Plan.universeOf]
    exact hlen
  · obtain ⟨c, rfl, -⟩ := of_fault_eq_some hz.reading hpe hf
    rfl

/-- Ranks that never crash agree. -/
theorem agrees (hs : size < 2 ^ 32) : job.Agrees size := by
  cases hv : job.settings.validate with
  | error f => exact agrees_of_validate hs hv
  | ok =>
    rcases Nat.eq_zero_or_pos size with rfl | hpos
    · have hnone : job.Barren 0 (.stalled 0) := fun _ hrank => absurd hrank (Nat.not_lt_zero _)
      exact agrees_of_barren hs hnone fun _ _ _ => by simp
    · exact hz.agrees_of_pos hv hpos hs

end Steady
end Job
end MeshDecomp
