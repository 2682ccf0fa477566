import MeshDecomp.Proofs.Launch

/-! Whole runs: every order of deliveries ends, with the report or with the failure of a letter. -/
namespace MeshDecomp

namespace Network

variable {n m k s : Network}

theorem delivered_absorb (n : Network) (o : Ensemble.Result Response) :
    (n.absorb o).delivered = n.delivered := by
  unfold absorb
  split <;> rfl

theorem delivered_deliver {i : Nat} (h : n.deliver i = some k) : k.delivered = n.delivered + 1 := by
  unfold deliver at h
  split at h
  · rw [← Option.some.inj h, delivered_absorb]
  · cases h

theorem deliver_of_ending (h : n.ending ≠ none) (i : Nat) : n.deliver i = none := by
  unfold deliver
  split
  · next he _ => exact absurd he h
  · rfl

theorem pool_eq_nil (h : n.AtRest) (he : n.ending = none) : n.pool = [] := by
  rw [List.eq_nil_iff_length_eq_zero]
  by_contra hne
  have h0 := h 0
  unfold deliver at h0
  rw [he, List.getElem?_eq_getElem (Nat.pos_of_ne_zero hne)] at h0
  cases h0

/-- Every delivery counts, so a bound on how many there are is an end. -/
theorem not_endless_of_delivered_le {b : Nat} (h : ∀ s, n.Reaches s → s.delivered ≤ b) :
    ¬ n.Endless := by
  rintro ⟨run, h0, hstep⟩
  have hreach : ∀ k, n.Reaches (run k) ∧ k ≤ (run k).delivered := by
    intro k
    induction k with
    | zero => exact ⟨h0 ▸ .refl, Nat.zero_le _⟩
    | succ k ih =>
      obtain ⟨i, hi⟩ := hstep k
      refine ⟨.deliver i ih.1 hi, ?_⟩
      rw [delivered_deliver hi]
      exact Nat.succ_le_succ ih.2
  obtain ⟨hr, hle⟩ := hreach (b + 1)
  have := h _ hr
  omega

theorem Reaches.trans (h : n.Reaches m) (h' : m.Reaches k) : n.Reaches k := by
  induction h' with
  | refl => exact h
  | deliver i _ hd ih => exact .deliver i ih hd

end Network

namespace Scenario

variable {S : Scenario} {pe : Nat} {m : Letter} {H : List Letter} {n s t : Network}

/-! ### The letters of a run -/

/-- What a rank and the host tell each other, what a rank wants of others and is answered, and what
it tells the next rank. -/
def lettersOf (S : Scenario) (pe : Nat) : List Letter :=
  [.load, .setup, .elements, .distributed, .flattened, .nodes, .cost, .deviation].map
      (Letter.contribution · pe) ++
    [.partition, .flatten, .reorder, .deviation].map (Letter.command · pe) ++
    (S.exports pe).keys.flatMap (fun q => [Letter.peer .add pe q, .peer .ack q pe]) ++
    (S.asked pe).keys.flatMap (fun q => [Letter.peer .request pe q, .peer .reply q pe]) ++
    if pe + 1 < S.pes then [.lower pe] else []

/-- All letters of a run that finishes. -/
def letters (S : Scenario) : List Letter := (List.range S.pes).flatMap S.lettersOf

theorem mem_letters : m ∈ S.letters ↔ S.Occurs m := by
  have hlower : ∀ p, m ∈ (if p + 1 < S.pes then [Letter.lower p] else []) ↔
      m = .lower p ∧ p + 1 < S.pes := by
    intro p
    split <;> simp_all
  simp only [letters, lettersOf, List.mem_flatMap, List.mem_append, List.mem_map, List.mem_range,
    hlower]
  cases m with
  | contribution k p => cases k <;> simp [Occurs]
  | command b p => cases b <;> simp [Occurs]
  | peer x s t => cases x <;> simp [Occurs, and_comm]
  | lower s =>
    simp only [Occurs, Letter.lower.injEq]
    simp
    omega

theorem History.length_le (h : S.History H) : H.length ≤ S.letters.length :=
  (h.nodup.subperm fun m hm => mem_letters.2 (h.sent m hm).1).length_le

/-! ### Orders of deliveries -/

/-- Whatever a run reaches reflects a history, or failed upon a letter. -/
theorem reaches_cases (ha : S.Determined) (hl : S.launch = .ok n) (hr : n.Reaches s) :
    (∃ H, S.Reflects H s) ∨ ∃ H m e, S.Broken H m e s := by
  induction hr with
  | refl =>
    rw [ha.launch_eq] at hl
    exact .inl ⟨[], Except.ok.inj hl ▸ reflects_nil ha.toLaunchable⟩
  | deliver i _ hd ih =>
    rcases ih with ⟨H, h⟩ | ⟨H, m, e, h⟩
    · obtain ⟨m, h' | ⟨e, h'⟩⟩ := h.deliver ha hd
      · exact .inl ⟨_, h'⟩
      · exact .inr ⟨H, m, e, h'⟩
    · rw [Network.deliver_of_ending (by rw [h.ending]; exact Option.some_ne_none _)] at hd
      cases hd

theorem delivered_le (ha : S.Determined) (hl : S.launch = .ok n) (hr : n.Reaches s) :
    s.delivered ≤ S.letters.length := by
  rcases reaches_cases ha hl hr with ⟨H, h⟩ | ⟨H, m, e, h⟩
  · rw [h.delivered]
    exact h.history.length_le
  · have hsub : (m :: H) ⊆ S.letters := by
      intro c hc
      rcases List.mem_cons.1 hc with rfl | hc
      · exact mem_letters.2 h.sent.1
      · exact mem_letters.2 (h.history.sent c hc).1
    rw [h.delivered]
    exact ((List.nodup_cons.2 ⟨h.new, h.history.nodup⟩).subperm hsub).length_le

/-- As long as not everyone is done, something is on its way. -/
theorem Reflects.over_of_pool (h : S.Reflects H s) (hs : s.pool = []) : S.Over H := by
  obtain ⟨flight, hpool, -, hflight⟩ := h.pool
  have hnil : flight = [] := by
    rw [hs] at hpool
    exact List.map_eq_nil_iff.1 hpool.symm
  have hall : ∀ m, S.Sent H m → m ∈ H := by
    intro m hm
    by_contra hn
    have hmem := (hflight m).2 ⟨hm, hn⟩
    rw [hnil] at hmem
    cases hmem
  intro pe hp
  exact mem_of_occurs hall (.contribution .deviation pe) hp

/-- A run that nothing is left to deliver in has finished, unless it failed. -/
theorem Reflects.over (h : S.Reflects H s) (hrest : s.AtRest) : S.Over H := by
  by_contra ho
  have hnone : s.ending = none := by rw [h.ending, if_neg ho]
  exact ho (h.over_of_pool (Network.pool_eq_nil hrest hnone))

/-- No order of deliveries goes on for ever. -/
theorem not_endless (ha : S.Determined) (hl : S.launch = .ok n) : ¬ n.Endless :=
  Network.not_endless_of_delivered_le fun _ hr => delivered_le ha hl hr

/-- Every run can be carried on to its end. -/
theorem exists_atRest {s : Network} (ha : S.Determined) (hl : S.launch = .ok n)
    (hr : n.Reaches s) :
    ∃ t, s.Reaches t ∧ t.AtRest := by
  by_cases hrest : s.AtRest
  · exact ⟨s, .refl, hrest⟩
  · obtain ⟨i, hi⟩ := not_forall.1 hrest
    obtain ⟨k, hk⟩ := Option.ne_none_iff_exists'.1 hi
    have hrk : n.Reaches k := .deliver i hr hk
    have hle := delivered_le ha hl hrk
    have hdel := Network.delivered_deliver hk
    obtain ⟨t, ht, hrest⟩ := exists_atRest ha hl hrk
    exact ⟨t, .trans (.deliver i .refl hk) ht, hrest⟩
termination_by S.letters.length - s.delivered

/-! ### Runs that finish -/

/-- The partitioner answers with existing work units, and each of them gets an element. -/
structure Finishes (S : Scenario) : Prop where
  answered : S.Answered
  inRange : ∀ pe < S.pes, S.InRange pe
  occupied : ∀ pe < S.pes, S.vacant? pe = none

theorem Finishes.not_fails {e : Failure RunError} (h : S.Finishes) (hm : S.Sent H m) :
    ¬ S.Fails H m e := by
  intro hf
  cases hf with
  | answer _ he =>
    have hans : S.answer = .ok S.assignment := h.answered
    cases hans.symm.trans he
  | unit hn => cases (inRange_iff.1 (h.inRange _ hm.1)).symm.trans hn
  | vacant hv => cases (h.occupied _ hm.1).symm.trans hv

namespace History

theorem deviation_of_over (h : S.History H) (ho : S.Over H) (hp : pe < S.pes) :
    .command .deviation pe ∈ H :=
  (h.sent _ (ho pe hp)).2 _ List.mem_cons_self

theorem settled_of_over (h : S.History H) (ho : S.Over H) (hp : pe < S.pes) :
    S.Settled pe (.of H pe) :=
  h.settled_of_deviation (h.deviation_of_over ho hp)

theorem flatten_of_over (h : S.History H) (ho : S.Over H) (hp : pe < S.pes) :
    .command .flatten pe ∈ H :=
  h.flatten_of_reorder (h.reorder_of_deviation (h.deviation_of_over ho hp)) hp

theorem finishes (h : S.History H) (ho : S.Over H) (hp : 0 < S.pes) : S.Finishes where
  answered := (h.numbers (h.flatten_of_over ho hp)).answered
  inRange := fun pe hpe => h.inRange pe (h.partition_of_flatten (h.flatten_of_over ho hp) hpe)
  occupied := fun _ hpe => h.occupied _ (h.flatten_of_over ho hpe)

end History

/-- A run that can finish never fails. -/
theorem Finishes.reflects (hf : S.Finishes) (ha : S.Determined) (hl : S.launch = .ok n)
    (hr : n.Reaches s) : ∃ H, S.Reflects H s := by
  rcases reaches_cases ha hl hr with h | ⟨H, m, e, h⟩
  · exact h
  · exact absurd h.fails (hf.not_fails h.sent)

/-- A run that has finished reflects a history in which everyone is done. -/
theorem reflects_of_finished {r : Report} (ha : S.Determined) (hl : S.launch = .ok n)
    (hr : n.Reaches s) (he : s.ending = some (.ok r)) :
    ∃ H, S.Reflects H s ∧ S.Over H ∧ r = S.report := by
  rcases reaches_cases ha hl hr with ⟨H, h⟩ | ⟨H, m, e, h⟩
  · rw [h.ending] at he
    split at he
    · next ho =>
      cases he
      exact ⟨H, h, ho, rfl⟩
    · cases he
  · rw [h.ending] at he
    cases he

theorem Finishes.exists_finished (hf : S.Finishes) (ha : S.Determined) :
    ∃ n s, S.launch = .ok n ∧ n.Reaches s ∧ s.ending = some (.ok S.report) := by
  obtain ⟨t, ht, hrest⟩ := exists_atRest ha (ha.launch_eq) .refl
  obtain ⟨H, h⟩ := hf.reflects ha (ha.launch_eq) ht
  refine ⟨_, t, ha.launch_eq, ht, ?_⟩
  rw [h.ending, if_pos (h.over hrest)]

/-- Two tetrahedra with a common edge, one for each of two ranks. -/
def pair : Scenario where
  mesh := {
    tets := [⟨10, 11, 12, 13⟩, ⟨12, 13, 14, 15⟩]
    coordinates := .ofList ((List.range' 10 6).map fun x => (x, .origin)) }
  pes := 2
  settings := { algorithm := .elementOrder, units := some 2 }
  partitioner := .elementOrder

theorem admissible_pair : pair.Admissible where
  complete := TetMesh.isComplete_iff.2 rfl
  pes_pos := by decide
  pes_lt := by decide
  valid := by decide
  explicit := by decide

theorem finishes_pair : pair.Finishes where
  answered := rfl
  inRange := by decide
  occupied := by decide

/-! ### What a finished run leaves behind -/

section Finished

variable (h : S.Reflects H s) (ho : S.Over H)

include h ho

theorem bounds_of_over (hp : pe < S.pes) :
    (S.worker pe (.of H pe)).bounds = some (S.bounds pe) := by
  have hset := h.history.settled_of_over ho hp
  simp only [Worker.bounds, worker, hset, ↓reduceIte]
  rfl

theorem cost_of_over (hp : pe < S.pes) : (S.worker pe (.of H pe)).cost = some (S.cost pe) := by
  simp only [worker, h.history.settled_of_over ho hp, ↓reduceIte]

/-- In the end a rank knows the new ids of exactly the nodes that its work units use. -/
theorem newIds_of_over (hp : pe < S.pes) :
    (S.worker pe (.of H pe)).newIds =
      some (.ofList ((S.nodes pe).map fun x => (x, S.newId x))) := by
  have hset := h.history.settled_of_over ho hp
  have hnum := h.history.numbers (h.history.flatten_of_over ho hp)
  have hnumbering : (S.worker pe (.of H pe)).numbering =
      some (S.numbering pe (View.of H pe).reordered (View.of H pe).requests
        (View.of H pe).replies) := by
    simp only [worker, hnum.flattened, ↓reduceIte]
  rw [Worker.newIds, hnumbering, Option.map_some, Option.some.injEq]
  apply IdMap.ext
  intro x
  rw [IdMap.get?_ofList_map]
  split
  · next hx => exact hnum.newId? hset.1 hx
  · next hx =>
    have hnew := @newId?_numbering S pe x (View.of H pe).requests (View.of H pe).replies
    rw [if_neg fun hk => hx (mem_known.1 hk).1] at hnew
    rw [hset.1.1]
    exact hnew

end Finished

end Scenario
end MeshDecomp
