import MeshDecomp.Proofs.Calls

/-!
The phase of a processing element only advances, whatever it is told from outside. A completion that
is handed in is not held against the phase: it takes every processing element to the same phases.
-/

namespace MeshDecomp
namespace Worker

open Standing

/-! ### Moves advance the phase -/

namespace Standing

variable {s t : Standing} {as : List Action}

theorem Move.phase_le (h : s.Move as t) : s.phase ≤ t.phase := by
  rw [Phase.le_def]
  cases h with
  | partition _ hp => simp [hp, Phase.place]
  | flatten hp => simp [hp, Phase.place]
  | reorder hp => simp [hp, Phase.place]
  | deviation _ hp => simp [hp, Phase.place]
  | _ => exact Nat.le_refl _

theorem Completes.phase_le (h : s.Completes s.phase as t) : s.phase ≤ t.phase := by
  rw [Phase.le_def]
  generalize hp : s.phase = p at h
  cases h with
  | ready _ h => rcases h with rfl | rfl <;> simp [Phase.place]
  | refused => rw [hp]
  | _ => simp [Phase.place]

theorem Moves.phase_le (h : Moves s as t) : s.phase ≤ t.phase := by
  induction h with
  | refl => exact Nat.le_refl _
  | move _ hm _ ih => exact Nat.le_trans hm.phase_le ih
  | complete _ hp _ ih => exact Nat.le_trans hp.phase_le ih

end Standing

/-- A call that settles does not fall behind the phase. -/
theorem Settles.phase_le {ε : Type} {w : Worker} {o : Outcome Worker ε (List Action)}
    (h : w.Settles o) : w.phase ≤ o.state.phase := by
  obtain ⟨⟨as, hm, -⟩, -⟩ := h
  exact hm.phase_le

/-! ### Completions that are handed in -/

/-- The phases that the completion of a phase can lead to; none if it is refused. -/
def landings : Phase → List Phase
  | .reading => [.centroids, .ready]
  | .centroids => [.ready]
  | .reordering => [.bounding, .creating]
  | .bounding => [.creating]
  | _ => []

variable {w : Worker}

theorem handle_completed_centroids (hi : w.completions = []) :
    (w.handle (.completed .centroids)).state.phase = .ready :=
  congrArg (·.state.phase) (handle_of_dispatch (w := w) (e := .completed .centroids) rfl hi)

theorem handle_completed_bounding (hi : w.completions = []) :
    (w.handle (.completed .bounding)).state.phase = .creating :=
  congrArg (·.state.phase) (handle_of_dispatch (w := w) (e := .completed .bounding) rfl hi)

theorem drain_of_completion {p : Phase} (h : w.completions = [p]) :
    w.drain = handle { w with completions := [] } (.completed p) :=
  drain_of_cons h

theorem handle_completed_reading (hi : w.completions = []) :
    (w.handle (.completed .reading)).state.phase ∈ landings .reading := by
  unfold handle dispatch complete
  dsimp only
  split
  · unfold findCentroids
    dsimp only
    split
    · exact List.mem_cons_self
    · next c _ =>
      rw [Outcome.append_ok, Outcome.state_map,
        drain_of_completion (p := .centroids) (by simp [hi]), handle_completed_centroids rfl]
      decide
  · have h : w.ready.append drain = _ :=
      handle_of_dispatch (w := w) (e := .completed .centroids) rfl hi
    rw [h]
    exact List.mem_cons_of_mem _ List.mem_cons_self

/-- Looking for the bounds in their phase, and dealing with what that completes. -/
theorem phase_settleBounds (hi : w.completions = []) (hp : w.phase = .bounding) :
    (w.settleBounds.append drain).state.phase ∈ landings .reordering := by
  unfold settleBounds tryBounds
  split
  · rw [if_pos hp, Outcome.append_ok, Outcome.state_map,
      drain_of_completion (p := .bounding) (by simp [hi]), handle_completed_bounding rfl]
    decide
  · rw [Outcome.append_ok, Outcome.state_map, drain_of_nil hi]
    exact hp ▸ List.mem_cons_self

theorem handle_completed_reordering (hi : w.completions = []) :
    (w.handle (.completed .reordering)).state.phase ∈ landings .reordering := by
  unfold handle dispatch complete enterBounding
  dsimp only
  split
  · exact List.mem_cons_self
  · exact List.mem_cons_self
  · split
    · exact List.mem_cons_self
    · refine phase_settleBounds ?_ ?_
      · split
        · exact hi
        · split <;> exact hi
      · split
        · rfl
        · split <;> rfl

/-- Where a completion that is handed in takes a processing element, in whatever phase it is. -/
theorem phase_handle_completed (hi : w.completions = []) (q : Phase) :
    (w.handle (.completed q)).state.phase ∈ landings q ∨
      landings q = [] ∧ (w.handle (.completed q)).state = w := by
  cases q with
  | reading => exact .inl (handle_completed_reading hi)
  | centroids => exact .inl (List.mem_singleton.2 (handle_completed_centroids hi))
  | reordering => exact .inl (handle_completed_reordering hi)
  | bounding => exact .inl (List.mem_singleton.2 (handle_completed_bounding hi))
  | _ => exact .inr ⟨rfl, rfl⟩

theorem handed_of_not_fromOutside {calls : List Call} {c : Call} (hmem : c ∈ calls)
    (hc : ¬c.FromOutside) : ∃ q, .handle (.completed q) ∈ calls := by
  match c, hmem, hc with
  | .handle (.completed q), hmem, _ => exact ⟨q, hmem⟩
  | .start, _, hc => exact absurd trivial hc
  | .handle (.command _), _, hc => exact absurd trivial hc
  | .handle (.peer _ _), _, hc => exact absurd trivial hc

/-- Over all sequences of calls on a new processing element, those that fail included: commands and
messages never take back the phase; a completion that is handed in leads where the completion of its
phase leads, be that behind the phase or not; and `start` takes back the phase only behind a
completion that was handed in. -/
theorem phases_advance {rank pes : Nat} {reader : Reader} {settings : Settings} {w₀ w : Worker}
    (h : create rank pes reader settings = .ok w₀) (p : Partitioner) (calls : List Call)
    (hw : (w₀.prepareFor p).after calls = w) :
    (∀ e, (∀ q, e ≠ .completed q) → w.phase ≤ (w.handle e).state.phase) ∧
    (∀ q, (w.handle (.completed q)).state.phase ∈ landings q ∨
      landings q = [] ∧ (w.handle (.completed q)).state = w) ∧
    (w.phase ≤ w.start.state.phase ∨
      (∃ q, .handle (.completed q) ∈ calls) ∧ w.start.state.phase ∈ landings .reading) := by
  obtain ⟨-, hfresh⟩ := standing_of_create h p
  have hi₀ : (w₀.prepareFor p).completions = [] := congrArg Standing.completions hfresh
  have hi : w.completions = [] := hw ▸ idle_after hi₀ calls
  refine ⟨fun e he => (settles_handle hi he).phase_le, phase_handle_completed hi, ?_⟩
  by_cases hc : ∀ c ∈ calls, c.FromOutside
  · left
    have hs₀ : (w₀.prepareFor p).standing.StartsReading := hfresh ▸ startsReading_fresh rank pes
    obtain ⟨as, hm, -⟩ := moves_after hi₀ hs₀ hc
    have hs : w.standing.StartsReading := hw ▸ hm.startsReading hs₀
    exact (settles_start hi fun h => (hs h).1).phase_le
  · obtain ⟨c, hmem, hc⟩ : ∃ c ∈ calls, ¬c.FromOutside := by simpa using hc
    cases hs : w.started with
    | true => exact .inl (start_again hs ▸ Nat.le_refl _)
    | false =>
      rcases start_cases hi hs with ⟨w', e, hr, hw'⟩ | ⟨w', n, hr, hw'⟩
      · have hphase : w'.phase = w.phase := congrArg Standing.phase hw'
        rw [hr]
        exact .inl (hphase ▸ Nat.le_refl _)
      · have hi' : w'.completions = [] := (congrArg Standing.completions hw').trans hi
        rw [hr]
        exact .inr ⟨handed_of_not_fromOutside hmem hc, handle_completed_reading hi'⟩

/-- The first of two ranks, behind all of its work but the deviation of its cost: commands and
messages keep it where it is or further, the completion of reading takes it back. -/
theorem phases_of_first :
    create 0 2 pairMesh.reader pairSettings = .ok first ∧
      first.after firstCalls = firstCreated ∧ firstCreated.phase = .creating ∧
      .creating ≤ (firstCreated.handle (.command (.deviation .zero))).state.phase ∧
      .creating ≤ (firstCreated.handle (.peer 1 (.lower 0))).state.phase ∧
      (firstCreated.handle (.completed .reading)).state.phase ∈ landings .reading := by
  have hcreate : create 0 2 pairMesh.reader pairSettings = .ok first := rfl
  have hafter : (first.prepareFor Algorithm.elementOrder.partitioner).after firstCalls =
      firstCreated := after_firstCalls
  obtain ⟨hcommand, hcompleted, -⟩ := phases_advance hcreate _ firstCalls hafter
  refine ⟨hcreate, after_firstCalls, rfl, hcommand (.command (.deviation .zero)) nofun,
    hcommand (.peer 1 (.lower 0)) nofun, ?_⟩
  rcases hcompleted .reading with h | h
  · exact h
  · exact absurd h.1 (by decide)

/-- The completion of reading once more takes a rank that has its work units back to the setup, and
sends its elements again. -/
theorem completion_takes_back :
    create 0 1 loneMesh.reader loneSettings = .ok lone ∧
      (lone.after loneCalls).phase = .partitioning ∧
      (lone.after loneCalls).handle (.completed .reading) =
        .ok { lonePartitioned with phase := .ready }
          [.contribute .setup, .contribute (.elements ⟨0, [10, 11, 12, 13], none⟩)] ∧
      ¬(lone.after loneCalls).phase ≤
        ((lone.after loneCalls).handle (.completed .reading)).state.phase := by
  have hback : (lone.after loneCalls).handle (.completed .reading) =
      .ok { lonePartitioned with phase := .ready }
        [.contribute .setup, .contribute (.elements ⟨0, [10, 11, 12, 13], none⟩)] := by
    rw [after_loneCalls]
    exact handle_of_dispatch rfl rfl
  have hphase : (lone.after loneCalls).phase = .partitioning := by
    rw [after_loneCalls]
    rfl
  refine ⟨rfl, hphase, hback, ?_⟩
  rw [hphase, hback]
  decide

end Worker
end MeshDecomp
