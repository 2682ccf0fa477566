import MeshDecomp.Proofs.Runs

/-! How runs end when the partitioner gives every element a work unit that exists: they finish, or
a rank misses the elements of a work unit. -/
namespace MeshDecomp

/-- The node ids of the elements, eight bytes each, lie in one piece of memory. There is no mesh
of which this is not true, but a list has no bound. -/
def TetMesh.InMemory (m : TetMesh) : Prop := 8 * m.connectivity.length < 2 ^ 63

theorem TetMesh.InMemory.size_le {m : TetMesh} (h : m.InMemory) :
    m.size ≤ Host.Gathered.maxElements := by
  have hlen : m.connectivity.length = 4 * m.size := Tet.length_flatten m.tets
  unfold InMemory at h
  rw [hlen] at h
  unfold Host.Gathered.maxElements
  omega

namespace Scenario

variable {S : Scenario} {unit : Nat}

namespace Answered

/-- A work unit without nodes is one that no element was given to. -/
theorem content_eq_nil_iff (h : S.Answered) : S.content unit = [] ↔ unit ∉ S.assignment := by
  have hsnd : S.placed.map Prod.snd = S.assignment :=
    List.map_snd_zip (Nat.le_of_eq h.length_assignment)
  unfold content
  rw [nodesOf_eq_nil_iff, ← hsnd]
  simp only [List.mem_map, not_exists, not_and, ne_eq]

/-- Every rank has elements for its work units exactly when all work units have elements. -/
theorem occupied_iff (h : S.Answered) (hp : 0 < S.pes) :
    (∀ pe < S.pes, S.vacant? pe = none) ↔ ∀ unit < S.units, unit ∈ S.assignment := by
  constructor
  · intro hall unit hu
    have hown : S.owner unit < S.pes := Block.owner_lt hp unit
    have hspan := (owner_eq_iff hown hu).1 rfl
    have hne := vacant?_eq_none_iff.1 (hall _ hown) unit hspan
    by_contra hn
    exact hne (h.content_eq_nil_iff.2 hn)
  · intro hall pe hpe
    refine vacant?_eq_none_iff.2 fun unit hu hnil => ?_
    have hlt : unit < S.units := hu.2.trans_le (Block.stop_span_le hpe)
    exact h.content_eq_nil_iff.1 hnil (hall unit hlt)

end Answered

/-- The answer of the partitioner has a work unit that exists for every element. -/
structure Honest (S : Scenario) (ids : List Nat) : Prop where
  answer : S.partitioner.assign (S.mesh.input S.partitioner.geometric) S.units = .ok ids
  length : ids.length = S.mesh.size
  lt_units : ∀ unit ∈ ids, unit < S.units

variable {ids : List Nat}

namespace Honest

theorem answer_eq (h : S.Honest ids) (hm : S.mesh.InMemory) (hu : S.pes ≤ S.units) :
    S.answer = .ok ids :=
  answer_eq_ok_iff.2 ⟨hu, hm.size_le, h.answer, h.length⟩

theorem assignment_eq (h : S.Honest ids) (hm : S.mesh.InMemory) (hu : S.pes ≤ S.units) :
    S.assignment = ids := by
  unfold assignment
  rw [h.answer_eq hm hu]

/-- What the host sends out is the answer of the partitioner. -/
theorem assignment_of_answered (h : S.Honest ids) (ha : S.Answered) : S.assignment = ids :=
  Except.ok.inj ((answer_eq_ok_iff.1 ha).2.2.1.symm.trans h.answer)

theorem inRange (h : S.Honest ids) (pe : Nat) : S.InRange pe := by
  intro unit hunit
  have hmem : unit ∈ S.assignment := List.mem_of_mem_drop (List.mem_of_mem_take hunit)
  cases hans : S.answer with
  | ok _ =>
    rw [h.assignment_of_answered (answered_of_eq hans)] at hmem
    exact h.lt_units unit hmem
  | error e =>
    rw [assignment, hans] at hmem
    cases hmem

end Honest

variable {n s : Network}

/-- An honest run fails only for a work unit without elements. -/
theorem Honest.eq_overdecomposition {e : Failure RunError} (hh : S.Honest ids) (ha : S.Admissible)
    (hm : S.mesh.InMemory) (hu : S.pes ≤ S.units) (hl : S.launch = .ok n) (hs : n.Reaches s)
    (he : s.ending = some (.error e)) :
    ∃ unit < S.units, unit ∉ ids ∧
      e = .error (.overdecomposition (Block.owner S.units S.pes unit) unit S.units S.pes) := by
  have hans : S.Answered := answered_of_eq (hh.answer_eq hm hu)
  rcases reaches_cases ha hl hs with ⟨H, h⟩ | ⟨H, m, e', h⟩
  · rw [h.ending] at he
    split at he <;> cases he
  · rw [h.ending] at he
    cases he
    obtain ⟨hsent, -⟩ := h.sent
    cases h.fails with
    | answer _ he => cases hans.symm.trans he
    | unit hn => cases (inRange_iff.1 (hh.inRange _)).symm.trans hn
    | @vacant pe unit hv =>
      obtain ⟨hspan, hnil⟩ := vacant?_eq_some hv
      have hlt : unit < S.units := hspan.2.trans_le (Block.stop_span_le hsent)
      have hown : S.owner unit = pe := owner_of_mem_span hsent hspan
      refine ⟨unit, hlt, ?_, ?_⟩
      · rw [← hh.assignment_eq hm hu]
        exact hans.content_eq_nil_iff.1 hnil
      · rw [← hown]
        rfl

/-- An honest run does not stall, and it can finish exactly if every work unit has an element. -/
theorem Honest.finishes_iff (hh : S.Honest ids) (ha : S.Admissible) (hm : S.mesh.InMemory)
    (hu : S.pes ≤ S.units) : S.Finishes ↔ ∀ unit < S.units, unit ∈ ids := by
  have hans : S.Answered := answered_of_eq (hh.answer_eq hm hu)
  rw [← hh.assignment_eq hm hu, ← hans.occupied_iff ha.pes_pos]
  exact ⟨fun h => h.occupied, fun h => ⟨hans, fun pe _ => hh.inRange pe, h⟩⟩

/-- An honest run does not stall or go on for ever. It finishes if every work unit has an element,
and otherwise the owner of a work unit without elements tells of it. -/
theorem honest_run_finishes_or_overdecomposes (ha : S.Admissible) (hm : S.mesh.InMemory)
    (hu : S.pes ≤ S.units) (hh : S.Honest ids) :
    ∃ n, S.launch = .ok n ∧ ¬ n.Endless ∧ ∀ s, n.Reaches s →
      (s.pool = [] → s.ending ≠ none) ∧
      (∀ e, s.ending = some (.error e) → ∃ unit < S.units, unit ∉ ids ∧
        e = .error (.overdecomposition (Block.owner S.units S.pes unit) unit S.units S.pes)) ∧
      (s.AtRest →
        s.ending ≠ none ∧ ((∃ r, s.ending = some (.ok r)) ↔ ∀ unit < S.units, unit ∈ ids)) := by
  have hl := launch_eq ha
  refine ⟨_, hl, not_endless ha hl, fun s hs => ?_⟩
  have hpool : s.pool = [] → s.ending ≠ none := by
    intro hnil
    rcases reaches_cases ha hl hs with ⟨H, h⟩ | ⟨H, m, e, h⟩
    · rw [h.ending, if_pos (h.over_of_pool hnil)]
      exact Option.some_ne_none _
    · rw [h.ending]
      exact Option.some_ne_none _
  refine ⟨hpool, fun e he => hh.eq_overdecomposition ha hm hu hl hs he, fun hrest => ⟨?_, ?_⟩⟩
  · intro hnone
    exact hpool (Network.pool_eq_nil hrest hnone) hnone
  · rw [← hh.finishes_iff ha hm hu]
    constructor
    · rintro ⟨r, he⟩
      obtain ⟨H, h, ho, -⟩ := reflects_of_finished ha hl hs he
      exact h.history.finishes ho ha.pes_pos
    · intro hf
      obtain ⟨H, h⟩ := hf.reflects ha hl hs
      exact ⟨S.report, by rw [h.ending, if_pos (h.over hrest)]⟩

theorem pair_finishes_or_overdecomposes :
    pair.Admissible ∧ pair.mesh.InMemory ∧ pair.pes ≤ pair.units ∧ pair.Honest [0, 1] ∧
      ∃ n, pair.launch = .ok n ∧ ¬ n.Endless ∧ ∀ s, n.Reaches s →
        (s.pool = [] → s.ending ≠ none) ∧
        (∀ e, s.ending = some (.error e) → ∃ unit < pair.units, unit ∉ [0, 1] ∧
          e = .error (.overdecomposition (Block.owner pair.units pair.pes unit) unit pair.units
            pair.pes)) ∧
        (s.AtRest →
          s.ending ≠ none ∧
            ((∃ r, s.ending = some (.ok r)) ↔ ∀ unit < pair.units, unit ∈ [0, 1])) := by
  have hm : pair.mesh.InMemory := by
    unfold TetMesh.InMemory
    decide
  have hh : pair.Honest [0, 1] := ⟨rfl, rfl, by decide⟩
  exact ⟨admissible_pair, hm, by decide, hh,
    honest_run_finishes_or_overdecomposes admissible_pair hm (by decide) hh⟩

end Scenario
end MeshDecomp
