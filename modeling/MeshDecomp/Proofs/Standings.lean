import MeshDecomp.Worker.Step

/-!
Calls on one processing element, in any order and with any contents, and its standing: what decides
which actions are still to come. A call moves the standing by a chain of moves.
-/

namespace MeshDecomp

/-- What a processing element has to do only once. -/
inductive Slot where
  | contribution (k : Contribution.Kind)
  | bounds
  | lower
  | add (receiver : Nat)
  | unit (id : Nat)
  deriving DecidableEq, Repr

/-- Answers to peers can be given any number of times. -/
def Action.slot? : Action → Option Slot
  | .contribute c => some (.contribution c.kind)
  | .bounds _ _ => some .bounds
  | .instantiate u => some (.unit u.id)
  | .send _ (.lower _) => some .lower
  | .send q (.add _) => some (.add q)
  | .send _ _ => none

namespace Worker

inductive Call where
  | start
  | handle (e : Event)
  deriving DecidableEq, Repr

/-- Completions are for a processing element itself to find. -/
def Call.FromOutside : Call → Prop
  | .handle (.completed _) => False
  | _ => True

def answer (w : Worker) : Call → Outcome Worker (Failure RunError) (List Action)
  | .start => w.start
  | .handle e => (w.handle e).mapError .error

/-- The processing element after calls, those that fail included. -/
def after (w : Worker) (calls : List Call) : Worker :=
  calls.foldl (fun w c => (w.answer c).state) w

/-- The actions of a call; none if it fails. -/
def told {ε : Type} (o : Outcome Worker ε (List Action)) : List Action :=
  match o.result with
  | .ok as => as
  | .error _ => []

/-- The actions of all calls. -/
def emitted (w : Worker) : List Call → List Action
  | [] => []
  | c :: calls => told (w.answer c) ++ (w.answer c).state.emitted calls

/-! ### Standings -/

/-- What decides which actions are still to come. -/
structure Standing where
  rank : Nat
  pes : Nat
  phase : Phase
  started : Bool
  completions : List Phase
  units : Option Nat
  distributed : Bool
  built : List WorkUnit
  lower : Option Nat
  upper : Option Nat

def standing (w : Worker) : Standing where
  rank := w.rank
  pes := w.pes
  phase := w.phase
  started := w.started
  completions := w.completions
  units := w.units
  distributed := w.distributed
  built := w.built
  lower := w.lower
  upper := w.upper

namespace Standing

def bounds (s : Standing) : Option Span :=
  match s.lower, s.upper with
  | some l, some u => some ⟨l, u⟩
  | _, _ => none

/-- Where the completion of a phase leads. -/
inductive Completes (s : Standing) : Phase → List Action → Standing → Prop
  | centroids : Completes s .reading [] { s with phase := .centroids }
  | ready {p : Phase} (slice : ElementSlice) : p = .reading ∨ p = .centroids →
      Completes s p [.contribute .setup, .contribute (.elements slice)] { s with phase := .ready }
  | unnumbered : Completes s .reordering [] { s with phase := .bounding }
  | numbered {units : Nat} {us : List WorkUnit} (l : Option Nat) : s.units = some units →
      us.map WorkUnit.id = (Block.span units s.pes s.rank).toList → (∀ u ∈ us, u.pe = s.rank) →
      Completes s .reordering [] { s with phase := .bounding, built := us, lower := l }
  | created (x : Binary64) : Completes s .bounding
      (s.built.map .instantiate ++ s.bounds.toList.map (.bounds s.rank) ++ [.contribute (.cost x)])
      { s with phase := .creating, built := [] }
  | refused {p : Phase} : p ∉ [.reading, .centroids, .reordering, .bounding] → Completes s p [] s

/-- What can happen while no completion waits. -/
inductive Move (s : Standing) : List Action → Standing → Prop
  | answers {as : List Action} : (∀ a ∈ as, a.slot? = none) → Move s as s
  | start {as : List Action} : s.started = false →
      as = [] ∨ (∃ n, as = [.contribute (.load n)]) → Move s as { s with started := true }
  | partition (units : Nat) {out : IdMap (IdMap (List Nat))} : s.phase = .ready →
      (∀ q ∈ out.keys, q ≠ s.rank ∧ ∃ unit, Block.owner units s.pes unit = q) →
      Move s (out.entries.map fun e => .send e.1 (.add e.2))
        { s with phase := .partitioning, units := some units }
  | distributed : s.distributed = false →
      Move s [.contribute .distributed] { s with distributed := true }
  | flatten {as : List Action} : s.phase = .partitioning →
      as = [] ∨ (∃ ids, as = [.contribute .flattened, .contribute (.nodes ids)]) →
      Move s as { s with phase := .flattening }
  | reorder : s.phase = .flattening → Move s [] { s with phase := .reordering }
  | lower (bound : Nat) : s.phase = .bounding → s.lower = none →
      Move s [] { s with lower := some bound }
  | settle {l u : Nat} {as : List Action} : s.phase = .bounding → s.lower = some l →
      s.upper = none → l ≤ u → as = [] ∨ as = [.send (s.rank + 1) (.lower u)] →
      Move s as { s with upper := some u, completions := [.bounding] }
  | deviation (x : Binary64) : s.phase = .creating →
      Move s [.contribute (.deviation x)] { s with phase := .done }
  /-- The work of the phase is done. -/
  | work {p : Phase} : s.phase = p → (p = .reading → s.started = true) →
      Move s [] { s with completions := [p] }

/-- Moves one after the other. A completion that waits is dealt with first. -/
inductive Moves : Standing → List Action → Standing → Prop
  | refl (s : Standing) : Moves s [] s
  | move {s t u : Standing} {as bs : List Action} : s.completions = [] → s.Move as t →
      Moves t bs u → Moves s (as ++ bs) u
  | complete {s t u : Standing} {as bs : List Action} : s.completions = [s.phase] →
      Completes { s with completions := [] } s.phase as t → Moves t bs u → Moves s (as ++ bs) u

theorem Moves.trans {s t u : Standing} {as bs : List Action} (h : Moves s as t)
    (h' : Moves t bs u) : Moves s (as ++ bs) u := by
  induction h with
  | refl => exact h'
  | move hi hm _ ih =>
    rw [List.append_assoc]
    exact .move hi hm (ih h')
  | complete hc hm _ ih =>
    rw [List.append_assoc]
    exact .complete hc hm (ih h')

theorem Moves.single {s t : Standing} {as : List Action} (hi : s.completions = [])
    (hm : s.Move as t) : Moves s as t := by
  simpa using Moves.move hi hm (.refl t)

/-- No completion waits, or that of the current phase. -/
def Pending (s : Standing) : Prop := s.completions = [] ∨ s.completions = [s.phase]

theorem Move.pending {s t : Standing} {as : List Action} (hi : s.completions = [])
    (hm : s.Move as t) : t.Pending := by
  cases hm with
  | settle hp => exact .inr (congrArg (fun p => [p]) hp.symm)
  | work hp _ => exact .inr (congrArg (fun p => [p]) hp.symm)
  | _ => exact .inl hi

theorem Completes.started {s t : Standing} {p : Phase} {as : List Action}
    (h : s.Completes p as t) : t.started = s.started := by
  cases h <;> rfl

theorem Completes.idle {s t : Standing} {p : Phase} {as : List Action}
    (h : s.Completes p as t) : t.completions = s.completions := by
  cases h <;> rfl

theorem Moves.pending {s t : Standing} {as : List Action} (h : Moves s as t) (hs : s.Pending) :
    t.Pending := by
  induction h with
  | refl => exact hs
  | move hi hm _ ih => exact ih (hm.pending hi)
  | complete _ hm _ ih => exact ih (.inl hm.idle)

/-- Nothing happens before the start. -/
def StartsReading (s : Standing) : Prop :=
  s.started = false → s.phase = .reading ∧ s.completions = []

theorem Move.startsReading {s t : Standing} {as : List Action} (hm : s.Move as t)
    (hs : s.StartsReading) : t.StartsReading := by
  intro ht
  cases hm with
  | start => cases ht
  | partition _ hp => cases hp.symm.trans (hs ht).1
  | flatten hp => cases hp.symm.trans (hs ht).1
  | reorder hp => cases hp.symm.trans (hs ht).1
  | settle hp => cases hp.symm.trans (hs ht).1
  | deviation _ hp => cases hp.symm.trans (hs ht).1
  | work hp hread => cases (hread (hp.symm.trans (hs ht).1)).symm.trans ht
  | answers => exact hs ht
  | distributed => exact hs ht
  | lower => exact hs ht

theorem Moves.startsReading {s t : Standing} {as : List Action} (hm : Moves s as t)
    (hs : s.StartsReading) : t.StartsReading := by
  induction hm with
  | refl => exact hs
  | move _ hm _ ih => exact ih (hm.startsReading hs)
  | complete hc hp _ ih =>
    refine ih fun ht => ?_
    have hnone := (hs (hp.started.symm.trans ht)).2
    cases hc.symm.trans hnone

end Standing
end Worker
end MeshDecomp
