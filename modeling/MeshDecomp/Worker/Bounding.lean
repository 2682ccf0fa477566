import MeshDecomp.Worker.Distribution

/-!
Work units in new ids, and the range of new ids that a processing element assembles. The ranges
follow one another in rank order: the upper bound of a rank is the lower bound of the next.
-/

namespace MeshDecomp.Worker

/-- The first node without a new id in the work units of a span, in the order of the units. Units
that are not in the table have no nodes. -/
def unnumbered? (w : Worker) (n : Numbering) (s : Span) : Option Nat :=
  ((w.table.entries.filter fun e => e.1 ∈ s).flatMap fun e => e.2.values.flatten).find? fun old =>
    (n.newId? old).isNone

/-- A work unit in new ids. -/
def buildUnit (w : Worker) (n : Numbering) (unit : Nat) : WorkUnit :=
  let ids := (w.nodesOf unit).filterMap fun old => (n.newId? old).map fun new => (new, old)
  ⟨unit, w.rank, ids.map Prod.fst, .ofList ids⟩

/-- All work units of this rank, if every node has a new id. -/
def buildUnits (w : Worker) (n : Numbering) (units : Nat) : Except Violation (List WorkUnit) :=
  let s := Block.span units w.pes w.rank
  match w.unnumbered? n s with
  | some node => .error (.unnumberedNode node)
  | none => .ok (s.toList.map (w.buildUnit n))

/-- The share of the nodes whose new id lies outside of the bounds. -/
def costOf (n : Numbering) (s : Span) : Binary64 :=
  let outside := (n.nodes.filterMap n.newId?).countP fun new => new ∉ s
  if n.nodes.isEmpty then .zero else .ofNat outside / .ofNat n.nodes.length

/-- Settles the upper bound and the cost once the lower bound is known, and tells the next rank.
`highest + 1` is taken without a bound; it is a machine word unless `highest` is the last one. -/
def tryBounds (w : Worker) : Worker × List Action :=
  match w.lower, w.upper, w.numbering with
  | some lower, none, some n =>
      if w.phase = .bounding then
        let last := w.rank + 1 = w.pes
        let upper :=
          if last then max (max (w.highest + 1) n.block.stop) lower else max w.highest lower
        ({ w with
            upper := some upper
            cost := some (costOf n ⟨lower, upper⟩)
            completions := w.completions ++ [.bounding] },
          if last then [] else [.send (w.rank + 1) (.lower upper)])
      else (w, [])
  | _, _, _ => (w, [])

def settleBounds (w : Worker) : Result (List Action) := .ok w.tryBounds.1 w.tryBounds.2

/-- Every node has a new id: build the work units and look for the bounds. -/
def enterBounding (w : Worker) : Result (List Action) :=
  let w := { w with phase := .bounding }
  match w.units, w.numbering with
  | none, _ => w.refuse .boundsBeforePartition
  | _, none => w.refuse .boundsBeforeReorder
  | some units, some n =>
      match w.buildUnits n units with
      | .error v => w.refuse v
      | .ok built =>
          let highest := (built.flatMap WorkUnit.connectivity).foldl max 0
          let w := { w with built, highest }
          settleBounds <|
            if w.rank = 0 then { w with lower := some 0 }
            else if w.earlyLower.isSome then { w with lower := w.earlyLower, earlyLower := none }
            else w

/-- The rank before tells its upper bound. It is held until this rank looks for its bounds. -/
def receiveLower (w : Worker) (source bound : Nat) : Result (List Action) :=
  if source + 1 ≠ w.rank then w.refuse (.lowerFrom source)
  else if w.lower.isSome ∨ w.earlyLower.isSome then w.refuse .lowerTwice
  else if w.phase < Phase.bounding then .ok { w with earlyLower := some bound } []
  else if w.phase = .bounding then settleBounds { w with lower := some bound }
  else w.refuse (.lowerInPhase w.phase)

/-- Hands out work units, bounds and cost. -/
def hand (w : Worker) : Result (List Action) :=
  .ok { w with phase := .creating, built := [] }
    (w.built.map .instantiate ++ w.bounds.toList.map (.bounds w.rank) ++
      [.contribute (.cost (w.cost.getD .zero))])

/-- Contributes the squared deviation of the cost from the mean. -/
def deviation (w : Worker) (mean : Binary64) : Result (List Action) :=
  w.inPhase .creating "cost statistics" <|
    let d := w.cost.getD .zero - mean
    .ok { w with phase := .done } [.contribute (.deviation (d * d))]

end MeshDecomp.Worker
