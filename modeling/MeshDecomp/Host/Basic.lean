import MeshDecomp.Host.Tally
import MeshDecomp.Numbering.Sharing
import MeshDecomp.Report

/-!
The host. It collects one contribution of each kind from every processing element, and turns the
last one of a kind into commands: it partitions all elements in one call, shares out the nodes, and
sums up the costs.
-/

namespace MeshDecomp

/-- What the host wants done. -/
inductive Directive where
  | broadcast (c : Command)
  | tell (pe : Nat) (c : Command)
  | finished (r : Report)
  deriving DecidableEq, Repr

structure Host where
  pes : Nat
  settings : Settings
  partitioner : Partitioner
  loads : Tally Nat
  setups : Tally Unit
  slices : Tally ElementSlice
  distributions : Tally Unit
  flattenings : Tally Unit
  nodeSets : Tally (List Nat)
  costs : Tally Binary64
  deviations : Tally Binary64
  /-- The number of elements in the whole mesh, once every load is known. -/
  elements : Nat := 0
  units : Nat := 0
  nodes : Nat := 0
  meanCost : Binary64 := .zero
  reordered : Bool := false

abbrev Host.Result (α : Type) := Outcome Host (Failure RunError) α

namespace Host

/-- A host for `pes` processing elements, of which there must be some, and not more than tallies
have room for. -/
def create (pes : Nat) (settings : Settings) : Except (Failure RunError) Host := do
  settings.validate.mapError fun e => .error (.settings e)
  if pes = 0 then throw (.error (.settings .noPes))
  if Tally.maxPes < pes then throw (.crash .outOfRoom)
  return {
    pes, settings
    partitioner := settings.algorithm.partitioner
    loads := .empty pes
    setups := .empty pes
    slices := .empty pes
    distributions := .empty pes
    flattenings := .empty pes
    nodeSets := .empty pes
    costs := .empty pes
    deviations := .empty pes }

/-- Partitions with another partitioner than that of the settings. -/
def withPartitioner (h : Host) (p : Partitioner) : Host := { h with partitioner := p }

/-- The number of work units for a mesh of some size: at least one for every processing element. -/
def decideUnits (h : Host) (elements : Nat) : Except RunError Nat := do
  let units ← match h.settings.units with
    | some n => pure n
    | none =>
        let g ← (Granularity.ofShare h.settings.virtualization elements h.pes).mapError .settings
        pure g.units
  if units < h.pes then throw (.tooFewUnits units h.pes) else return units

/-- What the slices of the ranks so far hold together. -/
structure Gathered where
  connectivity : List Nat := []
  elements : Nat := 0
  centroids : Centroids := .empty
  deriving DecidableEq, Repr

namespace Gathered

/-- The largest number of elements that can be gathered. -/
def maxElements : Nat := 0x3ffffffffffffff

/-- The next rank's slice must hold whole elements, start where the last one stopped, and bring one
centroid for each element if centroids are gathered. -/
def add (geometric : Bool) (g : Gathered) (s : ElementSlice) : Except Violation Gathered :=
  if s.connectivity.length ≠ 4 * s.size then .error (.incompleteElements s.connectivity.length)
  else if s.first ≠ g.elements then .error (.elementsStart s.first g.elements)
  else
    let joined : Gathered :=
      { g with connectivity := g.connectivity ++ s.connectivity, elements := g.elements + s.size }
    match s.centroids with
    | some c =>
        if !geometric then .ok joined
        else if c.size ≠ s.size then .error (.centroidCount c.size s.size)
        else .ok { joined with centroids := g.centroids ++ c }
    | none => .ok joined

/-- All slices in rank order. -/
def addAll (geometric : Bool) (pe : Nat) (g : Gathered) :
    List ElementSlice → Except RunError Gathered
  | [] => .ok g
  | s :: r =>
      match g.add geometric s with
      | .error v => .error (.internal pe v)
      | .ok g => addAll geometric (pe + 1) g r

end Gathered

/-- Partitions the elements of all slices in one call. Centroids are used if every slice brings
them. -/
def assign (h : Host) (slices : List ElementSlice) : Except (Failure RunError) (List Nat) := do
  if Gathered.maxElements < h.elements then throw (.crash .outOfRoom)
  let geometric := slices.all fun s => s.centroids.isSome
  let g ← (Gathered.addAll geometric 0 {} slices).mapError .error
  if g.elements ≠ h.elements then
    throw (.error (.internal 0 (.gathered g.elements h.elements)))
  let input : PartitionInput := {
    connectivity := g.connectivity
    centroids := if geometric then some g.centroids else none
    elements := List.range g.elements
    total := h.elements }
  let ids ← (h.partitioner.assign input h.units).mapError (·.map .partition)
  if ids.length = h.elements then return ids
  else throw (.error (.internal 0 (.assigned h.partitioner.name ids.length h.elements)))

/-- Every rank gets the assignment of the elements it read. -/
def scatter (units : Nat) : (pe : Nat) → List ElementSlice → List Nat → List Directive
  | _, [], _ => []
  | pe, s :: r, ids =>
      .tell pe (.partition units (ids.take s.size)) :: scatter units (pe + 1) r (ids.drop s.size)

/-- Partitions once all loads, setups and elements are there. The sum of the loads is taken without
a bound; it is a machine word below `2 ^ 64`. -/
def tryPartition (h : Host) : Result (List Directive) :=
  if h.loads.complete && h.setups.complete && h.slices.complete then
    let h := { h with elements := h.loads.values.foldr (· + ·) 0 }
    match h.decideUnits h.elements with
    | .error e => .fail h (.error e)
    | .ok units =>
        let slices := h.slices.values
        let h := { h with units, slices := h.slices.clear }
        match h.assign slices with
        | .error e => .fail h e
        | .ok ids => .ok h (scatter units 0 slices ids)
  else .ok h []

/-- Shares out the nodes once all node sets are there. Sets that do not ascend are not refused. -/
def tryReorder (h : Host) : Result (List Directive) :=
  if h.reordered then .ok h []
  else if h.flattenings.complete && h.nodeSets.complete then
    let sharing := Sharing.ofSets h.nodeSets.values
    .ok { h with reordered := true, nodes := sharing.total, nodeSets := h.nodeSets.clear }
      ((sharing.asked.zip sharing.starts).mapIdx fun pe s => .tell pe (.reorder s.2 s.1))
  else .ok h []

def mean (h : Host) (t : Tally Binary64) : Binary64 := Binary64.sum t.values / .ofNat h.pes

def report (h : Host) : Report where
  pes := h.pes
  elements := h.elements
  units := h.units
  nodes := h.nodes
  meanCost := h.meanCost
  costDeviation := (h.mean h.deviations).sqrt

/-- Puts a contribution into its tally and goes on, unless it is refused. -/
def fill (h : Host) (tally : Tally α) (kind : Contribution.Kind) (pe : Nat) (a : α)
    (go : Tally α → Result (List Directive)) : Result (List Directive) :=
  match tally.insert kind pe a with
  | .error e => .fail h (.error e)
  | .ok t => go t

/-- Takes a contribution of `pe`. -/
def contribute (h : Host) (pe : Nat) (c : Contribution) : Result (List Directive) :=
  match c with
  | .load n => h.fill h.loads c.kind pe n fun t => tryPartition { h with loads := t }
  | .setup => h.fill h.setups c.kind pe () fun t => tryPartition { h with setups := t }
  | .elements s => h.fill h.slices c.kind pe s fun t => tryPartition { h with slices := t }
  | .distributed => h.fill h.distributions c.kind pe () fun t =>
      .ok { h with distributions := t } (if t.complete then [.broadcast .flatten] else [])
  | .flattened => h.fill h.flattenings c.kind pe () fun t => tryReorder { h with flattenings := t }
  | .nodes ids => h.fill h.nodeSets c.kind pe ids fun t => tryReorder { h with nodeSets := t }
  | .cost x => h.fill h.costs c.kind pe x fun t =>
      let h := { h with costs := t }
      if t.complete then
        .ok { h with meanCost := h.mean t } [.broadcast (.deviation (h.mean t))]
      else .ok h []
  | .deviation x => h.fill h.deviations c.kind pe x fun t =>
      let h := { h with deviations := t }
      .ok h (if t.complete then [.finished h.report] else [])

end Host

end MeshDecomp
