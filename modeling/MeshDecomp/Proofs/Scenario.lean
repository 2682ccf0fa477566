import MeshDecomp.Network.Delivery
import MeshDecomp.Proofs.Sharing

/-!
What a run computes, told without messages: who reads, owns and numbers what, as functions of the
mesh, the number of processing elements and the answer of the partitioner.
-/
namespace MeshDecomp

/-- The mean of the corners of an element. -/
def TetMesh.centroid (m : TetMesh) (t : Tet) : Point :=
  (t.nodes.map fun n => (m.coordinates.get? n).getD .origin).foldl (· + ·) Point.origin /
    (4 : Binary64)

/-- The whole mesh as a partitioner gets it. -/
def TetMesh.input (m : TetMesh) (geometric : Bool) : PartitionInput where
  connectivity := m.connectivity
  centroids := if geometric then some (.ofPoints (m.tets.map m.centroid)) else none
  elements := List.range m.size
  total := m.size

/-- Every node of an element has coordinates, as `TetMesh.ofFlat` checks. -/
def TetMesh.IsComplete (m : TetMesh) : Prop :=
  ∀ t ∈ m.tets, ∀ x ∈ t.nodes, ∃ p, m.coordinates.get? x = some p

structure Scenario where
  mesh : TetMesh
  pes : Nat
  settings : Settings
  partitioner : Partitioner

namespace Scenario

variable (S : Scenario)

/-- What every run starts from: a mesh with coordinates, valid settings with a number of work
units, and some processing elements. -/
structure Admissible : Prop where
  complete : S.mesh.IsComplete
  pes_pos : 0 < S.pes
  pes_lt : S.pes < 2 ^ 32
  valid : S.settings.validate = .ok ()
  explicit : S.settings.units.isSome

/-- What it takes to launch a run. -/
structure Launchable : Prop where
  complete : S.mesh.IsComplete
  pes_pos : 0 < S.pes
  room : S.pes ≤ Tally.maxPes
  valid : S.settings.validate = .ok ()

/-- A run with a number of work units that is known from the beginning. -/
structure Determined : Prop extends Launchable S where
  explicit : S.settings.units.isSome

variable {S} in
theorem Admissible.determined (h : S.Admissible) : S.Determined where
  complete := h.complete
  pes_pos := h.pes_pos
  room := Nat.le_of_lt (h.pes_lt.trans (by decide))
  valid := h.valid
  explicit := h.explicit

instance : Coe S.Admissible S.Determined := ⟨Admissible.determined⟩

instance : Coe S.Admissible S.Launchable := ⟨fun h => h.determined.toLaunchable⟩

def launch : Except (Failure RunError) Network :=
  Network.launch S.mesh.reader S.pes S.settings S.partitioner

/-! ### Elements -/

/-- The number of work units. -/
def units : Nat := S.settings.units.getD 0

/-- What the host makes of the answer of the partitioner. -/
def answer : Except (Failure RunError) (List Nat) :=
  if S.units < S.pes then .error (.error (.tooFewUnits S.units S.pes))
  else if Host.Gathered.maxElements < S.mesh.size then .error (.crash .outOfRoom)
  else
    match S.partitioner.assign (S.mesh.input S.partitioner.geometric) S.units with
    | .error e => .error (e.map .partition)
    | .ok ids =>
        if ids.length = S.mesh.size then .ok ids
        else .error (.error (.internal 0 (.assigned S.partitioner.name ids.length S.mesh.size)))

/-- The work unit of every element. -/
def assignment : List Nat :=
  match S.answer with
  | .ok ids => ids
  | .error _ => []

/-- The elements that a rank reads. -/
def span (pe : Nat) : Span := Block.span S.mesh.size S.pes pe

/-- The part of a list over all elements that belongs to the elements of a rank. -/
def slice (pe : Nat) (l : List α) : List α := (l.drop (S.span pe).first).take (S.span pe).size

def portion (pe : Nat) : Portion := ⟨Tet.flatten (S.slice pe S.mesh.tets), (S.span pe).toList⟩

def elementSlice (pe : Nat) : ElementSlice where
  first := (S.span pe).first
  connectivity := (S.portion pe).connectivity
  centroids :=
    if S.partitioner.geometric then
      some (.ofPoints ((S.slice pe S.mesh.tets).map S.mesh.centroid))
    else none

def share (pe : Nat) : List Nat := S.slice pe S.assignment

/-! ### Work units -/

/-- Every element with its work unit. -/
def placed : List (Tet × Nat) := S.mesh.tets.zip S.assignment

/-- The nodes of those elements that lie in a work unit, in element order. -/
def nodesOf (elements : List (Tet × Nat)) (unit : Nat) : List Nat :=
  (elements.filter fun e => e.2 = unit).flatMap fun e => e.1.nodes

def content (unit : Nat) : List Nat := nodesOf S.placed unit

/-- The processing element that creates a work unit. -/
def owner (unit : Nat) : Nat := Block.owner S.units S.pes unit

/-- The nodes of what a rank read, by work unit. -/
def buckets (pe : Nat) : IdMap (List Nat) :=
  (S.slice pe S.placed).foldr (fun e m => m.alter e.2 fun nodes => e.1.nodes ++ nodes.getD []) ∅

/-- What `source` read of the work units of `target`. -/
def cargo (source target : Nat) : IdMap (List Nat) :=
  (S.buckets source).filter fun unit _ => S.owner unit = target

def exports (pe : Nat) : IdMap (IdMap (List Nat)) :=
  Worker.exports pe S.pes S.units (S.buckets pe)

/-- The nodes that the work units of a rank use. -/
def nodes (pe : Nat) : List Nat :=
  ascending ((S.placed.filter fun e => S.owner e.2 = pe).flatMap fun e => e.1.nodes)

/-! ### New ids -/

def sets : List (List Nat) := (List.range S.pes).map S.nodes

/-- The nodes that elements use. -/
def used : List Nat := ascending S.mesh.connectivity

/-- The lowest rank whose work units use a node. -/
def holder (x : Nat) : Nat := Sharing.holder S.sets x

/-- The place of a node in the order by holder and old id. -/
def newId (x : Nat) : Nat := Sharing.place S.sets S.used x

def asked (pe : Nat) : IdMap (List Nat) := (Sharing.ofSets S.sets).asked[pe]?.getD ∅

/-- The nodes of a rank that `q` numbers. -/
def held (pe q : Nat) : List Nat := (S.nodes pe).filter fun x => S.holder x = q

def start (pe : Nat) : Nat := S.used.countP fun x => S.holder x < pe

def block (pe : Nat) : Span := ⟨S.start pe, S.start pe + (S.held pe pe).length⟩

/-! ### Bounds and costs -/

def unit (id : Nat) : WorkUnit where
  id := id
  pe := S.owner id
  connectivity := (S.content id).map S.newId
  oldIds := .ofList ((S.content id).map fun x => (S.newId x, x))

/-- The work units of a rank. -/
def unitsOf (pe : Nat) : List WorkUnit := (Block.span S.units S.pes pe).toList.map S.unit

/-- The highest new id in the work units of a rank. -/
def highest (pe : Nat) : Nat := ((S.unitsOf pe).flatMap WorkUnit.connectivity).foldl max 0

/-- The upper bound of a rank above a lower bound. -/
def upperFrom (pe lower : Nat) : Nat :=
  if pe + 1 = S.pes then max (max (S.highest pe + 1) (S.block pe).stop) lower
  else max (S.highest pe) lower

def lower : Nat → Nat
  | 0 => 0
  | pe + 1 => S.upperFrom pe (lower pe)

def upper (pe : Nat) : Nat := S.upperFrom pe (S.lower pe)

def bounds (pe : Nat) : Span := ⟨S.lower pe, S.upper pe⟩

/-- The share of the nodes of a rank whose new id lies outside of its bounds. -/
def cost (pe : Nat) : Binary64 :=
  let outside := ((S.nodes pe).map S.newId).countP fun new => new ∉ S.bounds pe
  if (S.nodes pe).isEmpty then .zero else .ofNat outside / .ofNat (S.nodes pe).length

def mean (f : Nat → Binary64) : Binary64 :=
  Binary64.sum ((List.range S.pes).map f) / .ofNat S.pes

def meanCost : Binary64 := S.mean S.cost

def deviation (pe : Nat) : Binary64 :=
  let d := S.cost pe - S.meanCost
  d * d

def report : Report where
  pes := S.pes
  elements := S.mesh.size
  units := S.units
  nodes := S.used.length
  meanCost := S.meanCost
  costDeviation := (S.mean S.deviation).sqrt

end Scenario
end MeshDecomp
