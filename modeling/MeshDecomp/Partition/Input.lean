import MeshDecomp.Failure
import MeshDecomp.Mesh.Point
import MeshDecomp.Partition.Error

/-! What a partitioner is given, and what a partitioner is. -/

namespace MeshDecomp

/-- The elements to map to parts, in the order of their numbers. -/
structure PartitionInput where
  /-- Four node ids per element. -/
  connectivity : List Nat
  centroids : Option Centroids
  /-- The numbers of the elements in the whole mesh. -/
  elements : List Nat
  /-- The number of elements in the whole mesh. -/
  total : Nat
  deriving DecidableEq, Repr

namespace PartitionInput

def size (i : PartitionInput) : Nat := i.elements.length

/-- Connectivity, element numbers and centroids speak of the same number of elements. -/
def validate (i : PartitionInput) : Except PartitionError Unit :=
  if i.connectivity.length ≠ 4 * i.size then
    .error (.invalidInput (.connectivityCount i.connectivity.length i.size))
  else
    match i.centroids with
    | some c =>
        if c.size ≠ i.size then .error (.invalidInput (.centroidCount c.size i.size)) else .ok ()
    | none => .ok ()

end PartitionInput

/-- Maps every element to a part below the number of parts asked for. -/
structure Partitioner where
  name : String
  /-- Whether the centroids of the elements are wanted. -/
  geometric : Bool
  assign : (input : PartitionInput) → (parts : Nat) → Except (Failure PartitionError) (List Nat)

namespace Partitioner

/-- Refuses zero parts and an input that does not fit together, in this order. -/
def guarded (assign : PartitionInput → Nat → Except (Failure PartitionError) (List Nat))
    (input : PartitionInput) (parts : Nat) : Except (Failure PartitionError) (List Nat) :=
  if parts = 0 then .error (.error .noParts)
  else
    match input.validate with
    | .error e => .error (.error e)
    | .ok () => assign input parts

/-- A partitioner that works on centroids. -/
def ofCentroids (name : String)
    (assign : Centroids → (size parts : Nat) → Except Crash (List Nat)) : Partitioner where
  name := name
  geometric := true
  assign := guarded fun input parts =>
    match input.centroids with
    | none => .error (.error (.missingCentroids name))
    | some c => (assign c input.size parts).mapError .crash

/-- The points of the elements; an axis that ends early has no coordinate to give. -/
def points (c : Centroids) : Except Crash (List Point) :=
  match c.points? with
  | some ps => .ok ps
  | none => .error .indexOutOfBounds

end Partitioner

end MeshDecomp
