import MeshDecomp.IdMap
import MeshDecomp.Mesh.Error
import MeshDecomp.Mesh.Point
import MeshDecomp.Mesh.Tet

/-!
Tetrahedral meshes, and readers that give access to a mesh one range of elements at a time. A reader
may fail and need not tell the truth.
-/

namespace MeshDecomp

/-- Access to the elements `0, …, count - 1` and to the nodes of a mesh. -/
structure Reader where
  count : Except MeshError Nat
  /-- The node ids of a range of elements, four per element. -/
  elements : (first stop : Nat) → Except MeshError (List Nat)
  coordinates : (nodes : List Nat) → Except MeshError (IdMap Point)

structure TetMesh where
  tets : List Tet
  coordinates : IdMap Point
  deriving DecidableEq, Repr

namespace TetMesh

/-- The first element with a node that has no coordinates, and its first such node. -/
def firstUnknown (coordinates : IdMap Point) : (element : Nat) → List Tet → Option (Nat × Nat)
  | _, [] => none
  | e, t :: r =>
      match t.nodes.find? fun n => !coordinates.contains n with
      | some n => some (e, n)
      | none => firstUnknown coordinates (e + 1) r

/-- The mesh of a flat connectivity list. -/
def ofFlat (ids : List Nat) (coordinates : IdMap Point) : Except MeshError TetMesh :=
  if ids.length % 4 ≠ 0 then .error (.malformedConnectivity ids.length)
  else
    match firstUnknown coordinates 0 (Tet.ofFlat ids) with
    | some (e, n) => .error (.unknownNode e n)
    | none => .ok ⟨Tet.ofFlat ids, coordinates⟩

def size (m : TetMesh) : Nat := m.tets.length

def nodeCount (m : TetMesh) : Nat := m.coordinates.size

def connectivity (m : TetMesh) : List Nat := Tet.flatten m.tets

/-- Gives every node `n` the id `f n`. -/
def relabel (f : Nat → Nat) (m : TetMesh) : TetMesh where
  tets := m.tets.map fun t => ⟨f t.a, f t.b, f t.c, f t.d⟩
  coordinates := .ofList (m.coordinates.entries.map fun e => (f e.1, e.2))

def shift (offset : Nat) : TetMesh → TetMesh := relabel (· + offset)

def elements (m : TetMesh) (first stop : Nat) : Except MeshError (List Nat) :=
  if stop < first ∨ m.size < stop then .error (.rangeOutOfBounds first stop m.size)
  else .ok (Tet.flatten ((m.tets.drop first).take (stop - first)))

def lookUp (m : TetMesh) (nodes : List Nat) : Except MeshError (IdMap Point) :=
  nodes.foldlM (fun found n =>
    match m.coordinates.get? n with
    | some p => .ok (found.insert n p)
    | none => .error (.missingCoordinates n)) ∅

def reader (m : TetMesh) : Reader where
  count := .ok m.size
  elements := m.elements
  coordinates := m.lookUp

end TetMesh

/-! ### Readers for trials

The test driver and examples read through them; no run of the program makes one. -/

namespace Reader

/-- Tells of `n` elements, whatever the mesh holds. -/
def withCount (n : Nat) (r : Reader) : Reader := { r with count := .ok n }

/-- Loses the last `k` ids of every range it reads. -/
def withoutLast (k : Nat) (r : Reader) : Reader :=
  { r with elements := fun first stop => do
      let ids ← r.elements first stop
      return ids.take (ids.length - k) }

/-- Does not tell the coordinates of some nodes. -/
def withoutNodes (hidden : List Nat) (r : Reader) : Reader :=
  { r with coordinates := fun nodes => do
      let found ← r.coordinates nodes
      return found.filter fun n _ => !hidden.contains n }

end Reader

end MeshDecomp
