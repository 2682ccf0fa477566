import MeshDecomp.Failure
import MeshDecomp.Mesh.Basic

/-!
Boxes cut into cells, every cell into the six tetrahedra of Kuhn: one for each order in which a walk
from the lowest corner of the cell to the highest can take the axes. Neighbouring cells agree on the
diagonals of their common sides.
-/

namespace MeshDecomp.Box

/-- A corner of the grid, or the cell above it. -/
structure Cell where
  i : Nat
  j : Nat
  k : Nat
  deriving DecidableEq, Repr

namespace Cell

def step (c : Cell) : Axis → Cell
  | .x => { c with i := c.i + 1 }
  | .y => { c with j := c.j + 1 }
  | .z => { c with k := c.k + 1 }

def get (c : Cell) : Axis → Nat
  | .x => c.i
  | .y => c.j
  | .z => c.k

/-- The cells of a grid, the first index running fastest. -/
def grid (n : Cell) : List Cell :=
  (List.range n.k).flatMap fun k => (List.range n.j).flatMap fun j =>
    (List.range n.i).map fun i => ⟨i, j, k⟩

end Cell

/-- The node at a corner of a grid of `n` cells. -/
def node (n c : Cell) : Nat := c.i + (n.i + 1) * (c.j + (n.j + 1) * c.k)

def orders : List (Axis × Axis × Axis) :=
  [(.x, .y, .z), (.x, .z, .y), (.y, .x, .z), (.y, .z, .x), (.z, .x, .y), (.z, .y, .x)]

def walk (n c : Cell) (order : Axis × Axis × Axis) : Tet :=
  let c₁ := c.step order.1
  let c₂ := c₁.step order.2.1
  let c₃ := c₂.step order.2.2
  ⟨node n c, node n c₁, node n c₂, node n c₃⟩

def tets (n : Cell) : List Tet :=
  (Cell.grid n).flatMap fun c => orders.map (walk n c)

/-- Where a corner lies: the corners of an axis are evenly spaced. -/
def corner (n : Cell) (lo hi : Point) (c : Cell) : Point :=
  .ofAxes fun a => lo.get a + (hi.get a - lo.get a) * .ofNat (c.get a) / .ofNat (n.get a)

def coordinates (n : Cell) (lo hi : Point) : IdMap Point :=
  .ofList ((Cell.grid ⟨n.i + 1, n.j + 1, n.k + 1⟩).map fun c => (node n c, corner n lo hi c))

/-- The number of corners of a grid. -/
def nodeCount (n : Cell) : Nat := (n.i + 1) * (n.j + 1) * (n.k + 1)

/-- The largest number of nodes that a mesh has room for. -/
def maxNodes : Nat := 0x3ffffffffffffff

/-- The largest number of node ids that the elements of a mesh have room for. -/
def maxIds : Nat := 0xfffffffffffffff

/-- The mesh of the box from `lo` to `hi` with `n` cells along each axis. -/
def mesh (n : Cell) (lo hi : Point) : Except (Failure MeshError) TetMesh :=
  if n.i = 0 ∨ n.j = 0 ∨ n.k = 0 then .error (.error (.invalidGeometry .noCells))
  else
    match Axis.all.find? fun a => !(lo.get a).lt (hi.get a) with
    | some a => .error (.error (.invalidGeometry (.emptyExtent a.index (lo.get a) (hi.get a))))
    | none =>
        if maxNodes < nodeCount n ∨ maxIds < 24 * (n.i * n.j * n.k) then
          .error (.crash .outOfRoom)
        else .ok ⟨tets n, coordinates n lo hi⟩

end MeshDecomp.Box
