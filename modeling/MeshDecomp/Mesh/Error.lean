import MeshDecomp.Decimal.Text

/-! What can be wrong with a mesh or with reading it. -/

namespace MeshDecomp

inductive GeometryFault where
  | noCells
  | emptyExtent (axis : Nat) (lo hi : Binary64)
  | stated (text : String)
  deriving DecidableEq, Repr

namespace GeometryFault

def message : GeometryFault → String
  | noCells => "cell counts must be positive"
  | emptyExtent axis lo hi =>
      s!"box extent along axis {axis} is empty: [{Decimal.plain lo}, {Decimal.plain hi}]"
  | stated text => text

end GeometryFault

inductive MeshError where
  | rangeOutOfBounds (first stop count : Nat)
  | missingCoordinates (node : Nat)
  | malformedConnectivity (length : Nat)
  | unknownNode (element node : Nat)
  | invalidGeometry (fault : GeometryFault)
  deriving DecidableEq, Repr

namespace MeshError

def message : MeshError → String
  | rangeOutOfBounds first stop count =>
      s!"Element range {first}..{stop} out of bounds for mesh with {count} elements"
  | missingCoordinates node => s!"No coordinates for mesh node {node}"
  | malformedConnectivity length =>
      s!"Malformed connectivity: {length} node ids is not a multiple of 4"
  | unknownNode element node => s!"Element {element} references unknown node {node}"
  | invalidGeometry fault => s!"Invalid geometry: {fault.message}"

end MeshError

end MeshDecomp
