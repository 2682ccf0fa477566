import MeshDecomp.Partition.Bisection
import MeshDecomp.Partition.Growth
import MeshDecomp.Partition.Hilbert
import MeshDecomp.Partition.Run

/-! The partitioners that can be asked for by name. -/

namespace MeshDecomp

inductive Algorithm where
  | coordinateBisection
  | inertialBisection
  | hilbertCurve
  | elementOrder
  | graphGrowing
  | multilevel
  deriving DecidableEq, Repr

namespace Algorithm

def all : List Algorithm :=
  [coordinateBisection, inertialBisection, hilbertCurve, elementOrder, graphGrowing, multilevel]

def name : Algorithm → String
  | coordinateBisection => "rcb"
  | inertialBisection => "rib"
  | hilbertCurve => "hsfc"
  | elementOrder => "block"
  | graphGrowing => "greedy"
  | multilevel => "metis"

def ofName? (text : String) : Option Algorithm := all.find? fun a => a.name = text

@[simp] theorem ofName?_name (a : Algorithm) : ofName? a.name = some a := by
  cases a <;> decide

def partitioner : Algorithm → Partitioner
  | coordinateBisection => .coordinateBisection
  | inertialBisection => .inertialBisection
  | hilbertCurve => .hilbertCurve
  | elementOrder => .elementOrder
  | graphGrowing => .graphGrowing
  | multilevel =>
      ⟨"metis", false, fun _ _ => .error (.error (.unsupported "metis" "metis-support"))⟩

def geometric (a : Algorithm) : Bool := a.partitioner.geometric

@[simp] theorem name_partitioner (a : Algorithm) : a.partitioner.name = a.name := by
  cases a <;> rfl

end Algorithm

end MeshDecomp
