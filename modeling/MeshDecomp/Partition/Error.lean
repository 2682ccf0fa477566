import MeshDecomp.Mesh.Error

/-! Why elements cannot be mapped to parts. -/

namespace MeshDecomp

inductive InputFault where
  | connectivityCount (entries elements : Nat)
  | centroidCount (centroids elements : Nat)
  | beyondMesh (element total : Nat)
  | connectivity (cause : MeshError)
  deriving DecidableEq, Repr

namespace InputFault

def message : InputFault → String
  | connectivityCount entries elements => s!"{entries} connectivity entries for {elements} elements"
  | centroidCount centroids elements => s!"{centroids} centroids for {elements} elements"
  | beyondMesh element total => s!"element {element} beyond mesh of {total} elements"
  | connectivity cause => cause.message

end InputFault

inductive PartitionError where
  | missingCentroids (partitioner : String)
  | noParts
  | invalidInput (fault : InputFault)
  | unsupported (partitioner feature : String)
  | other (text : String)
  deriving DecidableEq, Repr

namespace PartitionError

def message : PartitionError → String
  | missingCentroids partitioner => s!"{partitioner} partitioning needs element centroids"
  | noParts => "Cannot partition into zero parts"
  | invalidInput fault => s!"Invalid partitioner input: {fault.message}"
  | unsupported partitioner feature =>
      s!"Partitioning algorithm {partitioner} is not available; "
        ++ s!"rebuild with the `{feature}` feature"
  | other text => s!"Partitioner error: {text}"

end PartitionError

end MeshDecomp
