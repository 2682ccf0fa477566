/-! The phases that a processing element goes through. -/

namespace MeshDecomp

inductive Phase where
  | reading
  | centroids
  | ready
  | partitioning
  | flattening
  | reordering
  | bounding
  | creating
  | done
  deriving DecidableEq, Repr

namespace Phase

def all : List Phase :=
  [reading, centroids, ready, partitioning, flattening, reordering, bounding, creating, done]

/-- The place of a phase in the order of the pipeline. -/
def place : Phase → Nat
  | reading => 0
  | centroids => 1
  | ready => 2
  | partitioning => 3
  | flattening => 4
  | reordering => 5
  | bounding => 6
  | creating => 7
  | done => 8

instance : LE Phase := ⟨fun p q => p.place ≤ q.place⟩

instance : LT Phase := ⟨fun p q => p.place < q.place⟩

instance (p q : Phase) : Decidable (p ≤ q) := inferInstanceAs (Decidable (p.place ≤ q.place))

instance (p q : Phase) : Decidable (p < q) := inferInstanceAs (Decidable (p.place < q.place))

theorem le_def {p q : Phase} : p ≤ q ↔ p.place ≤ q.place := Iff.rfl

theorem lt_def {p q : Phase} : p < q ↔ p.place < q.place := Iff.rfl

def name : Phase → String
  | reading => "reading"
  | centroids => "centroids"
  | ready => "ready"
  | partitioning => "partitioning"
  | flattening => "flattening"
  | reordering => "reordering"
  | bounding => "bounding"
  | creating => "creating"
  | done => "done"

def ofName? (text : String) : Option Phase := all.find? fun p => p.name = text

end Phase

end MeshDecomp
