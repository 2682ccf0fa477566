import MeshDecomp.Block
import MeshDecomp.Mesh.Basic

/-! The contiguous portion of the elements that one processing element reads. -/

namespace MeshDecomp

structure Portion where
  /-- Four node ids per element. -/
  connectivity : List Nat
  /-- The numbers of the elements in the whole mesh. -/
  elements : List Nat
  deriving DecidableEq, Repr

namespace Portion

def empty : Portion := ⟨[], []⟩

def size (p : Portion) : Nat := p.elements.length

/-- Reads the elements of a span, four ids for each. Where all of them are there, there is room for
the numbers of the elements too. The ids are counted against a machine word, though, which wraps
around: fewer of them can pass for a span whose numbers there is no room for. -/
def readSpan (r : Reader) (s : Span) : Except (Failure MeshError) Portion := do
  let ids ← (r.elements s.first s.stop).mapError .error
  if ids.length = 4 * s.size then return ⟨ids, s.toList⟩
  else if ids.length = 4 * s.size % UInt64.size then throw (.crash .outOfRoom)
  else throw (.error (.malformedConnectivity ids.length))

/-- Reads the block of `rank`. -/
def read (r : Reader) (pes rank : Nat) : Except (Failure MeshError) Portion := do
  let total ← r.count.mapError .error
  let s ← (Block.checked pes (Block.span total pes rank)).mapError .crash
  readSpan r s

/-- The nodes of the portion in ascending order. -/
def nodes (p : Portion) : List Nat := ascending p.connectivity

/-- The mean of the four corners, added from left to right. -/
def mean (coordinates : IdMap Point) (t : Tet) : Except MeshError Point := do
  let corners ← t.nodes.mapM fun n =>
    match coordinates.get? n with
    | some p => .ok p
    | none => .error (MeshError.missingCoordinates n)
  return corners.foldl (· + ·) Point.origin / (4 : Binary64)

theorem readSpan_of_error {r : Reader} {s : Span} {e : MeshError}
    (h : r.elements s.first s.stop = .error e) : readSpan r s = .error (.error e) := by
  rw [readSpan, h]
  rfl

theorem readSpan_of_ok {r : Reader} {s : Span} {ids : List Nat}
    (h : r.elements s.first s.stop = .ok ids) : readSpan r s =
      if ids.length = 4 * s.size then .ok ⟨ids, s.toList⟩
      else if ids.length = 4 * s.size % UInt64.size then .error (.crash .outOfRoom)
      else .error (.error (.malformedConnectivity ids.length)) := by
  rw [readSpan, h]
  rfl

theorem read_of_error {r : Reader} {e : MeshError} (h : r.count = .error e) (pes rank : Nat) :
    read r pes rank = .error (.error e) := by
  rw [read, h]
  rfl

theorem read_of_pos {r : Reader} {total pes : Nat} (hc : r.count = .ok total) (h : 0 < pes)
    (rank : Nat) : read r pes rank = readSpan r (Block.span total pes rank) := by
  have hblock := Block.checked_of_pos h (Block.span total pes rank)
  rw [read, hc]
  change ((Block.checked pes (Block.span total pes rank)).mapError .crash >>= readSpan r) = _
  rw [hblock]
  rfl

def centroids (r : Reader) (p : Portion) : Except MeshError Centroids := do
  let found ← r.coordinates p.nodes
  return .ofPoints (← (Tet.ofFlat p.connectivity).mapM (mean found))

end Portion

end MeshDecomp
