import MeshDecomp.Partition.Bisection
import MeshDecomp.Partition.Run

/-!
The Hilbert curve through a cube of `2 ^ 21` points a side, and the partitioner that cuts the
elements into runs along it. The position of a point comes from the bits of its coordinates: from
the highest bit down they say how the bits below are inverted and exchanged; then each triple of
bits is the Gray code of an octant.
-/

namespace MeshDecomp.Hilbert

/-- A point of a cube. -/
structure Cube where
  x : Nat
  y : Nat
  z : Nat
  deriving DecidableEq, Repr

namespace Cube

def get (c : Cube) : Axis → Nat
  | .x => c.x
  | .y => c.y
  | .z => c.z

def alter (c : Cube) (f : Nat → Nat) : Axis → Cube
  | .x => { c with x := f c.x }
  | .y => { c with y := f c.y }
  | .z => { c with z := f c.z }

def map (f : Nat → Nat) (c : Cube) : Cube := ⟨f c.x, f c.y, f c.z⟩

/-- Where the bit `b` of a coordinate is set, the bits below it are inverted in the first
coordinate; where it is clear, they are exchanged with those of the first coordinate. -/
def undo (b : Nat) (c : Cube) (a : Axis) : Cube :=
  let below := (1 <<< b) - 1
  if (c.get a).testBit b then c.alter (· ^^^ below) .x
  else
    let t := (c.x ^^^ c.get a) &&& below
    (c.alter (· ^^^ t) .x).alter (· ^^^ t) a

/-- Does so for the bits from `b` down to 1. -/
def undoAll : (b : Nat) → Cube → Cube
  | 0, c => c
  | b + 1, c => undoAll b (Axis.all.foldl (undo (b + 1)) c)

/-- The Gray code of every triple of bits. -/
def gray (c : Cube) : Cube :=
  let y := c.y ^^^ c.x
  ⟨c.x, y, c.z ^^^ y⟩

/-- Appends the lowest `b` bits of the coordinates to the key, from the highest, axis by axis. -/
def interleave : (b : Nat) → (key : Nat) → Cube → Nat
  | 0, key, _ => key
  | b + 1, key, c =>
      interleave b (Axis.all.foldl (fun key a => 2 * key + ((c.get a).testBit b).toNat) key) c

end Cube

/-- Inverts the bits of `t` below every set bit of `z`, from the bit `b` down to the bit 1. -/
def invert : (b : Nat) → (t z : Nat) → Nat
  | 0, t, _ => t
  | b + 1, t, z => invert b (if z.testBit (b + 1) then t ^^^ ((1 <<< (b + 1)) - 1) else t) z

/-- The number of bits kept of each coordinate. -/
def levels : Nat := 21

/-- The number of points along an axis. -/
def side : Nat := Nat.pow 2 levels

/-- The position of a point; only the lowest bits of its coordinates count. -/
def index (x y z : Nat) : Nat :=
  let c := ((Cube.mk x y z).undoAll (levels - 1)).gray
  let t := invert (levels - 1) 0 c.z
  (c.map (· ^^^ t)).interleave levels 0

/-- The place of a coordinate between `lo` and `hi`, in steps; zero where there is no extent. -/
def quantize (lo hi v : Binary64) : Nat :=
  let extent := hi - lo
  let share := if Binary64.zero.lt extent then (v - lo) / extent else .zero
  Binary64.truncate UInt32.size (.clamp .zero .one share * .ofNat (side - 1))

def keys (ps : List Point) : List Nat :=
  let (lo, hi) := Bisection.boundingBox ps
  ps.map fun p => index (quantize lo.x hi.x p.x) (quantize lo.y hi.y p.y) (quantize lo.z hi.z p.z)

/-- The run of every element when the elements go by key, then by number. -/
def runs (parts : Nat) (keys : List Nat) : List Nat :=
  let count := keys.length
  let sorted := keys.zipIdx.mergeSort fun a b => a.1 < b.1 || (a.1 = b.1 && a.2 ≤ b.2)
  Bisection.inOrder (sorted.zipIdx.map fun e => (e.1.2, Run.holding count parts e.2))

end MeshDecomp.Hilbert

namespace MeshDecomp.Partitioner

def hilbertCurve : Partitioner := ofCentroids "hsfc" fun c size parts =>
  if size = 0 then .ok []
  else do
    let ps ← points c
    return Hilbert.runs parts (Hilbert.keys ps)

end MeshDecomp.Partitioner
