import MeshDecomp.Partition.Input

/-!
Recursive bisection of points. At every level the points are cut across a direction, so that each
side gets its share of the points; points of equal projection go by element number. The direction
is the widest axis, or the principal axis of inertia.
-/

namespace MeshDecomp.Bisection

structure Item where
  element : Nat
  point : Point
  deriving DecidableEq, Repr

/-- An item with the place of its projection among all doubles. -/
structure Projected where
  place : UInt64
  item : Item
  deriving DecidableEq, Repr

namespace Projected

/-- The order by place, then by element number. -/
def before (i j : Projected) : Bool :=
  i.place < j.place || (i.place = j.place && i.item.element ≤ j.item.element)

theorem before_total (i j : Projected) : (before i j || before j i) = true := by
  grind [before]

theorem before_trans {i j k : Projected} (hij : before i j = true) (hjk : before j k = true) :
    before i k = true := by
  grind [before]

end Projected

namespace Item

def project (d : Point) (i : Item) : Projected := ⟨(i.point.dot d).place, i⟩

/-- The order along `d`, then by element number. -/
def before (d : Point) (i j : Item) : Bool := (i.project d).before (j.project d)

/-- Projects every item once. -/
def sortAlong (d : Point) (items : List Item) : List Item :=
  ((items.map (project d)).mergeSort Projected.before).map Projected.item

theorem sortAlong_eq (d : Point) (items : List Item) :
    sortAlong d items = items.mergeSort (before d) := by
  rw [sortAlong, ← List.map_mergeSort (r := before d) (f := project d) (fun _ _ _ _ => rfl),
    List.map_map]
  exact List.map_id _

end Item

/-- The first `k` items along `d`, and the others. -/
def cut (d : Point) (k : Nat) (items : List Item) : List Item × List Item :=
  if 0 < k ∧ k < items.length then
    let sorted := Item.sortAlong d items
    (sorted.take k, sorted.drop k)
  else (items.take k, items.drop k)

/-- Every element with its part in `first, …, first + parts - 1`. -/
def assign (direction : List Item → Point) (first parts : Nat) (items : List Item) :
    List (Nat × Nat) :=
  if parts ≤ 1 ∨ items.length ≤ 1 then items.map fun i => (i.element, first)
  else
    let left := parts / 2
    let halves := cut (direction items) (items.length * left / parts) items
    assign direction first left halves.1 ++
      assign direction (first + left) (parts - left) halves.2
termination_by parts
decreasing_by all_goals omega

/-- The parts in the order of the elements. -/
def inOrder (pairs : List (Nat × Nat)) : List Nat :=
  (pairs.mergeSort fun a b => a.1 ≤ b.1).map Prod.snd

/-- One part, or one point, needs no coordinates. -/
def parts (direction : List Item → Point) (c : Centroids) (size parts : Nat) :
    Except Crash (List Nat) :=
  if parts ≤ 1 ∨ size ≤ 1 then .ok (List.replicate size 0)
  else do
    let ps ← Partitioner.points c
    return inOrder (assign direction 0 parts (ps.zipIdx.map fun p => ⟨p.2, p.1⟩))

/-- The lowest and the highest coordinate on each axis. -/
def boundingBox (ps : List Point) : Point × Point :=
  let low := fun a => ps.foldl (fun m p => m.min (p.get a)) Binary64.infinity
  let high := fun a => ps.foldl (fun m p => m.max (p.get a)) Binary64.negInfinity
  (.ofAxes low, .ofAxes high)

def unit : Axis → Point
  | .x => ⟨.one, .zero, .zero⟩
  | .y => ⟨.zero, .one, .zero⟩
  | .z => ⟨.zero, .zero, .one⟩

/-- The unit vector along the widest extent; the first of equally wide axes. -/
def widestAxis (items : List Item) : Point :=
  let (lo, hi) := boundingBox (items.map Item.point)
  let extent := hi - lo
  let wider := fun a b => if (extent.get a).lt (extent.get b) then b else a
  unit (wider (wider .x .y) .z)

/-- Three rows of three numbers. -/
structure Matrix where
  x : Point
  y : Point
  z : Point
  deriving DecidableEq, Repr

namespace Matrix

def zero : Matrix := ⟨.origin, .origin, .origin⟩

/-- Adds the products of the coordinates of `p`. -/
def addOuter (m : Matrix) (p : Point) : Matrix :=
  let scaled := fun s : Binary64 => (⟨s * p.x, s * p.y, s * p.z⟩ : Point)
  ⟨m.x + scaled p.x, m.y + scaled p.y, m.z + scaled p.z⟩

def apply (m : Matrix) (v : Point) : Point := ⟨m.x.dot v, m.y.dot v, m.z.dot v⟩

end Matrix

def mean (ps : List Point) : Point :=
  let count := Binary64.ofNat ps.length
  ps.foldl (fun m p => m + p / count) .origin

def covariance (ps : List Point) : Matrix :=
  let m := mean ps
  ps.foldl (fun c p => c.addOuter (p - m)) .zero

/-- Multiplies and normalises `rounds` times. There is no answer once the length is zero, infinite
or too close to zero. -/
def powerIteration (m : Matrix) : (rounds : Nat) → Point → Option Point
  | 0, v => some v
  | n + 1, v =>
      let next := m.apply v
      let norm := (next.dot next).sqrt
      if norm.isNormal then powerIteration m n (next / norm) else none

/-- Keeps a symmetric cloud aligned with its axes. -/
def tilt : Point := ⟨⟨0x3f50624dd2f1a9fc⟩, ⟨0x3f60624dd2f1a9fc⟩, ⟨0x3f689374bc6a7efa⟩⟩

/-- The dominant axis of inertia; the widest axis if the cloud has none. -/
def principalAxis (items : List Item) : Point :=
  let widest := widestAxis items
  (powerIteration (covariance (items.map Item.point)) 64 (widest + tilt)).getD widest

end MeshDecomp.Bisection

namespace MeshDecomp.Partitioner

def coordinateBisection : Partitioner := ofCentroids "rcb" (Bisection.parts Bisection.widestAxis)

def inertialBisection : Partitioner := ofCentroids "rib" (Bisection.parts Bisection.principalAxis)

end MeshDecomp.Partitioner
