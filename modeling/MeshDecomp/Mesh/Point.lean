import MeshDecomp.Binary64

/-! Points of space, and lists of points kept per axis. -/

namespace MeshDecomp

inductive Axis where
  | x
  | y
  | z
  deriving DecidableEq, Repr

namespace Axis

def all : List Axis := [.x, .y, .z]

def index : Axis → Nat
  | .x => 0
  | .y => 1
  | .z => 2

end Axis

structure Point where
  x : Binary64
  y : Binary64
  z : Binary64
  deriving DecidableEq, Repr

namespace Point

def get (p : Point) : Axis → Binary64
  | .x => p.x
  | .y => p.y
  | .z => p.z

def ofAxes (f : Axis → Binary64) : Point := ⟨f .x, f .y, f .z⟩

@[simp] theorem get_ofAxes (f : Axis → Binary64) (a : Axis) : (ofAxes f).get a = f a := by
  cases a <;> rfl

def origin : Point := ⟨.zero, .zero, .zero⟩

instance : Add Point := ⟨fun p q => ⟨p.x + q.x, p.y + q.y, p.z + q.z⟩⟩

instance : Sub Point := ⟨fun p q => ⟨p.x - q.x, p.y - q.y, p.z - q.z⟩⟩

instance : HDiv Point Binary64 Point := ⟨fun p d => ⟨p.x / d, p.y / d, p.z / d⟩⟩

/-- The products of the coordinates, added from left to right. -/
def dot (p q : Point) : Binary64 := p.x * q.x + p.y * q.y + p.z * q.z

end Point

/-- One point per element, kept as three coordinate lists. Lists from elsewhere may differ in
length. -/
structure Centroids where
  xs : List Binary64
  ys : List Binary64
  zs : List Binary64
  deriving DecidableEq, Repr

namespace Centroids

def empty : Centroids := ⟨[], [], []⟩

def axis (c : Centroids) : Axis → List Binary64
  | .x => c.xs
  | .y => c.ys
  | .z => c.zs

def ofPoints (ps : List Point) : Centroids :=
  ⟨ps.map Point.x, ps.map Point.y, ps.map Point.z⟩

def size (c : Centroids) : Nat := c.xs.length

instance : Append Centroids := ⟨fun c d => ⟨c.xs ++ d.xs, c.ys ++ d.ys, c.zs ++ d.zs⟩⟩

/-- The points of all elements, if every coordinate list reaches as far as the first one. -/
def points? (c : Centroids) : Option (List Point) :=
  if c.xs.length ≤ c.ys.length ∧ c.xs.length ≤ c.zs.length then
    some (((c.xs.zip c.ys).zip c.zs).map fun p => ⟨p.1.1, p.1.2, p.2⟩)
  else none

@[simp] theorem size_ofPoints (ps : List Point) : (ofPoints ps).size = ps.length := by
  simp [ofPoints, size]

@[simp] theorem length_axis_ofPoints (ps : List Point) (a : Axis) :
    ((ofPoints ps).axis a).length = ps.length := by
  cases a <;> exact List.length_map _

@[simp] theorem points?_ofPoints (ps : List Point) : (ofPoints ps).points? = some ps := by
  simp only [points?, ofPoints, List.length_map, Nat.le_refl, and_self, ↓reduceIte,
    Option.some.injEq]
  induction ps with
  | nil => rfl
  | cons p ps ih => simpa using ih

end Centroids

end MeshDecomp
