/-! Tetrahedra, and flat lists of node ids that hold four per tetrahedron. -/

namespace MeshDecomp

structure Tet where
  a : Nat
  b : Nat
  c : Nat
  d : Nat
  deriving DecidableEq, Repr

namespace Tet

def nodes (t : Tet) : List Nat := [t.a, t.b, t.c, t.d]

/-- Up to three ids at the end that form no tetrahedron are left out. -/
def ofFlat : List Nat → List Tet
  | a :: b :: c :: d :: r => ⟨a, b, c, d⟩ :: ofFlat r
  | _ => []

def flatten (ts : List Tet) : List Nat := ts.flatMap nodes

@[simp] theorem length_nodes (t : Tet) : t.nodes.length = 4 := rfl

@[simp] theorem flatten_nil : flatten [] = [] := rfl

@[simp] theorem flatten_cons (t : Tet) (ts : List Tet) :
    flatten (t :: ts) = t.a :: t.b :: t.c :: t.d :: flatten ts := rfl

@[simp] theorem length_flatten (ts : List Tet) : (flatten ts).length = 4 * ts.length := by
  induction ts with
  | nil => rfl
  | cons t ts ih => simp [ih]; omega

@[simp] theorem ofFlat_flatten (ts : List Tet) : ofFlat (flatten ts) = ts := by
  induction ts with
  | nil => rfl
  | cons t ts ih => simp [ofFlat, ih]

theorem flatten_ofFlat {ids : List Nat} (h : ids.length % 4 = 0) : flatten (ofFlat ids) = ids := by
  fun_induction ofFlat ids with
  | case1 a b c d r ih =>
    have : r.length % 4 = 0 := by simp only [List.length_cons] at h; omega
    simp [ih this]
  | case2 ids hne =>
    match ids, h, hne with
    | [], _, _ => rfl
    | [_], h, _ => simp at h
    | [_, _], h, _ => simp at h
    | [_, _, _], h, _ => simp at h
    | _ :: _ :: _ :: _ :: _, _, hne => exact absurd rfl (hne _ _ _ _ _)

theorem length_ofFlat (ids : List Nat) : (ofFlat ids).length = ids.length / 4 := by
  fun_induction ofFlat ids with
  | case1 a b c d r ih =>
    simp only [List.length_cons, ih]
    omega
  | case2 ids hne =>
    match ids, hne with
    | [], _ | [_], _ | [_, _], _ | [_, _, _], _ => simp
    | _ :: _ :: _ :: _ :: _, hne => exact absurd rfl (hne _ _ _ _ _)

end Tet

end MeshDecomp
