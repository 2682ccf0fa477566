import MeshDecomp.IdMap
import MeshDecomp.Mesh.Error
import MeshDecomp.Mesh.Tet

/-!
The graph of elements that share a face, with the neighbours of all elements in one list. The first
element with a face is its holder; every later element with the face becomes a neighbour of the
holder.
-/

namespace MeshDecomp

/-- The three nodes of a face in ascending order. -/
structure Face where
  a : Nat
  b : Nat
  c : Nat
  deriving DecidableEq, Repr

namespace Face

def ofNodes (x y z : Nat) : Face :=
  let lo := min x y
  let hi := max x y
  if z ≤ lo then ⟨z, lo, hi⟩ else if z ≤ hi then ⟨lo, z, hi⟩ else ⟨lo, hi, z⟩

end Face

def Tet.faces (t : Tet) : List Face :=
  [.ofNodes t.b t.c t.d, .ofNodes t.a t.c t.d, .ofNodes t.a t.b t.d, .ofNodes t.a t.b t.c]

/-- A map from faces, by their three nodes. -/
structure FaceMap (α : Type u) where
  byNodes : IdMap (IdMap (IdMap α)) := ∅
  deriving DecidableEq, Repr

namespace FaceMap

def get? (m : FaceMap α) (f : Face) : Option α := do
  let m ← m.byNodes.get? f.a
  let m ← m.get? f.b
  m.get? f.c

/-- Puts `g` of the value at a face there. -/
def alter (m : FaceMap α) (f : Face) (g : Option α → α) : FaceMap α where
  byNodes := m.byNodes.alter f.a fun m => (m.getD ∅).alter f.b fun m => (m.getD ∅).alter f.c g

theorem get?_alter (m : FaceMap α) (f : Face) (g : Option α → α) (e : Face) :
    (m.alter f g).get? e = if e = f then some (g (m.get? f)) else m.get? e := by
  obtain ⟨a, b, c⟩ := e
  obtain ⟨a', b', c'⟩ := f
  simp only [get?, alter, IdMap.get?_alter, Face.mk.injEq, Option.bind_eq_bind]
  by_cases ha : a = a'
  · subst ha
    cases m.byNodes.get? a with
    | none => by_cases hb : b = b' <;> by_cases hc : c = c' <;> simp [IdMap.get?_alter, hb, hc]
    | some m =>
      by_cases hb : b = b'
      · subst hb
        cases h : m.get? b <;> by_cases hc : c = c' <;> simp [IdMap.get?_alter, h, hc]
      · simp [IdMap.get?_alter, hb]
  · simp [ha]

end FaceMap

/-- The neighbours of `i` are `targets` from position `offsets[i]` to position `offsets[i + 1]`. -/
structure FaceGraph where
  offsets : Array Nat
  targets : Array Nat
  weights : Array Nat
  deriving DecidableEq, Repr

namespace FaceGraph

def size (g : FaceGraph) : Nat := g.offsets.size - 1

def neighbours (g : FaceGraph) (i : Nat) : List Nat :=
  (g.targets.extract (g.offsets.getD i 0) (g.offsets.getD (i + 1) 0)).toList

/-- The number of targets before each row, and after the last. -/
def offsetsFrom (start : Nat) : List (List Nat) → List Nat
  | [] => [start]
  | row :: rows => start :: offsetsFrom (start + row.length) rows

/-- The graph with these rows of neighbours, every element of weight one. -/
def ofRows (rows : List (List Nat)) : FaceGraph where
  offsets := (offsetsFrom 0 rows).toArray
  targets := rows.flatten.toArray
  weights := (rows.map fun _ => 1).toArray

/-- The faces of all elements in order, each with its element. -/
def allFaces (ts : List Tet) : List (Face × Nat) :=
  ts.zipIdx.flatMap fun t => t.1.faces.map (·, t.2)

/-- The first element with each face. -/
def holders (faces : List (Face × Nat)) : FaceMap Nat :=
  faces.foldl (fun m f => m.alter f.1 fun h => h.getD f.2) {}

/-- Every element with a face next to the holder of that face, in both directions. -/
def links (faces : List (Face × Nat)) : List (Nat × Nat) :=
  let held := holders faces
  faces.flatMap fun f =>
    match held.get? f.1 with
    | some h => if h = f.2 then [] else [(f.2, h), (h, f.2)]
    | none => []

/-- What each element is linked to. -/
def linked (links : List (Nat × Nat)) : IdMap (List Nat) :=
  links.foldr (fun l m => m.alter l.1 fun r => l.2 :: r.getD []) ∅

def ofTets (ts : List Tet) : FaceGraph :=
  let found := linked (links (allFaces ts))
  ofRows ((List.range ts.length).map fun e => ascending ((found.get? e).getD []))

def ofFlat (ids : List Nat) : Except MeshError FaceGraph :=
  if ids.length % 4 ≠ 0 then .error (.malformedConnectivity ids.length)
  else .ok (ofTets (Tet.ofFlat ids))

theorem get?_holders (faces : List (Face × Nat)) (f : Face) :
    (holders faces).get? f = (faces.find? fun g => g.1 = f).map Prod.snd := by
  suffices h : ∀ m : FaceMap Nat,
      (faces.foldl (fun m g => m.alter g.1 fun h => h.getD g.2) m).get? f =
        (m.get? f).or ((faces.find? fun g => g.1 = f).map Prod.snd) from
    h {}
  induction faces with
  | nil => simp
  | cons g faces ih =>
    intro m
    rw [List.foldl_cons, ih, FaceMap.get?_alter, List.find?_cons]
    by_cases hg : f = g.1
    · subst hg
      cases m.get? g.1 <;> simp
    · simp [hg, Ne.symm hg]

theorem get?_linked (links : List (Nat × Nat)) (e : Nat) :
    ((linked links).get? e).getD [] = (links.filter fun l => l.1 = e).map Prod.snd := by
  induction links with
  | nil => simp [linked]
  | cons l links ih =>
    simp only [linked, List.foldr_cons] at ih ⊢
    rw [IdMap.get?_alter]
    by_cases he : e = l.1
    · subst he
      simp [ih]
    · simp [he, Ne.symm he, ih]

end FaceGraph

end MeshDecomp
