import MeshDecomp.Mesh.FaceGraph
import MeshDecomp.Partition.Run

/-!
Parts grown one at a time over the face graph. A part grows breadth first from the lowest element
that is in no part until it has its share; where nothing is left to reach, it starts again from the
lowest such element.
-/

namespace MeshDecomp

structure Growth where
  /-- The part of each element that has one. -/
  parts : IdMap Nat := ∅
  /-- The elements in no part. -/
  free : IdSet
  deriving DecidableEq, Repr

namespace Growth

/-- Nothing has grown yet. -/
def bare (size : Nat) : Growth := { free := .ofList (List.range size) }

/-- Gives an element to a part. -/
def give (s : Growth) (e p : Nat) : Growth := ⟨s.parts.insert e p, s.free.erase e⟩

/-- The elements that an element brings into the queue. -/
def reached (g : FaceGraph) (s : Growth) (e : Nat) : List Nat :=
  (g.neighbours e).filter s.free.contains

/-- Gives part `p` another `need` elements, from the queue or from a new seed. The queue is `front`
followed by `back` from its end to its beginning. -/
def fill (g : FaceGraph) (p : Nat) (need : Nat) (front back : List Nat) (s : Growth) : Growth :=
  match need, front, back with
  | 0, _, _ => s
  | need + 1, e :: front, back =>
      if s.free.contains e then
        let s := s.give e p
        fill g p need front ((reached g s e).reverse ++ back) s
      else fill g p (need + 1) front back s
  | need + 1, [], e :: back => fill g p (need + 1) (e :: back).reverse [] s
  | need + 1, [], [] =>
      match s.free.first? with
      | some e =>
          let s := s.give e p
          fill g p need (reached g s e) [] s
      | none => s
termination_by (need, front.length + 2 * back.length)
decreasing_by all_goals simp_wf; omega

def grow (g : FaceGraph) (parts : Nat) : Growth :=
  (Run.occupied g.size parts).foldl (fun s p => fill g p (Run.share g.size parts p) [] [] s)
    (bare g.size)

end Growth

namespace Partitioner

/-- Every element has a part in the end: the shares add up to the number of elements. -/
def graphGrowing : Partitioner where
  name := "greedy"
  geometric := false
  assign := guarded fun input parts =>
    match FaceGraph.ofFlat input.connectivity with
    | .error e => .error (.error (.invalidInput (.connectivity e)))
    | .ok g =>
        let grown := (Growth.grow g parts).parts
        .ok ((List.range g.size).map fun e => (grown.get? e).getD 0)

end Partitioner

end MeshDecomp
