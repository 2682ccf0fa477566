import MeshDecomp.Block
import MeshDecomp.Partition.Input

/-!
Partitioners that look at nothing but the numbers of the elements. They are for trials: the test
driver and examples use them, and none of them can be asked for by name.
-/

namespace MeshDecomp.Partitioner

/-- Always answers the same list, whether it fits or not. -/
def constant (name : String) (geometric : Bool) (ids : List Nat) : Partitioner :=
  ⟨name, geometric, fun _ _ => .ok ids⟩

def failing (name : String) (geometric : Bool) (text : String) : Partitioner :=
  ⟨name, geometric, fun _ _ => .error (.error (.other text))⟩

/-- Maps every element by its number; there is no answer modulo zero parts. -/
def byElement (name : String) (geometric : Bool)
    (part : (element total parts : Nat) → Nat) : Partitioner where
  name := name
  geometric := geometric
  assign input parts :=
    if parts = 0 ∧ input.elements ≠ [] then .error (.crash .divisionByZero)
    else .ok (input.elements.map fun e => part e input.total parts)

/-- Counts the parts down. -/
def reversed (name : String) (geometric : Bool) : Partitioner :=
  byElement name geometric fun e _ parts => parts - 1 - e % parts

/-- Gives every element to the part after the rank that reads it; there must be such ranks. -/
def shifted (name : String) (geometric : Bool) (pes : Nat) : Partitioner where
  name := name
  geometric := geometric
  assign input parts := do
    let width ← (Block.checked pes (max (Block.width input.total pes) 1)).mapError .crash
    (byElement name geometric fun e _ parts => (min (e / width) (pes - 1) + 1) % parts).assign
      input parts

end MeshDecomp.Partitioner
