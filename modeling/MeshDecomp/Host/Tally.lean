import MeshDecomp.IdMap
import MeshDecomp.RunError

/-! A tally of one kind of contribution, with room for one from every processing element. -/

namespace MeshDecomp

structure Tally (α : Type u) where
  pes : Nat
  slots : IdMap α := ∅
  /-- How many contributions were accepted. -/
  filled : Nat := 0
  deriving DecidableEq, Repr

namespace Tally

def empty (pes : Nat) : Tally α := { pes }

/-- The largest number of processing elements that a tally has room for. -/
def maxPes : Nat := 0x7ffffffffffffff

/-- Accepted as often as there are processing elements. -/
def complete (t : Tally α) : Bool := t.filled = t.pes

/-- Fills the slot of `pe`, which must be there and free. -/
def insert (t : Tally α) (kind : Contribution.Kind) (pe : Nat) (a : α) :
    Except RunError (Tally α) :=
  if t.pes ≤ pe then .error (.internal pe (.unknownPe kind))
  else if t.slots.contains pe then .error (.internal pe (.contributedTwice kind))
  else .ok { t with slots := t.slots.insert pe a, filled := t.filled + 1 }

/-- The contributions in rank order. -/
def values (t : Tally α) : List α := t.slots.values

/-- Frees the slots, and remembers how many contributions were accepted. -/
def clear (t : Tally α) : Tally α := { t with slots := ∅ }

@[simp] theorem values_empty (pes : Nat) : (empty pes : Tally α).values = [] := rfl

end Tally

end MeshDecomp
