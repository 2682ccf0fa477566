import MeshDecomp.Block
import MeshDecomp.IdMap

/-! Finished work units, and a collector of what a run hands out. -/

namespace MeshDecomp

structure WorkUnit where
  id : Nat
  pe : Nat
  /-- New node ids, four per element. -/
  connectivity : List Nat
  /-- The old id of every node of the unit. -/
  oldIds : IdMap Nat
  deriving DecidableEq, Repr

def WorkUnit.size (u : WorkUnit) : Nat := u.connectivity.length / 4

structure Collector where
  /-- The units so far, last first. -/
  latest : List WorkUnit := []
  /-- The new ids that each processing element assembles. -/
  bounds : IdMap Span := ∅
  deriving DecidableEq, Repr

namespace Collector

/-- The units in the order they came in. -/
def units (c : Collector) : List WorkUnit := c.latest.reverse

def addUnit (c : Collector) (u : WorkUnit) : Collector := { c with latest := u :: c.latest }

@[simp] theorem units_addUnit (c : Collector) (u : WorkUnit) :
    (c.addUnit u).units = c.units ++ [u] := by simp [units, addUnit]

def addBounds (c : Collector) (pe : Nat) (s : Span) : Collector :=
  { c with bounds := c.bounds.insert pe s }

/-- The units by id; those with one id stay in order. -/
def sortedUnits (c : Collector) : List WorkUnit := c.units.mergeSort fun u v => u.id ≤ v.id

/-- Adds an old id, unless another one is known. -/
def agree (known : IdMap Nat) (new old : Nat) : Option (IdMap Nat) :=
  match known.get? new with
  | none => some (known.insert new old)
  | some o => if o = old then some known else none

/-- The old ids of all units, if no two units disagree. -/
def oldIds? (c : Collector) : Option (IdMap Nat) :=
  (c.units.flatMap fun u => u.oldIds.entries).foldlM (fun m e => agree m e.1 e.2) ∅

end Collector

end MeshDecomp
