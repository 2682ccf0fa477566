import MeshDecomp.Proofs.Units

/-!
A processing element in closed form: its state as a function of what was delivered to it, in the
order of arrival.
-/
namespace MeshDecomp

/-- What was delivered to one processing element. -/
structure View where
  partitioned : Bool := false
  /-- Who sent work units, in the order of arrival. -/
  adds : List Nat := []
  acks : List Nat := []
  flattened : Bool := false
  requests : List Nat := []
  reordered : Bool := false
  replies : List Nat := []
  lowered : Bool := false
  closed : Bool := false

namespace Scenario

variable (S : Scenario) (pe : Nat) (v : View)

/-- Every node of the rank has a new id. -/
def Complete : Prop := v.reordered = true ∧ ∀ q ∈ (S.asked pe).keys, q ∈ v.replies

/-- The rank has its bounds. -/
def Settled : Prop := S.Complete pe v ∧ (pe = 0 ∨ v.lowered = true)

instance : Decidable (S.Complete pe v) := inferInstanceAs (Decidable (_ ∧ _))

instance : Decidable (S.Settled pe v) := inferInstanceAs (Decidable (_ ∧ _))

def phase : Phase :=
  if v.closed then .done
  else if S.Settled pe v then .creating
  else if S.Complete pe v then .bounding
  else if v.reordered then .reordering
  else if v.flattened then .flattening
  else if v.partitioned then .partitioning
  else .ready

def worker : Worker where
  rank := pe
  pes := S.pes
  reader := S.mesh.reader
  geometric := S.partitioner.geometric
  phase := S.phase pe v
  started := true
  total := S.mesh.size
  portion := S.portion pe
  units := if v.partitioned then some S.units else none
  table := if v.partitioned then S.table pe (pe :: v.adds) else ∅
  parked := if v.partitioned then [] else v.adds.map fun s => (s, S.cargo s pe)
  pendingAcks := if v.partitioned then (S.exports pe).size - v.acks.length else 0
  partitioned := v.partitioned
  distributed := v.partitioned && v.acks.length = (S.exports pe).size
  numbering := if v.flattened then some (S.numbering pe v.reordered v.requests v.replies) else none
  built := if S.Complete pe v ∧ ¬ S.Settled pe v then S.unitsOf pe else []
  highest := if S.Complete pe v then S.highest pe else 0
  earlyLower := if v.lowered = true ∧ ¬ S.Complete pe v then some (S.lower pe) else none
  lower := if S.Settled pe v then some (S.lower pe) else none
  upper := if S.Settled pe v then some (S.upper pe) else none
  cost := if S.Settled pe v then some (S.cost pe) else none

/-- What a rank hands out once it has its bounds. -/
def outcome : List Action :=
  (if pe + 1 = S.pes then [] else [.send (pe + 1) (.lower (S.upper pe))]) ++
    ((S.unitsOf pe).map .instantiate ++ [.bounds pe (S.bounds pe)] ++
      [.contribute (.cost (S.cost pe))])

/-- The work units of the elements that a rank read exist. -/
def InRange : Prop := ∀ unit ∈ S.share pe, unit < S.units

instance : Decidable (S.InRange pe) := inferInstanceAs (Decidable (∀ _ ∈ _, _))

/-- The first work unit of these elements that does not exist. -/
def stray? : Option Nat := (S.share pe).find? fun unit => S.units ≤ unit

end Scenario

end MeshDecomp
