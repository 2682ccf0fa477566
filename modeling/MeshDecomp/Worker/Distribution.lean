import MeshDecomp.Worker.Basic

/-!
Elements on their way to the owners of their work units. The owner acknowledges what it got; the
distribution is done here once everything sent is acknowledged.
-/

namespace MeshDecomp.Worker

/-- The nodes of the local elements by work unit, in element order. -/
def bucket (units : Nat) (elements : List (Tet × Nat)) : Except Violation (IdMap (List Nat)) :=
  match elements.find? fun e => units ≤ e.2 with
  | some e => .error (.unitOutOfRange e.2 units)
  | none =>
      .ok (elements.foldr (fun e m => m.alter e.2 fun nodes => e.1.nodes ++ nodes.getD []) ∅)

/-- The work units of others by owner. -/
def exports (rank pes units : Nat) (buckets : IdMap (List Nat)) : IdMap (IdMap (List Nat)) :=
  buckets.entries.foldl (fun m e =>
    let owner := Block.owner units pes e.1
    if owner = rank then m else m.alter owner fun us => (us.getD ∅).insert e.1 e.2) ∅

/-- Puts nodes that `source` read into a work unit. -/
def record (table : IdMap (IdMap (List Nat))) (unit source : Nat) (nodes : List Nat) :
    IdMap (IdMap (List Nat)) :=
  table.alter unit fun sources => (sources.getD ∅).insert source nodes

/-- Keeps the own work units and sends the others to their owners. -/
def distribute (w : Worker) (units : Nat) (buckets : IdMap (List Nat)) : Worker × List Action :=
  let own := buckets.entries.filter fun e => Block.owner units w.pes e.1 = w.rank
  let out := exports w.rank w.pes units buckets
  ({ w with
      table := own.foldl (fun t e => record t e.1 w.rank e.2) w.table
      pendingAcks := out.size },
    out.entries.map fun e => .send e.1 (.add e.2))

/-- Reports the distribution as soon as nothing is outstanding, once. -/
def checkDistributed (w : Worker) : Result (List Action) :=
  if w.partitioned ∧ w.pendingAcks = 0 ∧ w.distributed = false then
    .ok { w with distributed := true } [.contribute .distributed]
  else .ok w []

/-- Takes work units one by one, up to the first that does not belong here. -/
def mergeAll (w : Worker) (source units : Nat) : List (Nat × List Nat) → Result Unit
  | [] => .ok w ()
  | (unit, nodes) :: r =>
      let owner := Block.owner units w.pes unit
      if units ≤ unit ∨ owner ≠ w.rank then w.refuse (.foreignUnit unit source owner)
      else
        let taken := { w with table := record w.table unit source nodes }
        if (((w.table.get? unit).getD ∅).contains source) then taken.refuse (.unitTwice unit source)
        else mergeAll taken source units r

/-- Takes the work units of a peer and acknowledges them. -/
def merge (w : Worker) (source : Nat) (incoming : IdMap (List Nat)) : Result (List Action) :=
  match w.units with
  | none => w.refuse .mergeBeforePartition
  | some units =>
      (mergeAll w source units incoming.entries).map fun _ => [.send source .ack]

/-- Takes what was parked; what comes after a failure is lost. -/
def mergeParked (w : Worker) : List (Nat × IdMap (List Nat)) → Result (List Action)
  | [] => .ok w []
  | (source, incoming) :: r => (w.merge source incoming).append fun w => mergeParked w r

/-- The work unit of every local element is known: send each element to its owner. -/
def partition (w : Worker) (units : Nat) (assignment : List Nat) : Result (List Action) :=
  w.inPhase .ready "partition" <|
    if units < w.pes then .fail w (.tooFewUnits units w.pes)
    else
      let w := { w with units := some units, phase := .partitioning }
      if assignment.length ≠ w.portion.size then
        w.refuse (.assignmentCount assignment.length w.portion.size)
      else
        match bucket units ((Tet.ofFlat w.portion.connectivity).zip assignment) with
        | .error v => w.refuse v
        | .ok buckets =>
            let (w, adds) := w.distribute units buckets
            let parked := w.parked
            let w := { w with partitioned := true, parked := [] }
            (Outcome.ok w adds).append fun w =>
              (w.mergeParked parked).append checkDistributed

/-- Work units of a peer arrive. They are parked while the number of work units is unknown. -/
def add (w : Worker) (source : Nat) (incoming : IdMap (List Nat)) : Result (List Action) :=
  if Phase.partitioning < w.phase then w.refuse (.lateUnits source)
  else if w.units = none then .ok { w with parked := w.parked ++ [(source, incoming)] } []
  else (w.merge source incoming).append checkDistributed

def ack (w : Worker) : Result (List Action) :=
  if w.pendingAcks = 0 then w.refuse .unexpectedAck
  else checkDistributed { w with pendingAcks := w.pendingAcks - 1 }

/-- The nodes of a work unit, by source. -/
def nodesOf (w : Worker) (unit : Nat) : List Nat :=
  match w.table.get? unit with
  | none => []
  | some sources => sources.values.flatten

/-- Every node that the work units here use, in ascending order. -/
def allNodes (w : Worker) : List Nat :=
  ascending ((w.table.values.flatMap IdMap.values).flatten)

/-- All processing elements have distributed their elements: collect the nodes. -/
def flatten (w : Worker) : Result (List Action) :=
  w.inPhase .partitioning "flatten" <|
    if w.distributed = false then w.refuse .flattenBeforeDistribution
    else
      match w.units with
      | none => w.refuse .flattenBeforePartition
      | some units =>
          let w := { w with phase := .flattening }
          match (Block.span units w.pes w.rank).find? fun u => (w.nodesOf u).isEmpty with
          | some unit => .fail w (.overdecomposition w.rank unit units w.pes)
          | none =>
              .ok { w with numbering := some { nodes := w.allNodes } }
                [.contribute .flattened, .contribute (.nodes w.allNodes)]

end MeshDecomp.Worker
