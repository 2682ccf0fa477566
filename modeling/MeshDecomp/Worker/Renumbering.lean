import MeshDecomp.Worker.Basic

/-! New node ids: a processing element numbers its own block and asks its peers for the rest. -/

namespace MeshDecomp.Worker

def withNumbering (w : Worker) (go : Numbering → Result α) : Result α :=
  match w.numbering with
  | none => w.refuse .numberingBeforeFlatten
  | some n => go n

/-- Carries a call on the numbering over to the processing element. -/
def lift (w : Worker) (o : Outcome Numbering NumberingFault α) : Result α :=
  (o.mapState fun n => { w with numbering := some n }).mapError fun e => w.violation (.numbering e)

/-- Answers the requests that can be answered. -/
def flushRequests (w : Worker) : Result (List Action) :=
  w.withNumbering fun n =>
    (w.lift n.flush).map fun replies => replies.map fun r => .send r.1 (.reply r.2)

/-- Notes that every node has a new id, unless that is noted already. -/
def checkReordered (w : Worker) : Worker :=
  if w.phase = .reordering ∧ w.numbering.any Numbering.complete ∧
      w.completions.contains .reordering = false then
    { w with completions := w.completions ++ [.reordering] }
  else w

/-- Numbers the own block and asks the peers. -/
def reorder (w : Worker) (start : Nat) (asked : IdMap (List Nat)) : Result (List Action) :=
  w.inPhase .flattening "reorder" <|
    if asked.keys.any (w.pes ≤ ·) then w.refuse .askedOutOfRange
    else
      let w := { w with phase := .reordering }
      w.withNumbering fun n =>
        ((w.lift (n.begin w.rank start asked)).map fun requests =>
          requests.map fun r => Action.send r.1 (.request r.2)).append fun w =>
            w.flushRequests.append fun w => .ok w.checkReordered []

/-- A peer asks for new ids. -/
def request (w : Worker) (source : Nat) (nodes : List Nat) : Result (List Action) :=
  w.withNumbering fun n => flushRequests { w with numbering := some (n.push source nodes) }

/-- A peer tells new ids. -/
def reply (w : Worker) (source : Nat) (pairs : List (Nat × Nat)) : Result (List Action) :=
  w.inPhase .reordering "new node ids" <|
    w.withNumbering fun n =>
      (w.lift (n.resolve source pairs)).bind fun w _ => .ok w.checkReordered []

end MeshDecomp.Worker
