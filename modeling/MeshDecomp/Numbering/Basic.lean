import MeshDecomp.Block
import MeshDecomp.IdMap
import MeshDecomp.Mesh.Tet
import MeshDecomp.Outcome

/-!
The new ids that one processing element knows. It numbers the nodes that nobody else numbers for it,
asks the holders of the others, and answers what it is asked once its own nodes are numbered.
-/

namespace MeshDecomp

inductive NumberingFault where
  | begunTwice
  | asksItself
  | unknownNode (peer node : Nat)
  | notNumberedHere (peer node : Nat)
  | unsolicited (peer : Nat)
  | notRequested (peer node : Nat)
  | numberedTwice (node : Nat)
  deriving DecidableEq, Repr

namespace NumberingFault

def message : NumberingFault → String
  | begunTwice => "reorder started twice"
  | asksItself => "comm map lists the PE itself"
  | unknownNode peer node => s!"comm map entry of PE {peer} holds unknown node {node}"
  | notNumberedHere peer node =>
      s!"PE {peer} requested node {node}, which is not numbered here"
  | unsolicited peer => s!"unsolicited new ids from PE {peer}"
  | notRequested peer node => s!"PE {peer} numbered node {node}, which was not requested"
  | numberedTwice node => s!"node {node} assigned a new id twice"

end NumberingFault

structure Numbering where
  /-- The nodes to number, in ascending order. -/
  nodes : List Nat
  /-- The nodes that each peer numbers. -/
  asked : IdMap (List Nat) := ∅
  newIds : IdMap Nat := ∅
  /-- The new ids of the nodes that are numbered here. -/
  block : Span := ⟨0, 0⟩
  begun : Bool := false
  /-- Requests that wait for an answer, oldest first. -/
  inbox : List (Nat × List Nat) := []
  deriving DecidableEq, Repr

namespace Numbering

def newId? (n : Numbering) (old : Nat) : Option Nat := n.newIds.get? old

/-- Every node has a new id. -/
def complete (n : Numbering) : Bool := n.begun && n.newIds.size = n.nodes.length

/-- What may be asked of one peer: known nodes in ascending order. -/
def checkAsked (rank : Nat) (known : IdSet) (peer : Nat) (asked : List Nat) :
    Except NumberingFault (List Nat) :=
  if peer = rank then .error .asksItself
  else
    let asked := ascending asked
    match asked.find? fun x => !known.contains x with
    | some x => .error (.unknownNode peer x)
    | none => .ok asked

/-- The lists of all peers, without the empty ones. -/
def checkAll (rank : Nat) (known : IdSet) :
    List (Nat × List Nat) → Except NumberingFault (List (Nat × List Nat))
  | [] => .ok []
  | (peer, asked) :: r => do
      let asked ← checkAsked rank known peer asked
      let others ← checkAll rank known r
      return if asked.isEmpty then others else (peer, asked) :: others

/-- The nodes that nobody else numbers. -/
def ownNodes (nodes : List Nat) (asked : List (Nat × List Nat)) : List Nat :=
  let others := IdSet.ofList (asked.flatMap Prod.snd)
  nodes.filter fun x => !others.contains x

/-- Numbers the own nodes from `start` up, in ascending order. The answer is what to ask of whom.
New ids are counted without a bound here: they are machine words as long as the block ends below
`2 ^ 64`. -/
def begin (n : Numbering) (rank start : Nat) (asked : IdMap (List Nat)) :
    Outcome Numbering NumberingFault (List (Nat × List Nat)) :=
  if n.begun then .fail n .begunTwice
  else
    match checkAll rank (.ofList n.nodes) asked.entries with
    | .error e => .fail n e
    | .ok requests =>
        let own := ownNodes n.nodes requests
        .ok { n with
          asked := .ofList requests
          newIds := (own.zipIdx start).foldl (fun m p => m.insert p.1 p.2) n.newIds
          block := ⟨start, start + own.length⟩
          begun := true } requests

/-- Keeps a request of a peer until it can be answered. -/
def push (n : Numbering) (peer : Nat) (nodes : List Nat) : Numbering :=
  { n with inbox := n.inbox ++ [(peer, nodes)] }

/-- The new ids of nodes that are numbered here. -/
def reply (n : Numbering) (peer : Nat) (nodes : List Nat) :
    Except NumberingFault (List (Nat × Nat)) :=
  nodes.mapM fun x =>
    match n.newId? x with
    | some y => if y ∈ n.block then .ok (x, y) else .error (.notNumberedHere peer x)
    | none => .error (.notNumberedHere peer x)

/-- Answers requests in order. One that cannot be answered is dropped with the answers before it. -/
def answer (n : Numbering) : List (Nat × List Nat) →
    Outcome Numbering NumberingFault (List (Nat × List (Nat × Nat)))
  | [] => .ok { n with inbox := [] } []
  | (peer, nodes) :: r =>
      match n.reply peer nodes with
      | .error e => .fail { n with inbox := r } e
      | .ok pairs => (answer n r).map ((peer, pairs) :: ·)

/-- Answers every waiting request, once the own nodes are numbered. -/
def flush (n : Numbering) : Outcome Numbering NumberingFault (List (Nat × List (Nat × Nat))) :=
  if n.begun then n.answer n.inbox else .ok n []

/-- Takes new ids one by one, up to the first that does not belong here. -/
def take (requested : IdSet) (peer : Nat) (n : Numbering) :
    List (Nat × Nat) → Outcome Numbering NumberingFault Unit
  | [] => .ok n ()
  | (old, new) :: r =>
      if !requested.contains old then .fail n (.notRequested peer old)
      else
        let taken := { n with newIds := n.newIds.insert old new }
        if n.newIds.contains old then .fail taken (.numberedTwice old)
        else take requested peer taken r

/-- Takes the new ids that a peer gave to nodes it was asked for. -/
def resolve (n : Numbering) (peer : Nat) (pairs : List (Nat × Nat)) :
    Outcome Numbering NumberingFault Unit :=
  match n.asked.get? peer with
  | none => .fail n (.unsolicited peer)
  | some requested => take (.ofList requested) peer n pairs

end Numbering

end MeshDecomp
