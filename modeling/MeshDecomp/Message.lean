import MeshDecomp.IdMap
import MeshDecomp.Mesh.Point
import MeshDecomp.WorkUnit

/-! What processing elements and the host tell each other. -/

namespace MeshDecomp

/-- From one processing element to another. -/
inductive PeerMessage where
  /-- Work units of the receiver, with the nodes of the sender's elements in them. -/
  | add (units : IdMap (List Nat))
  | ack
  /-- Nodes that the receiver numbers. -/
  | request (nodes : List Nat)
  /-- Old ids with the new ids of the sender. -/
  | reply (pairs : List (Nat × Nat))
  /-- Where the new ids of the receiver begin. -/
  | lower (bound : Nat)
  deriving DecidableEq, Repr

/-- From the host to processing elements. -/
inductive Command where
  /-- The work unit of every element that the receiver read. -/
  | partition (units : Nat) (assignment : List Nat)
  | flatten
  /-- Where the receiver's new ids start, and whom to ask for which nodes. -/
  | reorder (start : Nat) (asked : IdMap (List Nat))
  | deviation (mean : Binary64)
  deriving DecidableEq, Repr

/-- Contiguous elements as the host gathers them. -/
structure ElementSlice where
  first : Nat
  connectivity : List Nat
  centroids : Option Centroids
  deriving DecidableEq, Repr

def ElementSlice.size (s : ElementSlice) : Nat := s.connectivity.length / 4

/-- From a processing element to the host. -/
inductive Contribution where
  | load (elements : Nat)
  | setup
  | elements (slice : ElementSlice)
  | distributed
  | flattened
  | nodes (ids : List Nat)
  | cost (x : Binary64)
  | deviation (x : Binary64)
  deriving DecidableEq, Repr

namespace Contribution

inductive Kind where
  | load
  | setup
  | elements
  | distributed
  | flattened
  | nodes
  | cost
  | deviation
  deriving DecidableEq, Repr

def Kind.name : Kind → String
  | load => "load"
  | setup => "setup"
  | elements => "elements"
  | distributed => "distribution"
  | flattened => "flatten"
  | nodes => "nodes"
  | cost => "avgcost"
  | deviation => "stdcost"

def kind : Contribution → Kind
  | load _ => .load
  | setup => .setup
  | elements _ => .elements
  | distributed => .distributed
  | flattened => .flattened
  | nodes _ => .nodes
  | cost _ => .cost
  | deviation _ => .deviation

end Contribution

/-- Anything that travels. An abort tells that the sender failed. -/
inductive Envelope where
  | peer (m : PeerMessage)
  | command (c : Command)
  | contribution (c : Contribution)
  | abort (user : Bool) (reason : String)
  deriving DecidableEq, Repr

/-- What a processing element wants done. -/
inductive Action where
  | send (receiver : Nat) (m : PeerMessage)
  | contribute (c : Contribution)
  | instantiate (u : WorkUnit)
  | bounds (pe : Nat) (s : Span)
  deriving DecidableEq, Repr

end MeshDecomp
