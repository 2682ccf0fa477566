import MeshDecomp.Failure
import MeshDecomp.Wire.Error

/-! Links: how one rank sends bytes to the others and receives what they sent. -/

namespace MeshDecomp

abbrev Bytes := List UInt8

/-- The ends of a link change the state `σ` of what lies between the ranks. -/
structure Link (σ : Type) where
  rank : Nat
  size : Nat
  send : σ → (receiver : Nat) → Bytes → Except LinkError σ
  /-- The next message with its sender; nothing if there is none yet. -/
  receive : σ → Except LinkError (Option ((Nat × Bytes) × σ))
  /-- The next message if it is there already. -/
  poll : σ → Option ((Nat × Bytes) × σ)

/-- A single rank that can only send to itself. -/
def Link.loopback : Link (List Bytes) where
  rank := 0
  size := 1
  send queue receiver b :=
    if receiver = 0 then .ok (queue ++ [b]) else .error (.peerOutOfRange receiver 1)
  receive
    | [] => .error (.backend "recv on empty single-rank communicator")
    | b :: r => .ok (some ((0, b), r))
  poll
    | [] => none
    | b :: r => some ((0, b), r)

/-- One queue of received messages per rank. -/
abbrev Mailboxes := List (List (Nat × Bytes))

namespace Mailboxes

def empty (size : Nat) : Mailboxes := List.replicate size []

/-- The largest number of ranks that there is room for. -/
def maxSize : Nat := 192153584101141162

/-- Empty mailboxes, if there is room for them. -/
def create (size : Nat) : Except Crash Mailboxes :=
  if maxSize < size then .error .outOfRoom else .ok (empty size)

def put (m : Mailboxes) (receiver : Nat) (message : Nat × Bytes) : Mailboxes :=
  m.modify receiver (· ++ [message])

/-- Takes the oldest message of a rank. -/
def take (m : Mailboxes) (rank : Nat) : Option ((Nat × Bytes) × Mailboxes) :=
  match m[rank]? with
  | some (message :: r) => some (message, m.set rank r)
  | _ => none

end Mailboxes

/-- Rank `rank` of `size` ranks with mailboxes. It waits where nothing is received yet. -/
def Link.mailbox (size rank : Nat) : Link Mailboxes where
  rank := rank
  size := size
  send m receiver b :=
    if receiver < size then .ok (m.put receiver (rank, b))
    else .error (.peerOutOfRange receiver size)
  receive m := .ok (m.take rank)
  poll m := m.take rank

/-- Messages that are received one after the other, and a record of those sent. -/
structure Tape where
  inbox : List (Nat × Bytes)
  /-- Ranks that cannot be reached. -/
  down : List Nat := []
  sent : List (Nat × Bytes) := []
  deriving DecidableEq, Repr

namespace Tape

def take (t : Tape) : Option ((Nat × Bytes) × Tape) :=
  match t.inbox with
  | [] => none
  | message :: r => some (message, { t with inbox := r })

end Tape

/-- Rank `rank` of `size` ranks that are played from a tape. -/
def Link.scripted (size rank : Nat) : Link Tape where
  rank := rank
  size := size
  send t receiver b :=
    if size ≤ receiver then .error (.peerOutOfRange receiver size)
    else if t.down.contains receiver then .error (.backend s!"link to {receiver} is down")
    else .ok { t with sent := t.sent ++ [(receiver, b)] }
  receive t :=
    match t.take with
    | none => .error (.backend "script exhausted")
    | some r => .ok (some r)
  poll := Tape.take

end MeshDecomp
