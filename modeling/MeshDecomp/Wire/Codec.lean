import MeshDecomp.Message
import MeshDecomp.Wire.Error
import MeshDecomp.Wire.Scanner

/-!
Messages as bytes. A header of eight bytes tells the version, the kind and the sender; a payload of
whole words follows.
-/

namespace MeshDecomp.Wire

def version : Nat := 2

/-- Version, kind and sender are cut to two, two and four bytes. -/
structure Header where
  version : Nat
  kind : Nat
  sender : Nat
  deriving DecidableEq, Repr

namespace Header

def of (kind sender : Nat) : Header := ⟨Wire.version, kind % UInt16.size, sender % UInt32.size⟩

def bytes (h : Header) : List UInt8 :=
  littleEndian 2 h.version ++ littleEndian 2 h.kind ++ littleEndian 4 h.sender

def ofBytes (bs : List UInt8) : Header :=
  ⟨ofLittleEndian (bs.take 2), ofLittleEndian ((bs.drop 2).take 2),
    ofLittleEndian ((bs.drop 4).take 4)⟩

end Header

inductive Kind where
  | add
  | ack
  | request
  | reply
  | lower
  | partition
  | flatten
  | reorder
  | meanCost
  | load
  | setup
  | distributed
  | flattened
  | nodes
  | cost
  | deviation
  | elements
  | abort
  deriving DecidableEq, Repr

namespace Kind

def all : List Kind :=
  [add, ack, request, reply, lower, partition, flatten, reorder, meanCost, load, setup, distributed,
    flattened, nodes, cost, deviation, elements, abort]

def code : Kind → Nat
  | add => 1
  | ack => 2
  | request => 3
  | reply => 4
  | lower => 5
  | partition => 16
  | flatten => 17
  | reorder => 18
  | meanCost => 19
  | load => 32
  | setup => 33
  | distributed => 34
  | flattened => 35
  | nodes => 36
  | cost => 37
  | deviation => 38
  | elements => 39
  | abort => 48

def ofCode? (c : Nat) : Option Kind := all.find? fun k => k.code = c

@[simp] theorem ofCode?_code (k : Kind) : ofCode? k.code = some k := by cases k <;> decide

theorem code_of_ofCode? {c : Nat} {k : Kind} (h : ofCode? c = some k) : k.code = c := by
  simpa using List.find?_some h

end Kind

def kindOf : Envelope → Kind
  | .peer (.add _) => .add
  | .peer .ack => .ack
  | .peer (.request _) => .request
  | .peer (.reply _) => .reply
  | .peer (.lower _) => .lower
  | .command (.partition _ _) => .partition
  | .command .flatten => .flatten
  | .command (.reorder _ _) => .reorder
  | .command (.deviation _) => .meanCost
  | .contribution (.load _) => .load
  | .contribution .setup => .setup
  | .contribution (.elements _) => .elements
  | .contribution .distributed => .distributed
  | .contribution .flattened => .flattened
  | .contribution (.nodes _) => .nodes
  | .contribution (.cost _) => .cost
  | .contribution (.deviation _) => .deviation
  | .abort _ _ => .abort

def payload : Envelope → List Nat
  | .peer (.add units) => wordsOfMap units
  | .peer .ack => []
  | .peer (.request nodes) => wordsOfList nodes
  | .peer (.reply pairs) => wordsOfPairs pairs
  | .peer (.lower bound) => [bound]
  | .command (.partition units assignment) => units :: wordsOfList assignment
  | .command .flatten => []
  | .command (.reorder start asked) => start :: wordsOfMap asked
  | .command (.deviation mean) => [wordOfReal mean]
  | .contribution (.load n) => [n]
  | .contribution .setup => []
  | .contribution (.elements s) =>
      s.first :: (wordsOfList s.connectivity ++ wordsOfCentroids s.centroids)
  | .contribution .distributed => []
  | .contribution .flattened => []
  | .contribution (.nodes ids) => wordsOfList ids
  | .contribution (.cost x) => [wordOfReal x]
  | .contribution (.deviation x) => [wordOfReal x]
  | .abort user reason => wordOfFlag user :: wordsOfText reason

open Scanner in
/-- The scanner of a payload. -/
def scanner : Kind → Scanner Envelope
  | .add => idMap.map fun m => .peer (.add m)
  | .ack => ret (.peer .ack)
  | .request => list.map fun l => .peer (.request l)
  | .reply => (counted (pair word word)).map fun l => .peer (.reply l)
  | .lower => word.map fun w => .peer (.lower w)
  | .partition => word.andThen fun n => list.map fun l => .command (.partition n l)
  | .flatten => ret (.command .flatten)
  | .reorder => word.andThen fun n => idMap.map fun m => .command (.reorder n m)
  | .meanCost => real.map fun x => .command (.deviation x)
  | .load => word.map fun n => .contribution (.load n)
  | .setup => ret (.contribution .setup)
  | .distributed => ret (.contribution .distributed)
  | .flattened => ret (.contribution .flattened)
  | .nodes => list.map fun l => .contribution (.nodes l)
  | .cost => real.map fun x => .contribution (.cost x)
  | .deviation => real.map fun x => .contribution (.deviation x)
  | .elements => word.andThen fun n => list.andThen fun l => (optional centroids).map fun c =>
      .contribution (.elements ⟨n, l, c⟩)
  | .abort => flag.andThen fun user => text.map fun reason => .abort user reason

/-- The bytes of a message from `sender`. -/
def encode (sender : Nat) (e : Envelope) : List UInt8 :=
  (Header.of (kindOf e).code sender).bytes ++ bytesOfWords (payload e)

/-- The sender and the content of a message. -/
def decode (bs : List UInt8) : Except WireError (Nat × Envelope) :=
  if bs.length < 8 ∨ bs.length % 8 ≠ 0 then .error (.truncated bs.length)
  else
    let h := Header.ofBytes (bs.take 8)
    if h.version ≠ version then .error (.versionMismatch h.version version)
    else
      match Kind.ofCode? h.kind with
      | none => .error (.unknownKind h.kind)
      | some k =>
          match scanner k (wordsOfBytes (bs.drop 8)) with
          | .error .short => .error (.truncated bs.length)
          | .error (.flag f) => .error (.invalidFlag f)
          | .ok (e, []) => .ok (h.sender, e)
          | .ok (_, rest) => .error (.trailing (8 * rest.length))

end MeshDecomp.Wire
