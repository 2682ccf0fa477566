import MeshDecomp.Host.Basic
import MeshDecomp.Wire.Codec
import MeshDecomp.Worker.Step

/-!
All processing elements and the host, without a network: messages are handed to them one by one, and
what they want sent comes back.
-/

namespace MeshDecomp

inductive Target where
  | pe (rank : Nat)
  | host
  deriving DecidableEq, Repr

/-- A message on its way. -/
structure Parcel where
  target : Target
  sender : Nat
  content : Envelope
  deriving DecidableEq, Repr

/-- A parcel in its written form. -/
structure Packet where
  target : Target
  bytes : List UInt8
  deriving DecidableEq, Repr

namespace Parcel

def pack (p : Parcel) : Packet := ⟨p.target, Wire.encode p.sender p.content⟩

def unpack (p : Packet) : Except WireError Parcel :=
  (Wire.decode p.bytes).map fun m => ⟨p.target, m.1, m.2⟩

end Parcel

/-- What a delivery makes its receiver ask for. -/
inductive Response where
  | actions (rank : Nat) (as : List Action)
  | directives (ds : List Directive)
  deriving DecidableEq, Repr

namespace Action

/-- The message an action of `rank` sends, if it sends one. -/
def parcel? (rank : Nat) : Action → Option Parcel
  | send receiver m => some ⟨.pe receiver, rank, .peer m⟩
  | contribute c => some ⟨.host, rank, .contribution c⟩
  | _ => none

/-- Hands over what an action creates. -/
def collect (c : Collector) : Action → Collector
  | instantiate u => c.addUnit u
  | bounds pe s => c.addBounds pe s
  | _ => c

end Action

/-- The messages that a directive sends; the host sends as rank zero. -/
def Directive.parcels (pes : Nat) : Directive → List Parcel
  | broadcast c => (List.range pes).map fun pe => ⟨.pe pe, 0, .command c⟩
  | tell pe c => [⟨.pe pe, 0, .command c⟩]
  | finished _ => []

def Directive.report? : Directive → Option Report
  | finished r => some r
  | _ => none

namespace Response

def parcels (pes : Nat) : Response → List Parcel
  | actions rank as => as.filterMap (Action.parcel? rank)
  | directives ds => ds.flatMap (Directive.parcels pes)

def collect (c : Collector) : Response → Collector
  | actions _ as => as.foldl Action.collect c
  | directives _ => c

def report? : Response → Option Report
  | actions _ _ => none
  | directives ds => ds.findSome? Directive.report?

end Response

structure Ensemble where
  workers : List Worker
  host : Host

abbrev Ensemble.Result (α : Type) := Outcome Ensemble (Failure RunError) α

namespace Ensemble

/-- The host and `pes` processing elements that read through one reader. -/
def create (reader : Reader) (pes : Nat) (settings : Settings) :
    Except (Failure RunError) Ensemble := do
  let host ← Host.create pes settings
  let workers ← ((List.range pes).mapM fun rank =>
    Worker.create rank pes reader settings).mapError .error
  return { workers, host }

/-- Runs with another partitioner than that of the settings. -/
def withPartitioner (s : Ensemble) (p : Partitioner) : Ensemble where
  workers := s.workers.map fun w => w.prepareFor p
  host := s.host.withPartitioner p

def pes (s : Ensemble) : Nat := s.workers.length

/-- A call on one processing element. -/
def onWorker (s : Ensemble) (rank : Nat)
    (call : Worker → Outcome Worker (Failure RunError) (List Action)) : Result Response :=
  match s.workers[rank]? with
  | none => .fail s (.crash .indexOutOfBounds)
  | some w =>
      ((call w).mapState fun w => { s with workers := s.workers.set rank w }).map (.actions rank)

def start (s : Ensemble) (rank : Nat) : Result Response := s.onWorker rank Worker.start

/-- Gives an event to one processing element. -/
def give (s : Ensemble) (rank : Nat) (e : Event) : Result Response :=
  s.onWorker rank fun w => (w.handle e).mapError .error

def deliver (s : Ensemble) (p : Parcel) : Result Response :=
  match p.target, p.content with
  | .host, .contribution c =>
      ((s.host.contribute p.sender c).mapState fun h => { s with host := h }).map .directives
  | .pe rank, .command c => s.give rank (.command c)
  | .pe rank, .peer m => s.give rank (.peer p.sender m)
  | _, _ => .fail s (.error (.internal p.sender .misrouted))

def unfinished (s : Ensemble) : Nat := s.workers.countP fun w => !w.isDone

end Ensemble

end MeshDecomp
