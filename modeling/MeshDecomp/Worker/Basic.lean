import MeshDecomp.Mesh.Portion
import MeshDecomp.RunError

/-!
A processing element. It owns what it read, the work units it collects, its numbering and its
bounds; it learns of the others only through the events it is given.
-/

namespace MeshDecomp

/-- What a processing element is given. -/
inductive Event where
  | command (c : Command)
  | peer (sender : Nat) (m : PeerMessage)
  /-- The work of a phase is done here. -/
  | completed (p : Phase)
  deriving DecidableEq, Repr

structure Worker where
  rank : Nat
  pes : Nat
  reader : Reader
  /-- The host wants centroids. -/
  geometric : Bool
  phase : Phase := .reading
  started : Bool := false
  /-- Phases whose work is done, but not yet dealt with. -/
  completions : List Phase := []
  /-- The number of elements in the whole mesh. -/
  total : Nat := 0
  portion : Portion := .empty
  centroids : Option Centroids := none
  /-- The number of work units, once the host told it. -/
  units : Option Nat := none
  /-- The nodes of the elements of each work unit, by the rank that read them. -/
  table : IdMap (IdMap (List Nat)) := ∅
  /-- Work units that came before the number of work units was known. -/
  parked : List (Nat × IdMap (List Nat)) := []
  pendingAcks : Nat := 0
  partitioned : Bool := false
  distributed : Bool := false
  numbering : Option Numbering := none
  built : List WorkUnit := []
  /-- The highest new id in use here. -/
  highest : Nat := 0
  earlyLower : Option Nat := none
  lower : Option Nat := none
  upper : Option Nat := none
  cost : Option Binary64 := none

abbrev Worker.Result (α : Type) := Outcome Worker RunError α

namespace Worker

/-- The processing element `rank` of `pes`. -/
def create (rank pes : Nat) (reader : Reader) (settings : Settings) : Except RunError Worker := do
  settings.validate.mapError .settings
  if rank < pes then return { rank, pes, reader, geometric := settings.algorithm.geometric }
  else throw (.settings (.rank rank pes))

/-- Prepares the input of a partitioner other than that of the settings. -/
def prepareFor (w : Worker) (p : Partitioner) : Worker := { w with geometric := p.geometric }

def isDone (w : Worker) : Bool := w.phase = .done

def bounds (w : Worker) : Option Span :=
  match w.lower, w.upper with
  | some l, some u => some ⟨l, u⟩
  | _, _ => none

/-- The new ids that are known here. -/
def newIds (w : Worker) : Option (IdMap Nat) := w.numbering.map Numbering.newIds

def violation (w : Worker) (v : Violation) : RunError := .internal w.rank v

def refuse (w : Worker) (v : Violation) : Result α := .fail w (w.violation v)

/-- Goes on in the expected phase only. -/
def inPhase (w : Worker) (expected : Phase) (what : String) (go : Result α) : Result α :=
  if w.phase = expected then go else w.refuse (.outOfPhase what w.phase expected)

@[simp] theorem state_refuse (w : Worker) (v : Violation) :
    (w.refuse v : Result α).state = w := rfl

end Worker

end MeshDecomp
