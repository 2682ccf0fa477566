import MeshDecomp.Network.Ensemble
import MeshDecomp.Rank.Link

/-!
One rank of a distributed run. Rank zero hosts the host as well. Messages of a rank to itself do not
cross the link and come first. A rank that fails tells all others before it returns.
-/

namespace MeshDecomp

/-- What every rank of a run starts from. -/
structure Job where
  reader : Reader
  settings : Settings
  partitioner : Partitioner

structure Rank where
  worker : Worker
  host : Option Host
  /-- Messages to itself, oldest first. -/
  own : List (Nat × Envelope) := []
  report : Option Report := none
  collector : Collector := {}

abbrev Rank.Result (σ α : Type) := Outcome (Rank × σ) (Failure RunError) α

namespace Rank

/-- The rank that contributions are sent to. -/
def hostRank : Nat := 0

def create (job : Job) (rank size : Nat) : Except (Failure RunError) Rank := do
  let worker ← (Worker.create rank size job.reader job.settings).mapError .error
  let host ←
    if rank = hostRank then
      (Host.create size job.settings).map fun h => some (h.withPartitioner job.partitioner)
    else pure none
  return { worker := worker.prepareFor job.partitioner, host }

/-- The processing element is done, and so is the host if it is here. -/
def isFinished (r : Rank) : Bool := r.worker.isDone && (r.host.isNone || r.report.isSome)

def post (l : Link σ) (s : Rank × σ) (receiver : Nat) (e : Envelope) : Result σ Unit :=
  if receiver = l.rank then .ok ({ s.1 with own := s.1.own ++ [(l.rank, e)] }, s.2) ()
  else
    match l.send s.2 receiver (Wire.encode l.rank e) with
    | .error cause => .fail s (.error (.link cause))
    | .ok net => .ok (s.1, net) ()

def postAll (l : Link σ) (s : Rank × σ) : List (Nat × Envelope) → Result σ Unit
  | [] => .ok s ()
  | (receiver, e) :: r => (post l s receiver e).bind fun s _ => postAll l s r

/-- Carries out actions in order, up to the first that fails. -/
def perform (l : Link σ) (s : Rank × σ) : List Action → Result σ Unit
  | [] => .ok s ()
  | .send receiver m :: r => (post l s receiver (.peer m)).bind fun s _ => perform l s r
  | .contribute c :: r => (post l s hostRank (.contribution c)).bind fun s _ => perform l s r
  | a :: r => perform l ({ s.1 with collector := a.collect s.1.collector }, s.2) r

/-- Carries out directives in order, up to the first that fails. -/
def follow (l : Link σ) (s : Rank × σ) : List Directive → Result σ Unit
  | [] => .ok s ()
  | .broadcast c :: r =>
      (postAll l s ((List.range l.size).map (·, .command c))).bind fun s _ => follow l s r
  | .tell pe c :: r => (post l s pe (.command c)).bind fun s _ => follow l s r
  | .finished report :: r => follow l ({ s.1 with report := some report }, s.2) r

/-- A call on the processing element, and its actions. -/
def onWorker (l : Link σ) (s : Rank × σ)
    (call : Worker → Outcome Worker (Failure RunError) (List Action)) : Result σ Unit :=
  ((call s.1.worker).mapState fun w => ({ s.1 with worker := w }, s.2)).bind (perform l)

/-- Gives an event to the processing element. -/
def give (l : Link σ) (s : Rank × σ) (e : Event) : Result σ Unit :=
  onWorker l s fun w => (w.handle e).mapError .error

/-- Handles a message. -/
def handle (l : Link σ) (s : Rank × σ) (sender : Nat) : Envelope → Result σ Unit
  | .peer m => give l s (.peer sender m)
  | .command c => give l s (.command c)
  | .abort user reason => .fail s (.error (.aborted sender user reason))
  | .contribution c =>
      match s.1.host with
      | none => .fail s (.error (.internal l.rank .contributionToPe))
      | some h =>
          ((h.contribute sender c).mapState fun h => ({ s.1 with host := some h }, s.2)).bind
            (follow l)

/-- Tells all others of an error. Those that cannot be reached are left out. -/
def abort (l : Link σ) (net : σ) (e : RunError) : σ :=
  let message := Wire.encode l.rank (.abort e.isUser e.message)
  ((List.range l.size).filter (· ≠ l.rank)).foldl (fun net receiver =>
    match l.send net receiver message with
    | .ok net => net
    | .error _ => net) net

end Rank

/-- What a rank returned, and what it created before. -/
structure Returned where
  result : Except (Failure RunError) (Option Report)
  collector : Collector := {}

/-- How far a rank has come. -/
inductive Progress where
  | fresh
  | live (r : Rank)
  | returned (r : Returned)

namespace Progress

/-- An error that is not itself an abort is told to all others; a crash is not. -/
def giveUp (l : Link σ) (net : σ) (collector : Collector) (e : Failure RunError) : Progress × σ :=
  let net := match e with
    | .error (.aborted ..) => net
    | .error e => Rank.abort l net e
    | .crash _ => net
  (.returned ⟨.error e, collector⟩, net)

/-- A rank returns as soon as it is finished. -/
def settle (l : Link σ) (o : Rank.Result σ Unit) : Progress × σ :=
  match o.result with
  | .error e => giveUp l o.state.2 o.state.1.collector e
  | .ok () =>
      let r := o.state.1
      (if r.isFinished then .returned ⟨.ok r.report, r.collector⟩ else .live r, o.state.2)

/-- The next turn of a rank: it starts, or handles its next message. There is none if the rank has
returned or waits for a message. -/
def turn (job : Job) (l : Link σ) (net : σ) : Progress → Option (Progress × σ)
  | .returned _ => none
  | .fresh =>
      match Rank.create job l.rank l.size with
      | .error e => some (giveUp l net {} e)
      | .ok r => some (settle l (Rank.onWorker l (r, net) Worker.start))
  | .live r =>
      match r.own with
      | (sender, e) :: own => some (settle l (Rank.handle l ({ r with own }, net) sender e))
      | [] =>
          match l.receive net with
          | .error cause => some (giveUp l net r.collector (.error (.link cause)))
          | .ok none => none
          | .ok (some ((_, bytes), net)) =>
              match Wire.decode bytes with
              | .error cause => some (giveUp l net r.collector (.error (.wire cause)))
              | .ok (sender, e) => some (settle l (Rank.handle l (r, net) sender e))

/-- Up to `limit` turns of one rank. -/
def run (job : Job) (l : Link σ) (limit : Nat) (p : Progress) (net : σ) : Progress × σ :=
  match limit with
  | 0 => (p, net)
  | limit + 1 =>
      match p.turn job l net with
      | none => (p, net)
      | some (p, net) => run job l limit p net

/-- The number of messages that a rank can send to itself. -/
def ownLimit : Nat := 16

/-- A run of one rank over messages from a tape. -/
def runScripted (job : Job) (size rank : Nat) (tape : Tape) : Progress × Tape :=
  run job (.scripted size rank) (tape.inbox.length + ownLimit) .fresh tape

/-- A run of a single rank. -/
def runAlone (job : Job) : Progress := (run job .loopback ownLimit .fresh []).1

end Progress

end MeshDecomp
