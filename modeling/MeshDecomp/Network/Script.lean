import MeshDecomp.Network.Ensemble

/-!
Runs under a script: which message is delivered next, which are lost and which arrive twice. A trace
tells every call and what came of it.
-/

namespace MeshDecomp

structure Script where
  /-- Which message of the pool is next, by turns; the oldest one if nothing is said. -/
  picks : List Nat := []
  /-- The steps whose message is lost. -/
  drops : List Nat := []
  /-- The steps whose message stays in the pool as well. -/
  repeats : List Nat := []
  /-- Goes on after an error of a delivery. -/
  persistent : Bool := false
  /-- The number of steps at most. -/
  limit : Nat := 1000
  deriving DecidableEq, Repr

/-- The position in a pool of some size that step `n` takes. -/
def Script.pick (s : Script) (n size : Nat) : Nat :=
  match s.picks[n % s.picks.length]? with
  | some k => k % size
  | none => 0

/-- One call, with the processing element that it left behind. -/
inductive TraceEntry where
  | started (rank : Nat) (result : Except (Failure RunError) Response) (left : Option Worker)
  | lost (target : Target)
  | delivered (parcel : Parcel) (result : Except (Failure RunError) Response)
    (left : Option Worker)
  | unreadable (target : Target) (cause : WireError)

structure ScriptedRun where
  ensemble : Ensemble
  pool : List Packet := []
  /-- The calls so far, last first. -/
  trace : List TraceEntry := []
  finished : Bool := false
  /-- An error or a crash ended the run. -/
  stopped : Bool := false

namespace ScriptedRun

/-- Nothing outlives a crash. -/
def stops (persistent : Bool) : Except (Failure RunError) Response → Bool
  | .ok _ => false
  | .error (.error _) => !persistent
  | .error (.crash _) => true

/-- Carries a call on the ensemble over. -/
def absorb (persistent : Bool) (r : ScriptedRun) (o : Ensemble.Result Response)
    (entry : Except (Failure RunError) Response → TraceEntry) : ScriptedRun :=
  let r := { r with
    ensemble := o.state, trace := entry o.result :: r.trace, stopped := stops persistent o.result }
  match o.result with
  | .error _ => r
  | .ok response =>
      { r with
        pool := r.pool ++ (response.parcels o.state.pes).map Parcel.pack
        finished := response.report?.isSome }

/-- Starts one processing element. An error there stops neither the others nor the messages. -/
def start (r : ScriptedRun) (rank : Nat) : ScriptedRun :=
  if r.stopped then r
  else
    let o := r.ensemble.start rank
    r.absorb true o fun result => .started rank result o.state.workers[rank]?

/-- Delivers a message. -/
def deliver (script : Script) (r : ScriptedRun) (p : Packet) : ScriptedRun :=
  match Parcel.unpack p with
  | .error e => { r with trace := .unreadable p.target e :: r.trace, stopped := !script.persistent }
  | .ok parcel =>
      let o := r.ensemble.deliver parcel
      let left := match p.target with
        | .pe rank => o.state.workers[rank]?
        | .host => none
      r.absorb script.persistent o fun result => .delivered parcel result left

/-- Step `n` of the script, while there is something to do. -/
def step (script : Script) (r : ScriptedRun) (n : Nat) : ScriptedRun :=
  if r.finished || r.stopped then r
  else
    let k := script.pick n r.pool.length
    match r.pool[k]? with
    | none => r
    | some p =>
        let r := { r with pool := r.pool.eraseIdx k }
        if script.drops.contains n then { r with trace := .lost p.target :: r.trace }
        else if script.repeats.contains n then
          deliver script { r with pool := r.pool ++ [p] } p
        else deliver script r p

/-- Starts everyone in rank order and follows the script. -/
def run (script : Script) (s : Ensemble) : ScriptedRun :=
  (List.range script.limit).foldl (step script)
    ((List.range s.pes).foldl start { ensemble := s })

end ScriptedRun

end MeshDecomp
