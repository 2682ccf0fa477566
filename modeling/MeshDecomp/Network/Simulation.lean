import MeshDecomp.Network.Ensemble

/-!
A whole run in which every message is written out. The oldest one is delivered next, or one that is
drawn from the pool.
-/

namespace MeshDecomp

structure Simulation where
  ensemble : Ensemble
  pool : List Packet := []
  delivered : Nat := 0
  collector : Collector := {}

abbrev Simulation.Result (α : Type) := Outcome Simulation (Failure RunError) α

namespace Simulation

def create (reader : Reader) (pes : Nat) (settings : Settings) :
    Except (Failure RunError) Simulation := do
  return { ensemble := ← Ensemble.create reader pes settings }

def withPartitioner (s : Simulation) (p : Partitioner) : Simulation :=
  { s with ensemble := s.ensemble.withPartitioner p }

/-- Carries a call on the ensemble over: its messages go into the pool. -/
def absorb (s : Simulation) (o : Ensemble.Result Response) : Result (Option Report) :=
  match o.result with
  | .error e => .fail { s with ensemble := o.state } e
  | .ok r =>
      .ok { s with
        ensemble := o.state
        pool := s.pool ++ (r.parcels o.state.pes).map Parcel.pack
        collector := r.collect s.collector } r.report?

/-- Starts the processing elements in rank order. -/
def startAll (s : Simulation) : List Nat → Result Unit
  | [] => .ok s ()
  | rank :: r => (s.absorb (s.ensemble.start rank)).bind fun s _ => startAll s r

/-- Delivers up to `limit` messages, until the report comes. -/
def deliverAll (s : Simulation) (limit : Nat) : Result Report :=
  match limit, s.pool with
  | limit + 1, p :: rest =>
      let s := { s with pool := rest, delivered := s.delivered + 1 }
      match Parcel.unpack p with
      | .error e => .fail s (.error (.wire e))
      | .ok parcel =>
          (s.absorb (s.ensemble.deliver parcel)).bind fun s report =>
            match report with
            | some r => .ok s r
            | none => deliverAll s limit
  | _, _ => .fail s (.error (.stalled s.ensemble.unfinished))

/-- Every pair of processing elements exchanges four messages at most, and everyone exchanges
thirteen with the host and its neighbour. -/
def limit (pes : Nat) : Nat := 13 * pes + 4 * pes * pes

def run (s : Simulation) : Result Report :=
  (s.startAll (List.range s.ensemble.pes)).bind fun s _ => s.deliverAll (limit s.ensemble.pes)

/-- Delivers up to `limit` messages, until the report comes. A number for each delivery draws the
next message. -/
def deliverDrawn (draw : Nat → Nat) (s : Simulation) : (limit : Nat) → Result Report
  | 0 => .fail s (.error (.stalled s.ensemble.unfinished))
  | limit + 1 =>
      let i := draw s.delivered % s.pool.length
      match s.pool[i]? with
      | none => .fail s (.error (.stalled s.ensemble.unfinished))
      | some p =>
          let s := { s with pool := s.pool.eraseIdx i, delivered := s.delivered + 1 }
          match Parcel.unpack p with
          | .error e => .fail s (.error (.wire e))
          | .ok parcel =>
              (s.absorb (s.ensemble.deliver parcel)).bind fun s report =>
                match report with
                | some r => .ok s r
                | none => deliverDrawn draw s limit

def runDrawn (draw : Nat → Nat) (s : Simulation) : Result Report :=
  (s.startAll (List.range s.ensemble.pes)).bind fun s _ =>
    s.deliverDrawn draw (limit s.ensemble.pes)

end Simulation

end MeshDecomp
