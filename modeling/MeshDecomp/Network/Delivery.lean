import MeshDecomp.Network.Ensemble

/-!
Runs in which any message on its way may be delivered next, and every message arrives once, or is
lost. A run ends with the report of the host or with the first call that fails.
-/

namespace MeshDecomp

structure Network where
  ensemble : Ensemble
  /-- The messages on their way. -/
  pool : List Parcel := []
  delivered : Nat := 0
  collector : Collector := {}
  ending : Option (Except (Failure RunError) Report) := none

namespace Network

/-- Carries a call on the ensemble over: its messages go into the pool. -/
def absorb (n : Network) (o : Ensemble.Result Response) : Network :=
  match o.result with
  | .error e => { n with ensemble := o.state, ending := some (.error e) }
  | .ok r =>
      { n with
        ensemble := o.state
        pool := n.pool ++ r.parcels o.state.pes
        collector := r.collect n.collector
        ending := r.report?.map .ok }

/-- Starts one processing element, unless an earlier one failed. -/
def start (n : Network) (rank : Nat) : Network :=
  if n.ending.isSome then n else n.absorb (n.ensemble.start rank)

/-- Starts everyone in rank order. -/
def startAll (s : Ensemble) : Network := (List.range s.pes).foldl start { ensemble := s }

def launch (reader : Reader) (pes : Nat) (settings : Settings) (partitioner : Partitioner) :
    Except (Failure RunError) Network :=
  (Ensemble.create reader pes settings).map fun s => startAll (s.withPartitioner partitioner)

/-- Delivers the message at a place of the pool, unless the run ended. -/
def deliver (n : Network) (i : Nat) : Option Network :=
  match n.ending, n.pool[i]? with
  | none, some p =>
      some (absorb { n with pool := n.pool.eraseIdx i, delivered := n.delivered + 1 }
        (n.ensemble.deliver p))
  | _, _ => none

/-- Some order of deliveries leads from one network to another. -/
inductive Reaches (n : Network) : Network → Prop where
  | refl : Reaches n n
  | deliver {m k : Network} (i : Nat) : Reaches n m → m.deliver i = some k → Reaches n k

/-- The messages of a list are delivered one after the other. -/
inductive Run (n : Network) : List Parcel → Network → Prop where
  | nil : Run n [] n
  | deliver {log : List Parcel} {m k : Network} {p : Parcel} (i : Nat) :
      Run n log m → m.pool[i]? = some p → m.deliver i = some k → Run n (log ++ [p]) k

/-- Loses the message at a place of the pool, unless the run ended. -/
def lose (n : Network) (i : Nat) : Option Network :=
  match n.ending, n.pool[i]? with
  | none, some _ => some { n with pool := n.pool.eraseIdx i }
  | _, _ => none

/-- Some messages are delivered, and those of a list are lost. -/
inductive LossyRun (n : Network) : List Parcel → Network → Prop where
  | nil : LossyRun n [] n
  | deliver {lost : List Parcel} {m k : Network} (i : Nat) :
      LossyRun n lost m → m.deliver i = some k → LossyRun n lost k
  | lose {lost : List Parcel} {m k : Network} {p : Parcel} (i : Nat) :
      LossyRun n lost m → m.pool[i]? = some p → m.lose i = some k → LossyRun n (lost ++ [p]) k

/-- Deliveries can go on for ever. -/
def Endless (n : Network) : Prop :=
  ∃ run : Nat → Network, run 0 = n ∧ ∀ k, ∃ i, (run k).deliver i = some (run (k + 1))

/-- Deliveries and losses can go on for ever. -/
def LossyEndless (n : Network) : Prop :=
  ∃ run : Nat → Network, run 0 = n ∧
    ∀ k, ∃ i, (run k).deliver i = some (run (k + 1)) ∨ (run k).lose i = some (run (k + 1))

/-- Nothing can be delivered any more. -/
def AtRest (n : Network) : Prop := ∀ i, n.deliver i = none

end Network

end MeshDecomp
