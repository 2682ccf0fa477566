import MeshDecomp.Worker.Bounding
import MeshDecomp.Worker.Distribution
import MeshDecomp.Worker.Renumbering

/-!
The calls on a processing element: `start`, then `handle` for every event. A call also deals with
every completion that it brings about.
-/

namespace MeshDecomp.Worker

/-- Hands what was read to the host. -/
def ready (w : Worker) : Result (List Action) :=
  .ok { w with phase := .ready, centroids := none }
    [.contribute .setup,
      .contribute (.elements
        ⟨(Block.span w.total w.pes w.rank).first, w.portion.connectivity, w.centroids⟩)]

def findCentroids (w : Worker) : Result (List Action) :=
  let w := { w with phase := .centroids }
  match w.portion.centroids w.reader with
  | .error e => .fail w (.mesh e)
  | .ok c => .ok { w with centroids := some c, completions := w.completions ++ [.centroids] } []

/-- Deals with the completion of a phase. -/
def complete (w : Worker) : Phase → Result (List Action)
  | .reading => if w.geometric then w.findCentroids else w.ready
  | .centroids => w.ready
  | .reordering => w.enterBounding
  | .bounding => w.hand
  | p => w.refuse (.unexpectedCompletion p)

/-- How many completions a completion can lead to, itself included. -/
def weight : Phase → Nat
  | .reading => 2
  | .reordering => 2
  | _ => 1

def load : List Phase → Nat
  | [] => 0
  | p :: r => weight p + load r

@[simp] theorem load_append (ps qs : List Phase) : load (ps ++ qs) = load ps + load qs := by
  induction ps with
  | nil => simp [load]
  | cons p r ih => simp only [List.cons_append, load, ih, Nat.add_assoc]

theorem completions_tryBounds (w : Worker) :
    load w.tryBounds.1.completions ≤ load w.completions + 1 := by
  unfold tryBounds
  split
  · split
    · simp [load, weight]
    · simp
  · simp

theorem load_complete (w : Worker) (p : Phase) :
    load (w.complete p).state.completions < load w.completions + weight p := by
  cases p <;> simp only [complete, weight]
  case reading =>
    split
    · unfold findCentroids
      dsimp only
      split <;> simp [load, weight]
    · simp [ready]
  case centroids => simp [ready]
  case reordering =>
    unfold enterBounding
    dsimp only
    split
    · simp [refuse]
    · simp [refuse]
    · split
      · simp [refuse]
      · refine Nat.lt_succ_of_le (Nat.le_trans (completions_tryBounds _) ?_)
        split
        · simp
        · split <;> simp
  case bounding => simp [hand]
  all_goals simp [refuse]

/-- Deals with all completions, oldest first. A failure leaves the later ones for the next call. -/
def drain (w : Worker) : Result (List Action) :=
  match _h : w.completions with
  | [] => .ok w []
  | p :: rest =>
      let o := complete { w with completions := rest } p
      match o.result with
      | .error e => ⟨o.state, .error e⟩
      | .ok out => (drain o.state).map (out ++ ·)
termination_by load w.completions
decreasing_by
  have := load_complete { w with completions := rest } p
  simp only [_h, load] at *
  omega

theorem drain_of_nil {w : Worker} (h : w.completions = []) : w.drain = .ok w [] := by
  unfold drain
  split
  · rfl
  · simp_all

theorem drain_of_cons {w : Worker} {p : Phase} {rest : List Phase}
    (h : w.completions = p :: rest) :
    w.drain = (complete { w with completions := rest } p).append drain := by
  rw [drain]
  split
  · simp_all
  · next hc =>
    rw [h, List.cons.injEq] at hc
    obtain ⟨rfl, rfl⟩ := hc
    simp only [Outcome.append, Outcome.bind]
    cases (complete { w with completions := rest } p).result <;> rfl

/-- Induction along the completions that are dealt with. A failure ends them early. -/
theorem drain_induction {motive : Worker → Result (List Action) → Prop}
    (nil : ∀ w, w.completions = [] → motive w (.ok w []))
    (cons : ∀ w p rest, w.completions = p :: rest →
      motive (complete { w with completions := rest } p).state
        (complete { w with completions := rest } p).state.drain →
      motive w ((complete { w with completions := rest } p).append drain))
    (w : Worker) : motive w w.drain := by
  cases h : w.completions with
  | nil =>
    rw [drain_of_nil h]
    exact nil w h
  | cons p rest =>
    have hload : load (complete { w with completions := rest } p).state.completions <
        load w.completions := by
      have := load_complete { w with completions := rest } p
      rw [h]
      simp only [load] at *
      omega
    rw [drain_of_cons h]
    exact cons w p rest h (drain_induction nil cons _)
termination_by load w.completions

/-- Reads the portion of this rank. -/
def read (w : Worker) : Outcome Worker (Failure RunError) (List Action) :=
  match w.reader.count with
  | .error e => .fail w (.error (.mesh e))
  | .ok total =>
      let w := { w with total }
      match Portion.read w.reader w.pes w.rank with
      | .error e => .fail w (e.map .mesh)
      | .ok portion =>
          .ok { w with portion, completions := w.completions ++ [.reading] }
            [.contribute (.load portion.size)]

/-- The only call that reads the mesh, and the only one that can crash. -/
def start (w : Worker) : Outcome Worker (Failure RunError) (List Action) :=
  if w.started then (w.refuse .startedTwice).mapError .error
  else (read { w with started := true }).append fun w => w.drain.mapError .error

def receive (w : Worker) (source : Nat) : PeerMessage → Result (List Action)
  | .add units => w.add source units
  | .ack => w.ack
  | .request nodes => w.request source nodes
  | .reply pairs => w.reply source pairs
  | .lower bound => w.receiveLower source bound

def obey (w : Worker) : Command → Result (List Action)
  | .partition units assignment => w.partition units assignment
  | .flatten => w.flatten
  | .reorder start asked => w.reorder start asked
  | .deviation mean => w.deviation mean

def dispatch (w : Worker) : Event → Result (List Action)
  | .command c => w.obey c
  | .peer source m =>
      if w.pes ≤ source ∨ source = w.rank then w.refuse (.invalidPeer source)
      else w.receive source m
  | .completed p => w.complete p

def handle (w : Worker) (e : Event) : Result (List Action) := (w.dispatch e).append drain

/-- A call that leaves no completion behind is what its event makes of it. -/
theorem handle_of_dispatch {w w' : Worker} {e : Event} {as : List Action}
    (h : w.dispatch e = .ok w' as) (hc : w'.completions = []) : w.handle e = .ok w' as := by
  simp [handle, h, drain_of_nil hc]

end MeshDecomp.Worker
