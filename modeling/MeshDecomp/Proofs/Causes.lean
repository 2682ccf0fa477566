import MeshDecomp.Proofs.Reading

/-!
The messages of a run without their contents, and what must have arrived before each of them is
sent. The state of every processing element follows from what arrived there.
-/
namespace MeshDecomp

/-- What the host waits for, named for the command that it gives then. -/
inductive Barrier where
  | partition
  | flatten
  | reorder
  | deviation
  deriving DecidableEq, Repr

def Barrier.kinds : Barrier → List Contribution.Kind
  | partition => [.load, .setup, .elements]
  | flatten => [.distributed]
  | reorder => [.flattened, .nodes]
  | deviation => [.cost]

/-- What any two ranks tell each other. -/
inductive Exchange where
  | add
  | ack
  | request
  | reply
  deriving DecidableEq, Repr

/-- A message of a run without its content: what it is, from whom and for whom. A rank tells its
upper bound only to the next rank. -/
inductive Letter where
  | contribution (k : Contribution.Kind) (pe : Nat)
  | command (b : Barrier) (pe : Nat)
  | peer (x : Exchange) (source target : Nat)
  | lower (source : Nat)
  deriving DecidableEq, Repr

namespace Letter

/-- The processing element that a letter is for, unless it is for the host. -/
def receiver? : Letter → Option Nat
  | contribution _ _ => none
  | command _ pe => some pe
  | peer _ _ target => some target
  | lower source => some (source + 1)

end Letter

namespace Scenario

variable (S : Scenario)

/-! ### Contents -/

def contribution (pe : Nat) : Contribution.Kind → Contribution
  | .load => .load (S.span pe).size
  | .setup => .setup
  | .elements => .elements (S.elementSlice pe)
  | .distributed => .distributed
  | .flattened => .flattened
  | .nodes => .nodes (S.nodes pe)
  | .cost => .cost (S.cost pe)
  | .deviation => .deviation (S.deviation pe)

def command (pe : Nat) : Barrier → Command
  | .partition => .partition S.units (S.share pe)
  | .flatten => .flatten
  | .reorder => .reorder (S.start pe) (S.asked pe)
  | .deviation => .deviation S.meanCost

def message (source target : Nat) : Exchange → PeerMessage
  | .add => .add (S.cargo source target)
  | .ack => .ack
  | .request => .request (S.held source target)
  | .reply => .reply (S.replyTo target source)

def parcel : Letter → Parcel
  | .contribution k pe => ⟨.host, pe, .contribution (S.contribution pe k)⟩
  | .command b pe => ⟨.pe pe, 0, .command (S.command pe b)⟩
  | .peer x s t => ⟨.pe t, s, .peer (S.message s t x)⟩
  | .lower s => ⟨.pe (s + 1), s, .peer (.lower (S.upper s))⟩

/-! ### Causes -/

/-- The letters that belong to a run that finishes. -/
def Occurs : Letter → Prop
  | .contribution _ pe => pe < S.pes
  | .command _ pe => pe < S.pes
  | .peer .add s t => s < S.pes ∧ t ∈ (S.exports s).keys
  | .peer .ack s t => t < S.pes ∧ s ∈ (S.exports t).keys
  | .peer .request s t => s < S.pes ∧ t ∈ (S.asked s).keys
  | .peer .reply s t => t < S.pes ∧ s ∈ (S.asked t).keys
  | .lower s => s + 1 < S.pes

instance : DecidablePred S.Occurs
  | .contribution _ pe => inferInstanceAs (Decidable (pe < S.pes))
  | .command _ pe => inferInstanceAs (Decidable (pe < S.pes))
  | .peer .add s t => inferInstanceAs (Decidable (s < S.pes ∧ t ∈ (S.exports s).keys))
  | .peer .ack s t => inferInstanceAs (Decidable (t < S.pes ∧ s ∈ (S.exports t).keys))
  | .peer .request s t => inferInstanceAs (Decidable (s < S.pes ∧ t ∈ (S.asked s).keys))
  | .peer .reply s t => inferInstanceAs (Decidable (t < S.pes ∧ s ∈ (S.asked t).keys))
  | .lower s => inferInstanceAs (Decidable (s + 1 < S.pes))

/-- Everything that the host waits for. -/
def gathering (b : Barrier) : List Letter :=
  b.kinds.flatMap fun k => (List.range S.pes).map (.contribution k)

/-- Everything that a rank waits for before it settles its bounds. -/
def settling (pe : Nat) : List Letter :=
  .command .reorder pe :: (S.asked pe).keys.map (.peer .reply · pe) ++
    match pe with
    | 0 => []
    | p + 1 => [.lower p]

/-- What must have arrived before a letter is sent. -/
def causes : Letter → List Letter
  | .contribution .load _ => []
  | .contribution .setup _ => []
  | .contribution .elements _ => []
  | .contribution .distributed pe =>
      .command .partition pe :: (S.exports pe).keys.map (.peer .ack · pe)
  | .contribution .flattened pe => [.command .flatten pe]
  | .contribution .nodes pe => [.command .flatten pe]
  | .contribution .cost pe => S.settling pe
  | .contribution .deviation pe => [.command .deviation pe]
  | .command b _ => S.gathering b
  | .peer .add s _ => [.command .partition s]
  | .peer .ack s t => [.peer .add t s, .command .partition s]
  | .peer .request s _ => [.command .reorder s]
  | .peer .reply s t => [.peer .request t s, .command .reorder s]
  | .lower s => S.settling s

/-- The longest chain of causes grows with the place in the pipeline, and at its end with the
rank. -/
def depth : Letter → Nat
  | .contribution .load _ => 0
  | .contribution .setup _ => 0
  | .contribution .elements _ => 0
  | .contribution .distributed _ => 4
  | .contribution .flattened _ => 6
  | .contribution .nodes _ => 6
  | .contribution .cost pe => 10 + pe
  | .contribution .deviation _ => 11 + S.pes
  | .command .partition _ => 1
  | .command .flatten _ => 5
  | .command .reorder _ => 7
  | .command .deviation _ => 10 + S.pes
  | .peer .add _ _ => 2
  | .peer .ack _ _ => 3
  | .peer .request _ _ => 8
  | .peer .reply _ _ => 9
  | .lower s => 10 + s

variable {S} {pe s t : Nat} {b : Barrier} {k : Contribution.Kind} {m c : Letter} {H : List Letter}

theorem mem_gathering :
    c ∈ S.gathering b ↔ ∃ k ∈ b.kinds, ∃ pe < S.pes, c = .contribution k pe := by
  simp [gathering, eq_comm]

theorem mem_settling : c ∈ S.settling pe ↔
    c = .command .reorder pe ∨ (∃ q ∈ (S.asked pe).keys, c = .peer .reply q pe) ∨
      ∃ p, pe = p + 1 ∧ c = .lower p := by
  unfold settling
  cases pe <;> simp [eq_comm]

theorem depth_lt (h : c ∈ S.causes m) : S.depth c < S.depth m := by
  have hsettling : ∀ pe, c ∈ S.settling pe → S.depth c < 10 + pe := by
    intro pe h
    rcases mem_settling.1 h with rfl | ⟨q, -, rfl⟩ | ⟨p, rfl, rfl⟩ <;> simp only [depth] <;> omega
  cases m with
  | contribution k pe =>
    cases k <;> simp only [causes, List.mem_cons, List.mem_map, List.not_mem_nil, or_false] at h
    case distributed => rcases h with rfl | ⟨q, -, rfl⟩ <;> simp only [depth] <;> omega
    case cost => exact hsettling pe h
    all_goals subst h
    all_goals simp only [depth]; omega
  | command b pe =>
    obtain ⟨k, hk, p, hp, rfl⟩ := mem_gathering.1 h
    cases b <;> simp only [Barrier.kinds, List.mem_cons, List.not_mem_nil, or_false] at hk
    · rcases hk with rfl | rfl | rfl <;> exact Nat.zero_lt_one
    · subst hk
      exact Nat.lt_succ_self 4
    · rcases hk with rfl | rfl <;> exact Nat.lt_succ_self 6
    · subst hk
      exact Nat.add_lt_add_left hp 10
  | lower s => exact hsettling s h
  | peer x s t =>
    cases x <;> simp only [causes, List.mem_cons, List.not_mem_nil, or_false] at h
    case add | request =>
      subst h
      simp only [depth]; omega
    case ack | reply => rcases h with rfl | rfl <;> simp only [depth] <;> omega

/-- The causes of a letter of a run belong to the run. -/
theorem occurs_of_mem_causes (h : S.Occurs m) (hc : c ∈ S.causes m) : S.Occurs c := by
  have hsettling : ∀ pe < S.pes, c ∈ S.settling pe → S.Occurs c := by
    intro pe hpe hc
    rcases mem_settling.1 hc with rfl | ⟨q, hq, rfl⟩ | ⟨p, rfl, rfl⟩
    · exact hpe
    · exact ⟨hpe, hq⟩
    · exact hpe
  cases m with
  | contribution k pe =>
    cases k <;> simp only [causes, List.mem_cons, List.mem_map, List.not_mem_nil, or_false] at hc
    case distributed =>
      rcases hc with rfl | ⟨q, hq, rfl⟩
      · exact h
      · exact ⟨h, hq⟩
    case cost => exact hsettling pe h hc
    all_goals subst hc; exact h
  | command b pe =>
    obtain ⟨k, -, p, hp, rfl⟩ := mem_gathering.1 hc
    exact hp
  | lower s => exact hsettling s (Nat.lt_of_succ_lt h) hc
  | peer x s t =>
    cases x <;> simp only [causes, List.mem_cons, List.not_mem_nil, or_false] at hc
    case add | request =>
      subst hc
      exact h.1
    case ack =>
      rcases hc with rfl | rfl
      · exact h
      · exact lt_of_mem_keys_exports (Nat.zero_lt_of_lt h.1) h.2
    case reply =>
      rcases hc with rfl | rfl
      · exact h
      · exact (lt_of_mem_keys_asked h.1 h.2).trans h.1

variable (S)

/-- The letters that are sent once those of a list have arrived. -/
def Sent (H : List Letter) (m : Letter) : Prop := S.Occurs m ∧ ∀ c ∈ S.causes m, c ∈ H

instance (H : List Letter) (m : Letter) : Decidable (S.Sent H m) :=
  inferInstanceAs (Decidable (S.Occurs m ∧ ∀ c ∈ S.causes m, c ∈ H))

/-- The host has everything that it waits for. -/
def Gathered (b : Barrier) (H : List Letter) : Prop := ∀ c ∈ S.gathering b, c ∈ H

instance (b : Barrier) (H : List Letter) : Decidable (S.Gathered b H) :=
  inferInstanceAs (Decidable (∀ c ∈ S.gathering b, c ∈ H))

/-- Everyone told the host how far its cost is from the mean. -/
def Over (H : List Letter) : Prop := ∀ pe < S.pes, .contribution .deviation pe ∈ H

instance (H : List Letter) : Decidable (S.Over H) :=
  inferInstanceAs (Decidable (∀ pe < S.pes, _))

variable {S}

theorem Sent.mono {H' : List Letter} (h : S.Sent H m) (hs : H ⊆ H') : S.Sent H' m :=
  ⟨h.1, fun c hc => hs (h.2 c hc)⟩

theorem gathered_iff : S.Gathered b H ↔ ∀ k ∈ b.kinds, ∀ pe < S.pes, .contribution k pe ∈ H := by
  constructor
  · intro h k hk pe hpe
    exact h _ (mem_gathering.2 ⟨k, hk, pe, hpe, rfl⟩)
  · intro h c hc
    obtain ⟨k, hk, pe, hpe, rfl⟩ := mem_gathering.1 hc
    exact h k hk pe hpe

/-- Where everything that was sent has arrived, the whole run has. -/
theorem mem_of_occurs (h : ∀ m, S.Sent H m → m ∈ H) (m : Letter) (ho : S.Occurs m) : m ∈ H := by
  refine h m ⟨ho, fun c hc => ?_⟩
  have := depth_lt hc
  exact mem_of_occurs h c (occurs_of_mem_causes ho hc)
termination_by S.depth m

end Scenario

end MeshDecomp
