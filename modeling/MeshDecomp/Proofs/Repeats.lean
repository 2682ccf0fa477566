import MeshDecomp.Host.Basic
import MeshDecomp.Proofs.Lists

/-!
Contributions out of turn. The host refuses what comes from no rank, and what it holds already from
the same rank. At two barriers it lets go of the contributions that it worked off, elements and
nodes, and from then on takes one more of these from every rank, to no effect.
-/

namespace MeshDecomp

variable {α : Type} {pe q : Nat} {c : Contribution} {k : Contribution.Kind}

namespace Tally

/-- With the slot of `pe` filled. -/
def put (t : Tally α) (pe : Nat) (a : α) : Tally α :=
  { t with slots := t.slots.insert pe a, filled := t.filled + 1 }

variable {t : Tally α} {a : α}

theorem insert_of_le (h : t.pes ≤ pe) :
    t.insert k pe a = .error (.internal pe (.unknownPe k)) := if_pos h

theorem insert_of_mem (h : pe < t.pes) (hm : pe ∈ t.slots.keys) :
    t.insert k pe a = .error (.internal pe (.contributedTwice k)) := by
  rw [insert, if_neg (Nat.not_le.2 h), if_pos (IdMap.contains_iff.2 hm)]

theorem insert_of_not_mem (h : pe < t.pes) (hm : pe ∉ t.slots.keys) :
    t.insert k pe a = .ok (t.put pe a) := by
  rw [insert, if_neg (Nat.not_le.2 h), if_neg (mt IdMap.contains_iff.1 hm), put]

theorem mem_keys_put : q ∈ (t.put pe a).slots.keys ↔ q = pe ∨ q ∈ t.slots.keys := by
  simp only [put, IdMap.mem_keys_iff, IdMap.get?_insert]
  by_cases h : q = pe <;> simp [h]

/-- Every contribution that was counted is held, and comes from a rank. -/
structure Counted (t : Tally α) : Prop where
  filled : t.filled = t.slots.keys.length
  lt : ∀ pe ∈ t.slots.keys, pe < t.pes

theorem counted_empty (pes : Nat) : (empty pes : Tally α).Counted := by
  constructor <;> simp [empty]

theorem Counted.put (h : t.Counted) (hpe : pe < t.pes) (hm : pe ∉ t.slots.keys) :
    (t.put pe a).Counted := by
  constructor
  · have hn : (pe :: t.slots.keys).Nodup := List.nodup_cons.2 ⟨hm, IdMap.nodup_keys _⟩
    have hp : (t.put pe a).slots.keys.Perm (pe :: t.slots.keys) :=
      (List.perm_ext_iff_of_nodup (IdMap.nodup_keys _) hn).2 fun q => by
        rw [mem_keys_put, List.mem_cons]
    rw [hp.length_eq, List.length_cons, ← h.filled, Tally.put]
  · intro q hq
    rcases mem_keys_put.1 hq with rfl | hq
    · exact hpe
    · exact h.lt q hq

theorem Counted.mem_of_complete (h : t.Counted) (hc : t.complete = true) (hpe : pe < t.pes) :
    pe ∈ t.slots.keys := by
  have hfilled : t.filled = t.pes := of_decide_eq_true hc
  have hlen : t.slots.keys.length = (List.range t.pes).length := by
    rw [← h.filled, hfilled, List.length_range]
  have hsub : t.slots.keys ⊆ List.range t.pes := fun q hq => List.mem_range.2 (h.lt q hq)
  have hall := (length_eq_iff_subset (IdMap.nodup_keys _) List.nodup_range hsub).1 hlen
  exact hall (List.mem_range.2 hpe)

end Tally

namespace Host

variable {h h' : Host}

/-- The ranks whose contribution of one kind the host holds. -/
def held (h : Host) : Contribution.Kind → List Nat
  | .load => h.loads.slots.keys
  | .setup => h.setups.slots.keys
  | .elements => h.slices.slots.keys
  | .distributed => h.distributions.slots.keys
  | .flattened => h.flattenings.slots.keys
  | .nodes => h.nodeSets.slots.keys
  | .cost => h.costs.slots.keys
  | .deviation => h.deviations.slots.keys

/-- The number of ranks that may contribute. -/
def room (h : Host) : Contribution.Kind → Nat
  | .load => h.loads.pes
  | .setup => h.setups.pes
  | .elements => h.slices.pes
  | .distributed => h.distributions.pes
  | .flattened => h.flattenings.pes
  | .nodes => h.nodeSets.pes
  | .cost => h.costs.pes
  | .deviation => h.deviations.pes

/-- The host has let go of the contributions of a kind: elements once they are partitioned, nodes
once they are shared out. -/
def letsGo (h : Host) : Contribution.Kind → Bool
  | .elements => h.units ≠ 0
  | .nodes => h.reordered
  | _ => false

/-- The host with a contribution in its tally. -/
def taken (h : Host) (pe : Nat) : Contribution → Host
  | .load n => { h with loads := h.loads.put pe n }
  | .setup => { h with setups := h.setups.put pe () }
  | .elements s => { h with slices := h.slices.put pe s }
  | .distributed => { h with distributions := h.distributions.put pe () }
  | .flattened => { h with flattenings := h.flattenings.put pe () }
  | .nodes ids => { h with nodeSets := h.nodeSets.put pe ids }
  | .cost x => { h with costs := h.costs.put pe x }
  | .deviation x => { h with deviations := h.deviations.put pe x }

/-- The host after calls, each with the rank and its contribution. -/
def after (h : Host) (calls : List (Nat × Contribution)) : Host :=
  calls.foldl (fun h call => (h.contribute call.1 call.2).state) h

section fill

variable {t : Tally α} {a : α} {go : Tally α → Result (List Directive)}

theorem fill_of_le (hpe : t.pes ≤ pe) :
    h.fill t k pe a go = .fail h (.error (.internal pe (.unknownPe k))) := by
  rw [fill, Tally.insert_of_le hpe]

theorem fill_of_mem (hpe : pe < t.pes) (hm : pe ∈ t.slots.keys) :
    h.fill t k pe a go = .fail h (.error (.internal pe (.contributedTwice k))) := by
  rw [fill, Tally.insert_of_mem hpe hm]

theorem fill_of_not_mem (hpe : pe < t.pes) (hm : pe ∉ t.slots.keys) :
    h.fill t k pe a go = go (t.put pe a) := by
  rw [fill, Tally.insert_of_not_mem hpe hm]

end fill

theorem contribute_of_le (hpe : h.room c.kind ≤ pe) :
    h.contribute pe c = .fail h (.error (.internal pe (.unknownPe c.kind))) := by
  cases c <;> exact fill_of_le hpe

theorem contribute_of_mem (hpe : pe < h.room c.kind) (hm : pe ∈ h.held c.kind) :
    h.contribute pe c = .fail h (.error (.internal pe (.contributedTwice c.kind))) := by
  cases c <;> exact fill_of_mem hpe hm

/-- What every state of a host keeps to. -/
structure Orderly (h : Host) : Prop where
  pos : 0 < h.pes
  room : ∀ k, h.room k = h.pes
  loads : h.loads.Counted
  setups : h.setups.Counted
  /-- A barrier that was passed stays behind: none of its kinds can be complete again. -/
  passed : h.units ≠ 0 → h.pes ≤ h.slices.filled ∧
    ∀ pe < h.pes, pe ∈ h.held .load ∧ pe ∈ h.held .setup

theorem mem_held_taken : q ∈ (h.taken pe c).held k ↔ k = c.kind ∧ q = pe ∨ q ∈ h.held k := by
  cases c <;> cases k <;> simp [taken, held, Contribution.kind, Tally.mem_keys_put]

@[simp] theorem room_taken : (h.taken pe c).room k = h.room k := by
  cases c <;> cases k <;> rfl

@[simp] theorem letsGo_taken : (h.taken pe c).letsGo k = h.letsGo k := by
  cases c <;> cases k <;> rfl

@[simp] theorem pes_taken : (h.taken pe c).pes = h.pes := by cases c <;> rfl

@[simp] theorem units_taken : (h.taken pe c).units = h.units := by cases c <;> rfl

theorem Orderly.taken (ho : h.Orderly) (hpe : pe < h.room c.kind) (hm : pe ∉ h.held c.kind) :
    (h.taken pe c).Orderly where
  pos := by simpa using ho.pos
  room := by simpa using ho.room
  loads := by
    cases c with
    | load => exact ho.loads.put hpe hm
    | _ => exact ho.loads
  setups := by
    cases c with
    | setup => exact ho.setups.put hpe hm
    | _ => exact ho.setups
  passed := by
    rw [units_taken, pes_taken]
    intro hu
    obtain ⟨hfilled, hheld⟩ := ho.passed hu
    refine ⟨?_, fun q hq => ⟨?_, ?_⟩⟩
    · have hle : h.slices.filled ≤ (h.taken pe c).slices.filled := by
        cases c <;> simp [Host.taken, Tally.put]
      omega
    · exact mem_held_taken.2 (.inr (hheld q hq).1)
    · exact mem_held_taken.2 (.inr (hheld q hq).2)

/-! ### What a call does -/

/-- What the host does once it has a contribution in its tally. -/
inductive Moves (h : Host) : Host → Prop
  | counts (elements : Nat) (meanCost : Binary64) : Moves h { h with elements, meanCost }
  | partitions (elements units : Nat) (hn : h.units = 0) (hu : h.pes ≤ units)
      (hl : h.loads.complete) (hs : h.setups.complete) (he : h.slices.complete) :
      Moves h { h with elements, units, slices := h.slices.clear }
  | reorders (nodes : Nat) (hn : h.reordered = false) :
      Moves h { h with nodes, reordered := true, nodeSets := h.nodeSets.clear }

theorem le_of_decideUnits {n units : Nat} (hd : h.decideUnits n = .ok units) : h.pes ≤ units := by
  have hif : ∀ u : Nat, (if u < h.pes then .error (.tooFewUnits u h.pes) else .ok u) =
      (.ok units : Except RunError Nat) → h.pes ≤ units := by
    intro u hu
    split at hu
    · cases hu
    · next hle =>
      cases hu
      exact Nat.not_lt.1 hle
  rw [decideUnits] at hd
  simp only [bind, Except.bind, pure, Except.pure, throw, throwThe, MonadExceptOf.throw] at hd
  split at hd
  · exact hif _ hd
  · split at hd
    · cases hd
    · exact hif _ hd

theorem moves_tryPartition (hn : h.slices.complete → h.units = 0) :
    h.Moves h.tryPartition.state := by
  unfold tryPartition
  split
  · next hc =>
    simp only [Bool.and_eq_true] at hc
    dsimp only
    split
    · exact .counts _ h.meanCost
    · next units hd =>
      have hu : h.pes ≤ units := le_of_decideUnits hd
      split <;> exact .partitions _ units (hn hc.2) hu hc.1.1 hc.1.2 hc.2
  · exact .counts h.elements h.meanCost

theorem moves_tryReorder : h.Moves h.tryReorder.state := by
  unfold tryReorder
  split
  · exact .counts h.elements h.meanCost
  · next hr =>
    split
    · exact .reorders _ (Bool.eq_false_iff.2 hr)
    · exact .counts h.elements h.meanCost

/-- Nothing that counts for the partitioning is complete a second time. -/
theorem Orderly.units_eq_zero (ho : h.Orderly) (hpe : pe < h.room c.kind)
    (hm : pe ∉ h.held c.kind) (hk : c.kind = .load ∨ c.kind = .setup ∨ c.kind = .elements)
    (hc : (h.taken pe c).slices.complete) : h.units = 0 := by
  by_contra hu
  obtain ⟨hfilled, hheld⟩ := ho.passed hu
  rw [ho.room] at hpe
  cases c with
  | load => exact hm (hheld pe hpe).1
  | setup => exact hm (hheld pe hpe).2
  | elements s =>
    have hroom : h.slices.pes = h.pes := ho.room .elements
    have hfull : h.slices.filled + 1 = h.slices.pes := of_decide_eq_true hc
    omega
  | _ => simp [Contribution.kind] at hk

/-- A contribution that the host has room for is taken before anything else. -/
theorem Orderly.moves (ho : h.Orderly) (hpe : pe < h.room c.kind) (hm : pe ∉ h.held c.kind) :
    (h.taken pe c).Moves (h.contribute pe c).state := by
  have hunits : (h.taken pe c).units = h.units := units_taken
  have hzero := fun hk hc => hunits.trans (ho.units_eq_zero hpe hm hk hc)
  cases c with
  | load | setup | elements =>
    rw [contribute, fill_of_not_mem hpe hm]
    exact moves_tryPartition (hzero (by simp [Contribution.kind]))
  | flattened | nodes =>
    rw [contribute, fill_of_not_mem hpe hm]
    exact moves_tryReorder
  | distributed | deviation =>
    rw [contribute, fill_of_not_mem hpe hm]
    exact .counts h.elements h.meanCost
  | cost =>
    rw [contribute, fill_of_not_mem hpe hm]
    dsimp only
    split
    · exact .counts h.elements _
    · exact .counts h.elements h.meanCost

@[simp] theorem Moves.pes (hmv : h.Moves h') : h'.pes = h.pes := by cases hmv <;> rfl

theorem Moves.orderly (hmv : h.Moves h') (ho : h.Orderly) : h'.Orderly := by
  cases hmv with
  | counts => exact ⟨ho.pos, ho.room, ho.loads, ho.setups, ho.passed⟩
  | partitions elements units hn hu hl hs he =>
    have hfilled : h.slices.filled = h.slices.pes := of_decide_eq_true he
    have hroom : h.slices.pes = h.pes := ho.room .elements
    refine ⟨ho.pos, fun k => ?_, ho.loads, ho.setups, fun _ => ⟨?_, fun pe hpe => ⟨?_, ?_⟩⟩⟩
    · rw [← ho.room k]
      cases k <;> rfl
    · exact Nat.le_of_eq (hroom.symm.trans hfilled.symm)
    · exact ho.loads.mem_of_complete hl (hpe.trans_eq (ho.room .load).symm)
    · exact ho.setups.mem_of_complete hs (hpe.trans_eq (ho.room .setup).symm)
  | reorders =>
    refine ⟨ho.pos, fun k => ?_, ho.loads, ho.setups, ho.passed⟩
    rw [← ho.room k]
    cases k <;> rfl

/-- What the host let go of once, it does not hold on to again. -/
theorem Moves.letsGo (hmv : h.Moves h') (ho : h.Orderly) (hl : h.letsGo k) : h'.letsGo k := by
  cases hmv with
  | counts => cases k <;> exact hl
  | partitions elements units hn hu =>
    cases k with
    | elements => exact decide_eq_true (Nat.ne_of_gt (ho.pos.trans_le hu))
    | _ => exact hl
  | reorders =>
    cases k with
    | nodes => rfl
    | _ => exact hl

/-- The host lets go of all contributions of a kind at once, and of none otherwise. -/
theorem Moves.held (hmv : h.Moves h') (ho : h.Orderly) :
    h'.held k = if h.letsGo k = h'.letsGo k then h.held k else [] := by
  cases hmv with
  | counts => cases k <;> simp [Host.held, Host.letsGo]
  | partitions elements units hn hu =>
    have hpos : units ≠ 0 := Nat.ne_of_gt (ho.pos.trans_le hu)
    cases k <;> simp [Host.held, Host.letsGo, Tally.clear, hn, hpos]
  | reorders nodes hn => cases k <;> simp [Host.held, Host.letsGo, Tally.clear, hn]

/-! ### What calls add up to -/

/-- A call is refused and changes nothing, or its contribution is taken. -/
theorem Orderly.contribute_cases (ho : h.Orderly) (pe : Nat) (c : Contribution) :
    ((h.contribute pe c).state = h ∧ (pe < h.pes → pe ∈ h.held c.kind)) ∨
      pe < h.pes ∧ (h.taken pe c).Orderly ∧ (h.taken pe c).Moves (h.contribute pe c).state := by
  rw [← ho.room c.kind]
  by_cases hpe : pe < h.room c.kind
  · by_cases hm : pe ∈ h.held c.kind
    · exact .inl ⟨by rw [contribute_of_mem hpe hm, Outcome.state_fail], fun _ => hm⟩
    · exact .inr ⟨hpe, ho.taken hpe hm, ho.moves hpe hm⟩
  · refine .inl ⟨?_, fun h => absurd h hpe⟩
    rw [contribute_of_le (Nat.not_lt.1 hpe), Outcome.state_fail]

theorem Orderly.contribute (ho : h.Orderly) : (h.contribute pe c).state.Orderly := by
  obtain ⟨he, -⟩ | ⟨-, hot, hmv⟩ := ho.contribute_cases pe c
  · rwa [he]
  · exact hmv.orderly hot

theorem Orderly.pes_contribute (ho : h.Orderly) : (h.contribute pe c).state.pes = h.pes := by
  obtain ⟨he, -⟩ | ⟨-, -, hmv⟩ := ho.contribute_cases pe c
  · rw [he]
  · rw [hmv.pes, pes_taken]

theorem Orderly.letsGo_contribute (ho : h.Orderly) (hl : h.letsGo k) :
    (h.contribute pe c).state.letsGo k := by
  obtain ⟨he, -⟩ | ⟨-, hot, hmv⟩ := ho.contribute_cases pe c
  · rwa [he]
  · exact hmv.letsGo hot (by rwa [letsGo_taken])

/-- Unless the host lets go, it holds what it held, and what the call brought. -/
theorem Orderly.mem_held_contribute (ho : h.Orderly)
    (hl : h.letsGo k = (h.contribute pe c).state.letsGo k) :
    q ∈ (h.contribute pe c).state.held k ↔
      q ∈ h.held k ∨ q < h.pes ∧ q = pe ∧ c.kind = k := by
  obtain ⟨he, hheld⟩ | ⟨hlt, hot, hmv⟩ := ho.contribute_cases pe c
  · rw [he]
    refine ⟨.inl, ?_⟩
    rintro (hq | ⟨hq, rfl, rfl⟩)
    · exact hq
    · exact hheld hq
  · rw [hmv.held hot, letsGo_taken, if_pos hl, mem_held_taken]
    constructor
    · rintro (⟨rfl, rfl⟩ | hq)
      · exact .inr ⟨hlt, rfl, rfl⟩
      · exact .inl hq
    · rintro (hq | ⟨-, rfl, rfl⟩)
      · exact .inr hq
      · exact .inl ⟨rfl, rfl⟩

/-- At the call that passes a barrier the host lets go of everything. -/
theorem Orderly.held_contribute_eq_nil (ho : h.Orderly) (hn : h.letsGo k = false)
    (hl : (h.contribute pe c).state.letsGo k) : (h.contribute pe c).state.held k = [] := by
  obtain ⟨he, -⟩ | ⟨-, hot, hmv⟩ := ho.contribute_cases pe c
  · simp [he, hn] at hl
  · rw [hmv.held hot, letsGo_taken, hn, hl, if_neg (by decide)]

theorem Orderly.after (ho : h.Orderly) (calls : List (Nat × Contribution)) :
    (h.after calls).Orderly := by
  induction calls generalizing h with
  | nil => exact ho
  | cons call calls ih => exact ih ho.contribute

theorem Orderly.pes_after (ho : h.Orderly) (calls : List (Nat × Contribution)) :
    (h.after calls).pes = h.pes := by
  induction calls generalizing h with
  | nil => rfl
  | cons call calls ih => exact (ih ho.contribute).trans ho.pes_contribute

theorem Orderly.letsGo_after (ho : h.Orderly) (calls : List (Nat × Contribution))
    (hl : h.letsGo k) : (h.after calls).letsGo k := by
  induction calls generalizing h with
  | nil => exact hl
  | cons call calls ih => exact ih ho.contribute (ho.letsGo_contribute hl)

/-- Unless the host lets go meanwhile, it holds what it held and what calls brought. -/
theorem Orderly.mem_held_after (ho : h.Orderly) {calls : List (Nat × Contribution)}
    (hl : h.letsGo k = (h.after calls).letsGo k) :
    q ∈ (h.after calls).held k ↔
      q ∈ h.held k ∨ q < h.pes ∧ ∃ c, (q, c) ∈ calls ∧ c.kind = k := by
  induction calls generalizing h with
  | nil => simp [Host.after]
  | cons call calls ih =>
    obtain ⟨pe, c⟩ := call
    have hfirst : h.letsGo k = (h.contribute pe c).state.letsGo k := by
      rw [Bool.eq_iff_iff]
      refine ⟨ho.letsGo_contribute, fun hc => ?_⟩
      rw [hl]
      exact ho.contribute.letsGo_after calls hc
    have hrest := ih ho.contribute (hfirst.symm.trans hl)
    rw [show h.after ((pe, c) :: calls) = (h.contribute pe c).state.after calls from rfl, hrest,
      ho.mem_held_contribute hfirst, ho.pes_contribute, or_assoc, ← and_or_left]
    simp [or_and_right, exists_or, and_assoc]

/-- A contribution that the host let go of is put into its tally once more, and that is all. -/
theorem Orderly.contribute_of_letsGo (ho : h.Orderly) (hpe : pe < h.pes)
    (hl : h.letsGo c.kind) (hm : pe ∉ h.held c.kind) :
    h.contribute pe c = .ok (h.taken pe c) [] := by
  rw [← ho.room c.kind] at hpe
  cases c with
  | elements s =>
    have hu : h.units ≠ 0 := of_decide_eq_true hl
    have hopen : (h.slices.put pe s).complete = false := by
      rw [Bool.eq_false_iff]
      exact fun hc => hu (ho.units_eq_zero hpe hm (.inr (.inr rfl)) hc)
    rw [Host.contribute, fill_of_not_mem hpe hm]
    exact if_neg (by simp [hopen])
  | nodes ids =>
    rw [Host.contribute, fill_of_not_mem hpe hm]
    exact if_pos hl
  | _ => simp [letsGo, Contribution.kind] at hl

/-- A host without contributions. -/
structure New (h : Host) (pes : Nat) : Prop where
  orderly : h.Orderly
  pes : h.pes = pes
  held : ∀ k, h.held k = []
  letsGo : ∀ k, h.letsGo k = false

theorem eq_of_create {pes : Nat} {settings : Settings} (hc : create pes settings = .ok h) :
    0 < pes ∧ h = {
      pes, settings
      partitioner := settings.algorithm.partitioner
      loads := .empty pes
      setups := .empty pes
      slices := .empty pes
      distributions := .empty pes
      flattenings := .empty pes
      nodeSets := .empty pes
      costs := .empty pes
      deviations := .empty pes } := by
  simp only [create, bind, Except.bind, pure, Except.pure, throw, throwThe,
    MonadExceptOf.throw] at hc
  split at hc
  · cases hc
  split at hc
  · cases hc
  next hpos =>
  split at hc
  · cases hc
  injection hc with hc
  exact ⟨Nat.pos_of_ne_zero hpos, hc.symm⟩

theorem new_create {pes : Nat} {settings : Settings} (hc : create pes settings = .ok h)
    (p : Partitioner) : (h.withPartitioner p).New pes := by
  obtain ⟨hpos, rfl⟩ := eq_of_create hc
  refine ⟨⟨hpos, ?_, Tally.counted_empty pes, Tally.counted_empty pes, ?_⟩, rfl, ?_, ?_⟩
  · intro k
    cases k <;> rfl
  · exact fun h => absurd rfl h
  · intro k
    cases k <;> exact IdMap.keys_empty
  · intro k
    cases k <;> rfl

/-- A host for some ranks refuses a contribution that comes from none of them, and a second one of
a kind from the same rank, and stays as it is. But when it has passed the barrier at which it lets
go of elements or of nodes, it takes these once more from every rank, and does nothing with them. -/
theorem contribute_twice {pes : Nat} {settings : Settings} {h₀ : Host}
    (hc : create pes settings = .ok h₀) (p : Partitioner) (calls : List (Nat × Contribution))
    (pe : Nat) (c : Contribution) :
    let start := h₀.withPartitioner p
    let h := start.after calls
    let refused v := h.contribute pe c = .fail h (.error (.internal pe v))
    (pes ≤ pe → refused (.unknownPe c.kind)) ∧
    (pe < pes → h.letsGo c.kind = false → (∃ c', (pe, c') ∈ calls ∧ c'.kind = c.kind) →
      refused (.contributedTwice c.kind)) ∧
    ∀ early call late, calls = early ++ call :: late → pe < pes →
      (start.after early).letsGo c.kind = false →
      (start.after (early ++ [call])).letsGo c.kind →
      ((∃ c', (pe, c') ∈ late ∧ c'.kind = c.kind) → refused (.contributedTwice c.kind)) ∧
      ((∀ c', (pe, c') ∈ late → c'.kind ≠ c.kind) →
        h.contribute pe c = .ok (h.taken pe c) []) := by
  intro start h refused
  have hnew : start.New pes := new_create hc p
  have ho : h.Orderly := hnew.orderly.after calls
  have hpes : h.pes = pes := (hnew.orderly.pes_after calls).trans hnew.pes
  have hroom : h.room c.kind = pes := (ho.room c.kind).trans hpes
  refine ⟨?_, ?_, ?_⟩
  · intro hpe
    exact contribute_of_le (hroom.trans_le hpe)
  · intro hpe hl hcalls
    have hheld := hnew.orderly.mem_held_after ((hnew.letsGo c.kind).trans hl.symm) (q := pe)
    exact contribute_of_mem (hpe.trans_eq hroom.symm)
      (hheld.2 (.inr ⟨hpe.trans_eq hnew.pes.symm, hcalls⟩))
  · rintro early call late rfl hpe hearly hcall
    have hmid : h = (start.after (early ++ [call])).after late := by
      simp [h, Host.after]
    have hom : (start.after (early ++ [call])).Orderly := hnew.orderly.after _
    have hl : h.letsGo c.kind := hmid ▸ hom.letsGo_after late hcall
    have hnil : (start.after (early ++ [call])).held c.kind = [] := by
      have hstep : start.after (early ++ [call]) =
          ((start.after early).contribute call.1 call.2).state := by simp [Host.after]
      rw [hstep] at hcall ⊢
      exact (hnew.orderly.after early).held_contribute_eq_nil hearly hcall
    have hheld : pe ∈ h.held c.kind ↔ ∃ c', (pe, c') ∈ late ∧ c'.kind = c.kind := by
      rw [hmid, hom.mem_held_after (hcall.trans (hmid ▸ hl).symm), hnil,
        hnew.orderly.pes_after, hnew.pes]
      simp [hpe]
    refine ⟨fun hlate => ?_, fun hlate => ?_⟩
    · exact contribute_of_mem (hpe.trans_eq hroom.symm) (hheld.2 hlate)
    · have hn : pe ∉ h.held c.kind := fun hm => by
        obtain ⟨c', hc', hk⟩ := hheld.1 hm
        exact hlate c' hc' hk
      exact ho.contribute_of_letsGo (hpe.trans_eq hpes.symm) hl hn

/-- A host for one rank. -/
def lone : Host where
  pes := 1
  settings := { algorithm := .elementOrder, units := some 1 }
  partitioner := Algorithm.elementOrder.partitioner
  loads := .empty 1
  setups := .empty 1
  slices := .empty 1
  distributions := .empty 1
  flattenings := .empty 1
  nodeSets := .empty 1
  costs := .empty 1
  deviations := .empty 1

/-- The only element of a mesh. -/
def loneElement : Contribution := .elements ⟨0, [10, 11, 12, 13], none⟩

/-- The element comes last before it is partitioned. -/
def loneCalls : List (Nat × Contribution) := [(0, .load 1), (0, .setup), (0, loneElement)]

/-- After the partitioning the host refuses a rank that is not there and a second load, and takes
the element again. -/
theorem contribute_twice_lone :
    create 1 lone.settings = .ok lone ∧
    (lone.after loneCalls).contribute 1 .setup =
      .fail (lone.after loneCalls) (.error (.internal 1 (.unknownPe .setup))) ∧
    (lone.after loneCalls).contribute 0 (.load 1) =
      .fail (lone.after loneCalls) (.error (.internal 0 (.contributedTwice .load))) ∧
    (lone.after loneCalls).contribute 0 loneElement =
      .ok ((lone.after loneCalls).taken 0 loneElement) [] := by
  have hc : create 1 lone.settings = .ok lone := rfl
  have twice := contribute_twice hc lone.partitioner loneCalls
  refine ⟨hc, (twice 1 .setup).1 (by decide), ?_, ?_⟩
  · exact (twice 0 (.load 1)).2.1 (by decide) rfl ⟨.load 1, by decide, rfl⟩
  · exact ((twice 0 loneElement).2.2 [(0, .load 1), (0, .setup)] (0, loneElement) [] rfl
      (by decide) rfl rfl).2 (by simp)

/-- The host accepts the same element twice: it partitions it at first, and counts it again
afterwards. -/
theorem element_accepted_twice :
    ((lone.after [(0, .load 1), (0, .setup)]).contribute 0 loneElement).result =
      .ok [.tell 0 (.partition 1 [0])] ∧
    ((lone.after loneCalls).contribute 0 loneElement).result = .ok [] ∧
    ((lone.after loneCalls).contribute 0 loneElement).state.slices.filled = 2 := by decide

end Host
end MeshDecomp
