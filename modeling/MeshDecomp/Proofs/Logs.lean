import MeshDecomp.Proofs.HonestRuns

/-!
Runs with the log of their deliveries. When the partitioner gives every element a work unit that
exists, the log is a history, and after it at most one letter that made its receiver fail.
-/
namespace MeshDecomp

def PeerMessage.exchange? : PeerMessage → Option Exchange
  | add _ => some .add
  | ack => some .ack
  | request _ => some .request
  | reply _ => some .reply
  | lower _ => none

def Command.barrier : Command → Barrier
  | partition _ _ => .partition
  | flatten => .flatten
  | reorder _ _ => .reorder
  | deviation _ => .deviation

namespace Parcel

/-- A message of one kind from one rank to another. -/
def isPeer (x : Exchange) (source target : Nat) : Parcel → Bool
  | ⟨.pe rank, sender, .peer m⟩ => m.exchange? = some x ∧ sender = source ∧ rank = target
  | _ => false

/-- A command of one kind to a rank. -/
def isCommand (b : Barrier) (pe : Nat) : Parcel → Bool
  | ⟨.pe rank, _, .command c⟩ => rank = pe ∧ c.barrier = b
  | _ => false

end Parcel

/-- Some of these messages is a command of one kind to a rank. -/
def Commanded (l : List Parcel) (b : Barrier) (pe : Nat) : Prop := ∃ p ∈ l, p.isCommand b pe

instance (l : List Parcel) (b : Barrier) (pe : Nat) : Decidable (Commanded l b pe) :=
  inferInstanceAs (Decidable (∃ p ∈ l, _))

namespace Network

variable {n m k : Network} {log : List Parcel}

theorem Run.reaches (h : n.Run log m) : n.Reaches m := by
  induction h with
  | nil => exact .refl
  | deliver i _ _ hd ih => exact .deliver i ih hd

/-- A run goes on with what is reached from its end. -/
theorem Run.exists_run (h : n.Run log m) (hr : m.Reaches k) : ∃ more, n.Run (log ++ more) k := by
  induction hr with
  | refl => exact ⟨[], by rwa [List.append_nil]⟩
  | @deliver m' k' i _ hd ih =>
    obtain ⟨more, hrun⟩ := ih
    cases hp : m'.pool[i]? with
    | none =>
      unfold Network.deliver at hd
      rw [hp] at hd
      split at hd <;> simp_all
    | some p => exact ⟨more ++ [p], List.append_assoc log more [p] ▸ hrun.deliver i hp hd⟩

/-- What can be reached is reached by a list of deliveries. -/
theorem reaches_iff_exists_run : n.Reaches m ↔ ∃ log, n.Run log m := by
  constructor
  · exact fun h => Run.nil.exists_run h
  · rintro ⟨log, h⟩
    exact h.reaches

theorem ending_of_deliver {i : Nat} (h : n.deliver i = some k) : n.ending = none := by
  by_contra he
  rw [deliver_of_ending he] at h
  cases h

end Network

theorem Ensemble.onWorker_fail {e : Ensemble}
    {call : Worker → Outcome Worker (Failure RunError) (List Action)} {w w' : Worker} {rank : Nat}
    {cause : Failure RunError} (hw : e.workers[rank]? = some w) (hcall : call w = .fail w' cause) :
    e.onWorker rank call = .fail { e with workers := e.workers.set rank w' } cause := by
  simp only [onWorker, hw, hcall, Outcome.mapState_fail, Outcome.map_fail]

namespace Scenario

variable {S : Scenario} {b : Barrier} {x : Exchange} {pe p q : Nat} {c m : Letter}
  {H fatal : List Letter} {ids : List Nat} {n s : Network} {log : List Parcel}

theorem isPeer_parcel : (S.parcel m).isPeer x p q = decide (m = .peer x p q) := by
  cases m with
  | contribution k pe => rfl
  | command b pe => rfl
  | peer y s t =>
    have hkind : (S.message s t y).exchange? = some y := by cases y <;> rfl
    simp [parcel, Parcel.isPeer, hkind]
  | lower s => simp [parcel, Parcel.isPeer, PeerMessage.exchange?]

theorem isCommand_parcel : (S.parcel m).isCommand b pe = decide (m = .command b pe) := by
  cases m with
  | contribution k p => rfl
  | command b' p =>
    have hkind : (S.command p b').barrier = b' := by cases b' <;> rfl
    simp [parcel, Parcel.isCommand, hkind, and_comm]
  | peer y s t => rfl
  | lower s => rfl

theorem commanded_map {l : List Letter} : Commanded (l.map S.parcel) b pe ↔ .command b pe ∈ l := by
  simp [Commanded, isCommand_parcel]

theorem countP_isPeer {l : List Letter} (h : l.Nodup) :
    (l.map S.parcel).countP (Parcel.isPeer x p q) = if .peer x p q ∈ l then 1 else 0 := by
  rw [List.countP_map, ← h.count]
  apply List.countP_congr
  intro m _
  simp [isPeer_parcel]

theorem eq_peer_of_content {y : PeerMessage} (h : (S.parcel m).content = .peer y)
    (hy : y.exchange? = some x) : ∃ p q, m = .peer x p q ∧ S.message p q x = y := by
  cases m with
  | contribution k pe => cases h
  | command b pe => cases h
  | peer z s t =>
    cases h
    obtain rfl : z = x := by cases z <;> cases hy <;> rfl
    exact ⟨s, t, rfl, rfl⟩
  | lower s =>
    cases h
    cases hy

/-- A rank that may have failed for a work unit without elements. -/
def stopped (fatal : List Letter) (pe : Nat) (w : Worker) : Worker :=
  { w with phase := if .command .flatten pe ∈ fatal then .flattening else w.phase }

/-- A network whose deliveries were the letters of a history, and after them those of `fatal`, which
made their receivers fail. -/
structure Follows (S : Scenario) (H fatal : List Letter) (log : List Parcel) (n : Network) :
    Prop where
  history : S.History H
  fails : ∀ m ∈ fatal, S.Sent H m ∧ m ∉ H ∧
    ((∃ k pe, m = .contribution k pe) ∨ ∃ pe, m = .command .flatten pe)
  log : log = (H ++ fatal).map S.parcel
  pool : ∃ flight : List Letter, n.pool = flight.map S.parcel ∧ flight.Nodup ∧
    ∀ m, m ∈ flight ↔ S.Sent H m ∧ m ∉ H ++ fatal
  workers : n.ensemble.workers =
    (List.range S.pes).map fun pe => stopped fatal pe (S.worker pe (.of H pe))

theorem Reflects.follows (h : S.Reflects H n) : S.Follows H [] (H.map S.parcel) n where
  history := h.history
  fails := nofun
  log := by rw [List.append_nil]
  pool := by
    rw [List.append_nil]
    exact h.pool
  workers := by
    rw [h.ensemble]
    rfl

/-- A failure leaves all ranks as they are, but for the phase of one that misses elements. -/
theorem workers_of_fails {e : Failure RunError} (h : S.History H) (hs : S.Sent H m) (hn : m ∉ H)
    (hf : S.Fails H m e) (hr : ∀ pe, S.InRange pe) :
    ((S.ensemble H).deliver (S.parcel m)).state.workers =
        (List.range S.pes).map (fun pe => stopped [m] pe (S.worker pe (.of H pe))) ∧
      ((∃ k pe, m = .contribution k pe) ∨ ∃ pe, m = .command .flatten pe) := by
  cases hf with
  | @answer k p _ _ =>
    refine ⟨?_, .inl ⟨k, p, rfl⟩⟩
    have hstop : ∀ pe w, stopped [.contribution k p] pe w = w := fun pe w => by simp [stopped]
    simp only [hstop]
    rfl
  | unit hu => cases (inRange_iff.1 (hr _)).symm.trans hu
  | @vacant p unit hv =>
    refine ⟨?_, .inr ⟨p, rfl⟩⟩
    have hset := set_map_range (n := S.pes) (p := p) (f := fun q => S.worker q (.of H q))
      (g := fun q => stopped [.command .flatten p] q (S.worker q (.of H q))) fun q hq => by
        simp [stopped, hq]
    have hfail : (S.call (.command .flatten p) (S.worker p (.of H p))).mapError Failure.error =
        .fail { S.worker p (.of H p) with phase := .flattening }
          (.error (.overdecomposition p unit S.units S.pes)) :=
      congrArg _ (h.call_flatten hs hn hv)
    rw [deliver_of_receiver rfl, Ensemble.onWorker_fail (getElem?_workers hs.1) hfail,
      Outcome.state_fail, ← hset, stopped, if_pos (List.mem_singleton_self _)]
    rfl

/-- A letter that makes its receiver fail is the last one of a run. -/
theorem Reflects.fail {e : Failure RunError} {flight : List Letter} (h : S.Reflects H n)
    (hnd : flight.Nodup) (hflight : ∀ c, c ∈ flight ↔ S.Sent H c ∧ c ∉ H) (hm : m ∈ flight)
    (hf : S.Fails H m e) (hr : ∀ pe, S.InRange pe)
    (he : ((S.ensemble H).deliver (S.parcel m)).result = .error e) :
    S.Follows H [m] (H.map S.parcel ++ [S.parcel m]) (Network.absorb { n with
      pool := (flight.erase m).map S.parcel, delivered := n.delivered + 1 }
      ((S.ensemble H).deliver (S.parcel m))) := by
  obtain ⟨hs, hn⟩ := (hflight m).1 hm
  obtain ⟨hworkers, hkind⟩ := workers_of_fails h.history hs hn hf hr
  rw [Network.absorb, he]
  refine ⟨h.history, ?_, ?_, ⟨_, rfl, hnd.erase m, fun c => ?_⟩, hworkers⟩
  · intro c hc
    obtain rfl := List.mem_singleton.1 hc
    exact ⟨hs, hn, hkind⟩
  · rw [List.map_append, List.map_singleton]
  · rw [hnd.mem_erase_iff, hflight, List.mem_append, List.mem_singleton, not_or]
    tauto

/-- A delivery makes a history longer, or the run ends with a failure. -/
theorem Reflects.step (h : S.Reflects H n) (ha : S.Admissible) (hr : ∀ pe, S.InRange pe) {i : Nat}
    {c : Parcel} (hc : n.pool[i]? = some c) (hd : n.deliver i = some k) :
    ∃ m, S.parcel m = c ∧ (S.Reflects (H ++ [m]) k ∨
      k.ending ≠ none ∧ S.Follows H [m] (H.map S.parcel ++ [S.parcel m]) k) := by
  obtain ⟨flight, m, hnd, hflight, hm, hpool, hcases⟩ := h.deliver_cases ha hd
  refine ⟨m, Option.some.inj (hpool.symm.trans hc), hcases.imp_right ?_⟩
  rintro ⟨e, hf, he, rfl⟩
  refine ⟨?_, h.fail hnd hflight hm hf hr he⟩
  rw [Network.absorb, he]
  exact Option.some_ne_none _

/-- Every run of an honest partitioner follows a history. -/
theorem Honest.follows (hh : S.Honest ids) (ha : S.Admissible) (hl : S.launch = .ok n)
    (hr : n.Run log s) : ∃ H fatal, S.Follows H fatal log s := by
  -- A failure ends the run, so that nothing is delivered after a fatal letter.
  have hcases : (∃ H, S.Reflects H s ∧ log = H.map S.parcel) ∨
      s.ending ≠ none ∧ ∃ H fatal, S.Follows H fatal log s := by
    induction hr with
    | nil =>
      rw [launch_eq ha] at hl
      exact .inl ⟨[], Except.ok.inj hl ▸ reflects_nil ha, rfl⟩
    | deliver i _ hp hd ih =>
      rcases ih with ⟨H, h, rfl⟩ | ⟨hend, -⟩
      · obtain ⟨m, rfl, h' | ⟨hend, h'⟩⟩ := h.step ha hh.inRange hp hd
        · exact .inl ⟨H ++ [m], h', by rw [List.map_append, List.map_singleton]⟩
        · exact .inr ⟨hend, H, [m], h'⟩
      · exact absurd (Network.ending_of_deliver hd) hend
  rcases hcases with ⟨H, h, rfl⟩ | ⟨-, h⟩
  · exact ⟨H, [], h.follows⟩
  · exact h

/-- A run that can finish does so, with a log. -/
theorem Finishes.exists_run (hf : S.Finishes) (ha : S.Admissible) : ∃ n log s,
    S.launch = .ok n ∧ n.Run log s ∧ s.ending = some (.ok S.report) := by
  obtain ⟨n, s, hl, hs, he⟩ := hf.exists_finished ha
  obtain ⟨log, hr⟩ := Network.reaches_iff_exists_run.1 hs
  exact ⟨n, log, s, hl, hr, he⟩

namespace Follows

variable (h : S.Follows H fatal log n)

include h

theorem peer_not_mem : .peer x p q ∉ fatal := by
  intro hmem
  rcases (h.fails _ hmem).2.2 with ⟨k, pe, he⟩ | ⟨pe, he⟩ <;> cases he

theorem command_not_mem (hb : b ≠ .flatten) : .command b pe ∉ fatal := by
  intro hmem
  rcases (h.fails _ hmem).2.2 with ⟨k, pe, he⟩ | ⟨pe, he⟩
  · cases he
  · cases he
    exact hb rfl

/-- A rank that numbers has not failed. -/
theorem flatten_not_mem (hr : .command .reorder pe ∈ H) : .command .flatten pe ∉ fatal := fun hf =>
  (h.fails _ hf).2.1 (h.history.flatten_of_reorder hr (h.history.lt hr))

theorem countP_log : log.countP (Parcel.isPeer x p q) = if .peer x p q ∈ H then 1 else 0 := by
  have hfatal : (fatal.map S.parcel).countP (Parcel.isPeer x p q) = 0 := by
    refine List.countP_eq_zero.2 fun c hc => ?_
    obtain ⟨m, hm, rfl⟩ := List.mem_map.1 hc
    rw [isPeer_parcel, decide_eq_true_eq]
    rintro rfl
    exact h.peer_not_mem hm
  rw [h.log, List.map_append, List.countP_append, hfatal, countP_isPeer h.history.nodup,
    Nat.add_zero]

theorem countP_pool : n.pool.countP (Parcel.isPeer x p q) =
    if S.Sent H (.peer x p q) ∧ .peer x p q ∉ H then 1 else 0 := by
  obtain ⟨flight, hpool, hnd, hflight⟩ := h.pool
  simp only [hpool, countP_isPeer hnd, hflight, List.mem_append, h.peer_not_mem, or_false]

theorem commanded_log (hb : b ≠ .flatten) : Commanded log b pe ↔ .command b pe ∈ H := by
  rw [h.log, commanded_map, List.mem_append, or_iff_left (h.command_not_mem hb)]

theorem exists_of_mem_pool {c : Parcel} (hc : c ∈ n.pool) :
    ∃ m, S.Sent H m ∧ m ∉ H ∧ S.parcel m = c := by
  obtain ⟨flight, hpool, -, hflight⟩ := h.pool
  rw [hpool] at hc
  obtain ⟨m, hm, rfl⟩ := List.mem_map.1 hc
  obtain ⟨hs, hn⟩ := (hflight m).1 hm
  exact ⟨m, hs, fun hmem => hn (List.mem_append_left fatal hmem), rfl⟩

/-- Every message, delivered or not, is a letter whose causes have arrived. -/
theorem exists_sent {c : Parcel} (hc : c ∈ n.pool ++ log) : ∃ m, S.Sent H m ∧ S.parcel m = c := by
  rcases List.mem_append.1 hc with hc | hc
  · obtain ⟨m, hs, -, hm⟩ := h.exists_of_mem_pool hc
    exact ⟨m, hs, hm⟩
  · rw [h.log] at hc
    obtain ⟨m, hm, rfl⟩ := List.mem_map.1 hc
    exact ⟨m, (List.mem_append.1 hm).elim (h.history.sent m) fun hm => (h.fails m hm).1, rfl⟩

/-- A command that was given waits for nothing any more. -/
theorem gathered_of_commanded (hc : Commanded (n.pool ++ log) b pe) : S.Gathered b H := by
  obtain ⟨c, hmem, hc⟩ := hc
  obtain ⟨m, hm, rfl⟩ := h.exists_sent hmem
  rw [isCommand_parcel, decide_eq_true_eq] at hc
  exact (hc ▸ hm).2

theorem worker_eq {w : Worker} (hw : n.ensemble.workers[pe]? = some w) :
    pe < S.pes ∧ w = stopped fatal pe (S.worker pe (.of H pe)) := by
  rw [h.workers, List.getElem?_map, Option.map_eq_some_iff] at hw
  obtain ⟨q, hq, rfl⟩ := hw
  obtain ⟨hlt, rfl⟩ := List.getElem?_eq_some_iff.1 hq
  rw [List.length_range] at hlt
  rw [List.getElem_range]
  exact ⟨hlt, rfl⟩

theorem length_workers : n.ensemble.workers.length = S.pes := by
  rw [h.workers, List.length_map, List.length_range]

theorem getElem?_eq_none (hp : ¬ pe < S.pes) : n.ensemble.workers[pe]? = none := by
  rw [List.getElem?_eq_none_iff, h.length_workers]
  exact Nat.le_of_not_lt hp

theorem getElem?_worker (hp : pe < S.pes) :
    n.ensemble.workers[pe]? = some (stopped fatal pe (S.worker pe (.of H pe))) := by
  simp [h.workers, hp]

end Follows

end Scenario
end MeshDecomp
