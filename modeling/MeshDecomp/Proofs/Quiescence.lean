import Mathlib.Algebra.BigOperators.Group.Finset.Sigma
import Mathlib.Algebra.BigOperators.Ring.Finset
import Mathlib.Algebra.Group.Action.Defs
import MeshDecomp.Proofs.Requests

/-!
The end of a run. Nobody is told or asked anything after it is done, nothing is left when the
report comes, and every run takes the same number of deliveries.
-/
namespace MeshDecomp

namespace Letter

/-- The rank that a letter is counted for. -/
def home : Letter → Nat
  | contribution _ pe => pe
  | command _ pe => pe
  | peer .add s _ => s
  | peer .ack _ t => t
  | peer .request s _ => s
  | peer .reply _ t => t
  | lower s => s

end Letter

namespace Scenario

/-- The number of pairs of ranks of which the first one read an element for the second one. -/
def exportCount (S : Scenario) (ids : List Nat) : Nat :=
  ((Finset.range S.pes ×ˢ Finset.range S.pes).filter fun e => S.Exports ids e.1 e.2).card

/-- The number of pairs of ranks of which the first one asks the second one for new ids. -/
def questionCount (S : Scenario) : Nat :=
  ∑ p ∈ Finset.range S.pes, (S.asked p).entries.countP (·.2 ≠ [])

variable {S : Scenario} {pe p q : Nat} {m : Letter} {H fatal : List Letter} {ids : List Nat}
  {n s t : Network} {log : List Parcel}

/-! ### The end of the causes -/

/-- When the host asks for the deviations, everything else has arrived. -/
theorem History.mem_of_gathered_deviation (h : S.History H) (hg : S.Gathered .deviation H)
    (ho : S.Occurs m) (hc : ∀ pe, m ≠ .command .deviation pe)
    (hd : ∀ pe, m ≠ .contribution .deviation pe) : m ∈ H := by
  -- From the last barrier back to the first: what each of them waited for has arrived.
  have hcost : ∀ pe < S.pes, .contribution .cost pe ∈ H := gathered_iff.1 hg _ (by decide)
  have hsettling : ∀ pe < S.pes, ∀ c ∈ S.settling pe, c ∈ H := fun pe hp =>
    (h.sent _ (hcost pe hp)).2
  have hreorder : ∀ pe < S.pes, .command .reorder pe ∈ H := fun pe hp =>
    hsettling pe hp _ (mem_settling.2 (.inl rfl))
  have hflatten : ∀ pe < S.pes, .command .flatten pe ∈ H := fun pe hp =>
    h.flatten_of_reorder (hreorder pe hp) hp
  have hpartition : ∀ pe < S.pes, .command .partition pe ∈ H := fun pe hp =>
    h.partition_of_flatten (hflatten pe hp) hp
  have hback : ∀ p < S.pes, (∀ q ∈ (S.exports p).keys, .peer .ack q p ∈ H) ∧
      ∀ q ∈ (S.asked p).keys, .peer .reply q p ∈ H := by
    refine fun p hp => ⟨?_, fun q hq => ?_⟩
    · exact (h.distributed_of_gathered (h.gathered (hflatten p hp)) hp).2
    · exact hsettling p hp _ (mem_settling.2 (.inr (.inl ⟨q, hq, rfl⟩)))
  cases m with
  | contribution k pe =>
    cases k with
    | load | setup | elements => exact h.contributed (hpartition pe ho) (by decide) ho
    | distributed => exact h.contributed (hflatten pe ho) (by decide) ho
    | flattened | nodes => exact h.contributed (hreorder pe ho) (by decide) ho
    | cost => exact hcost pe ho
    | deviation => exact absurd rfl (hd pe)
  | command b pe =>
    cases b with
    | partition => exact hpartition pe ho
    | flatten => exact hflatten pe ho
    | reorder => exact hreorder pe ho
    | deviation => exact absurd rfl (hc pe)
  | peer x p q =>
    cases x with
    | add => exact h.there_of_back (e := .units) ((hback p ho.1).1 q ho.2)
    | ack => exact (hback q ho.1).1 p ho.2
    | request => exact h.there_of_back (e := .ids) ((hback p ho.1).2 q ho.2)
    | reply => exact (hback q ho.1).2 p ho.2
  | lower p => exact hsettling (p + 1) ho _ (mem_settling.2 (.inr (.inr ⟨p, rfl, rfl⟩)))

/-- A rank that is done gets nothing any more. -/
theorem History.mem_of_receiver (h : S.History H) (hd : .command .deviation pe ∈ H)
    (ho : S.Occurs m) (hr : m.receiver? = some pe) : m ∈ H := by
  by_cases hm : m = .command .deviation pe
  · exact hm ▸ hd
  · refine h.mem_of_gathered_deviation (h.gathered hd) ho ?_ ?_
    · rintro q rfl
      cases hr
      exact hm rfl
    · rintro q rfl
      cases hr

/-- When everyone is done, the whole run has arrived. -/
theorem History.mem_of_over (h : S.History H) (hover : S.Over H) (hp : 0 < S.pes)
    (ho : S.Occurs m) : m ∈ H := by
  have hdeviation : ∀ pe < S.pes, .command .deviation pe ∈ H := fun pe hpe =>
    h.deviation_of_over hover hpe
  by_cases hm : (∃ pe, m = .command .deviation pe) ∨ ∃ pe, m = .contribution .deviation pe
  · rcases hm with ⟨pe, rfl⟩ | ⟨pe, rfl⟩
    · exact hdeviation pe ho
    · exact hover pe ho
  · obtain ⟨hc, hd⟩ := not_or.1 hm
    exact h.mem_of_gathered_deviation (h.gathered (hdeviation 0 hp)) ho (not_exists.1 hc)
      (not_exists.1 hd)

/-! ### The number of letters -/

theorem home_of_mem_lettersOf (hm : m ∈ S.lettersOf pe) : m.home = pe := by
  simp only [lettersOf, List.mem_append, List.mem_map, List.mem_flatMap] at hm
  rcases hm with (((⟨k, -, rfl⟩ | ⟨b, -, rfl⟩) | ⟨q, -, hm⟩) | ⟨q, -, hm⟩) | hm
  · rfl
  · rfl
  · rcases List.mem_pair.1 hm with rfl | rfl <;> rfl
  · rcases List.mem_pair.1 hm with rfl | rfl <;> rfl
  · split at hm
    · rw [List.mem_singleton.1 hm]
      rfl
    · cases hm

theorem nodup_exchanges (pe : Nat) {x y : Exchange} (hxy : x ≠ y) {l : List Nat} (hl : l.Nodup) :
    (l.flatMap fun q => [Letter.peer x pe q, .peer y q pe]).Nodup := by
  refine List.nodup_flatMap.2 ⟨fun q _ => by simp [hxy], hl.imp fun {q r} hne => ?_⟩
  simp [Function.onFun, hxy, Ne.symm hne, Ne.symm hxy]

theorem nodup_lettersOf : (S.lettersOf pe).Nodup := by
  have hadd := nodup_exchanges pe (x := .add) (y := .ack) (by decide)
    (IdMap.nodup_keys (S.exports pe))
  have hask := nodup_exchanges pe (x := .request) (y := .reply) (by decide)
    (IdMap.nodup_keys (S.asked pe))
  have hlower : (if pe + 1 < S.pes then [Letter.lower pe] else []).Nodup := by
    split <;> simp
  have hdisjoint : ∀ {x y : Exchange} {l : List Nat} {earlier : List Letter},
      (∀ q, .peer x pe q ∉ earlier) → (∀ q, .peer y q pe ∉ earlier) →
      ∀ m ∈ earlier, ∀ m' ∈ l.flatMap fun q => [Letter.peer x pe q, .peer y q pe], m ≠ m' := by
    rintro x y l earlier hx hy m hm _ hm' rfl
    obtain ⟨q, -, hm'⟩ := List.mem_flatMap.1 hm'
    rcases List.mem_pair.1 hm' with rfl | rfl
    · exact hx q hm
    · exact hy q hm
  simp only [lettersOf, List.nodup_append, hadd, hask, hlower, true_and]
  refine ⟨⟨⟨⟨by simp, by simp, by simp⟩, ?_⟩, ?_⟩, ?_⟩
  · exact hdisjoint (by simp) (by simp)
  · exact hdisjoint (by simp) (by simp)
  · rintro m hm _ hm' rfl
    split at hm'
    · obtain rfl := List.mem_singleton.1 hm'
      simp at hm
    · cases hm'

theorem nodup_letters : S.letters.Nodup := by
  refine List.nodup_flatMap.2 ⟨fun pe _ => nodup_lettersOf, List.nodup_range.imp fun hne => ?_⟩
  refine List.disjoint_left.2 fun m hm hm' => hne ?_
  rw [← home_of_mem_lettersOf hm, home_of_mem_lettersOf hm']

theorem length_lettersOf : (S.lettersOf pe).length =
    12 + 2 * (S.exports pe).size + 2 * (S.asked pe).size + if pe + 1 < S.pes then 1 else 0 := by
  have hpairs : ∀ (f g : Nat → Letter) (l : List Nat),
      (l.flatMap fun q => [f q, g q]).length = 2 * l.length := by
    intro f g l
    rw [List.length_flatMap]
    simp [Nat.mul_comm]
  simp only [lettersOf, List.length_append, List.length_map, hpairs, IdMap.length_keys]
  split <;> simp

theorem length_letters (hp : 0 < S.pes) : S.letters.length =
    13 * S.pes - 1 + 2 * (∑ p ∈ Finset.range S.pes, (S.exports p).size +
      ∑ p ∈ Finset.range S.pes, (S.asked p).size) := by
  have hsum : S.letters.length = ∑ p ∈ Finset.range S.pes, (S.lettersOf p).length := by
    rw [letters, List.length_flatMap]
    rfl
  have hlower : (∑ p ∈ Finset.range S.pes, if p + 1 < S.pes then 1 else 0) = S.pes - 1 := by
    have hfilter : (Finset.range S.pes).filter (· + 1 < S.pes) = Finset.range (S.pes - 1) := by
      ext p
      simp only [Finset.mem_filter, Finset.mem_range]
      omega
    rw [Finset.sum_boole, Nat.cast_id, hfilter, Finset.card_range]
  simp only [hsum, length_lettersOf, Finset.sum_add_distrib, hlower, ← Finset.mul_sum,
    Finset.sum_const, Finset.card_range, smul_eq_mul]
  omega

theorem Answered.exportCount_eq (ha : S.Answered) :
    S.exportCount S.assignment = ∑ p ∈ Finset.range S.pes, (S.exports p).size := by
  rw [exportCount, Finset.card_filter, Finset.sum_product]
  refine Finset.sum_congr rfl fun p hp => ?_
  have hlt : p < S.pes := Finset.mem_range.1 hp
  have hkeys : (Finset.range S.pes).filter (S.Exports S.assignment p) =
      (S.exports p).keys.toFinset := by
    ext q
    have hocc : S.Occurs (.peer .add p q) ↔ q ∈ (S.exports p).keys := and_iff_right hlt
    rw [Finset.mem_filter, Finset.mem_range, ha.exports_iff, hocc, List.mem_toFinset]
    exact and_iff_right_of_imp (lt_of_mem_keys_exports (Nat.zero_lt_of_lt hlt))
  rw [← Finset.card_filter, hkeys, List.toFinset_card_of_nodup (IdMap.nodup_keys _),
    IdMap.length_keys]

theorem questionCount_eq : S.questionCount = ∑ p ∈ Finset.range S.pes, (S.asked p).size := by
  refine Finset.sum_congr rfl fun p hp => ?_
  rw [← IdMap.length_entries]
  refine List.countP_eq_length.2 fun e he => ?_
  rw [entries_asked (Finset.mem_range.1 hp)] at he
  obtain ⟨q, hq, rfl⟩ := List.mem_map.1 he
  exact decide_eq_true ((mem_keys_asked (Finset.mem_range.1 hp)).1 hq).2

/-! ### Runs -/

theorem receiver?_of_target (h : (S.parcel m).target = .pe pe) : m.receiver? = some pe := by
  cases m <;> cases h <;> rfl

theorem phase_eq_done_iff {v : View} : S.phase pe v = .done ↔ v.closed = true := by
  unfold phase
  split_ifs <;> simp_all

namespace Follows

theorem isDone_iff {w : Worker} (h : S.Follows H fatal log s)
    (hw : s.ensemble.workers[pe]? = some w) : w.isDone = true ↔ .command .deviation pe ∈ H := by
  obtain ⟨-, rfl⟩ := h.worker_eq hw
  have hclosed : S.phase pe (.of H pe) = .done ↔ .command .deviation pe ∈ H :=
    phase_eq_done_iff.trans decide_eq_true_iff
  rw [← hclosed, Worker.isDone, decide_eq_true_eq]
  by_cases hf : .command .flatten pe ∈ fatal
  · have hn : .command .deviation pe ∉ H := fun hd =>
      h.flatten_not_mem (h.history.reorder_of_deviation hd) hf
    simp [stopped, hf, mt hclosed.1 hn]
  · simp [stopped, hf, worker]

/-- Nothing is on its way to a rank that was told to finish. -/
theorem target_ne (h : S.Follows H fatal log s) (hd : .command .deviation pe ∈ H)
    {c : Parcel} (hc : c ∈ s.pool) : c.target ≠ .pe pe := by
  obtain ⟨m, hs, hn, rfl⟩ := h.exists_of_mem_pool hc
  exact fun ht => hn (h.history.mem_of_receiver hd hs.1 (receiver?_of_target ht))

end Follows

/-- Nothing is on its way to a rank that is done in an honest run, and nothing is sent to it any
more. When the report comes, all ranks are done and nothing is on its way at all, and the number of
deliveries so far is the same in every order. -/
theorem runs_end_quiet (ha : S.Admissible) (hh : S.Honest ids) (hl : S.launch = .ok n)
    (hs : n.Reaches s) :
    (∀ pe w, s.ensemble.workers[pe]? = some w → w.isDone = true →
      ∀ t, s.Reaches t → ∀ c ∈ t.pool, c.target ≠ .pe pe) ∧
    ∀ r, s.ending = some (.ok r) →
      (∀ pe < S.pes, ∃ w, s.ensemble.workers[pe]? = some w ∧ w.isDone = true ∧
        w.numbering.map Numbering.asked = some (S.asked pe)) ∧
      s.pool = [] ∧
      s.delivered = 13 * S.pes - 1 + 2 * (S.exportCount ids + S.questionCount) := by
  constructor
  · intro pe w hw hdone t ht c hc
    obtain ⟨log, hrun⟩ := Network.reaches_iff_exists_run.1 hs
    obtain ⟨more, hrun'⟩ := hrun.exists_run ht
    obtain ⟨H, fatal, h⟩ := hh.follows ha hl hrun
    obtain ⟨H', fatal', h'⟩ := hh.follows ha hl hrun'
    -- The longer log still holds the command that the rank was done with.
    have hd : .command .deviation pe ∈ H := (h.isDone_iff hw).1 hdone
    obtain ⟨d, hd, hcommand⟩ := (h.commanded_log (by decide)).2 hd
    have hd' : .command .deviation pe ∈ H' :=
      (h'.commanded_log (by decide)).1 ⟨d, List.mem_append_left more hd, hcommand⟩
    exact h'.target_ne hd' hc
  · intro r he
    obtain ⟨H, h, ho, -⟩ := reflects_of_finished ha hl hs he
    have hf := h.follows
    have hp : 0 < S.pes := ha.pes_pos
    have hall : ∀ m, S.Occurs m → m ∈ H := fun m hm => h.history.mem_of_over ho hp hm
    have hans : S.Answered := (h.history.finishes ho hp).answered
    refine ⟨fun pe hpe => ?_, ?_, ?_⟩
    · have hw := hf.getElem?_worker hpe
      have hnum := hf.numbering?_eq_of_reorder (hall (.command .reorder pe) hpe)
      rw [Network.numbering?, hw, Option.bind_some] at hnum
      refine ⟨_, hw, (hf.isDone_iff hw).2 (hall (.command .deviation pe) hpe), ?_⟩
      rw [hnum]
      rfl
    · refine List.eq_nil_iff_forall_not_mem.2 fun c hc => ?_
      obtain ⟨m, hs, hn, -⟩ := hf.exists_of_mem_pool hc
      exact hn (hall m hs.1)
    · have hlen : H.length = S.letters.length :=
        (length_eq_iff_subset h.history.nodup nodup_letters fun m hm =>
          mem_letters.2 (h.history.sent m hm).1).2 fun m hm => hall m (mem_letters.1 hm)
      rw [h.delivered, hlen, length_letters hp, ← hans.exportCount_eq, ← questionCount_eq,
        hh.assignment_of_answered hans]

theorem crossed_ends_quiet :
    ∃ n s, crossed.launch = .ok n ∧ n.Reaches s ∧ s.ending = some (.ok crossed.report) ∧
      (∀ pe < crossed.pes, ∃ w, s.ensemble.workers[pe]? = some w ∧ w.isDone = true ∧
        (∀ t, s.Reaches t → ∀ c ∈ t.pool, c.target ≠ .pe pe) ∧
        w.numbering.map Numbering.asked = some (crossed.asked pe)) ∧
      s.pool = [] ∧ s.delivered = 31 := by
  obtain ⟨n, s, hl, hs, he⟩ := finishes_crossed.exists_finished admissible_crossed
  obtain ⟨hquiet, hend⟩ := runs_end_quiet admissible_crossed honest_crossed hl hs
  obtain ⟨hdone, hpool, hdelivered⟩ := hend _ he
  have hexports : crossed.exportCount [1, 0] = 2 := by decide
  have hquestions : crossed.questionCount = 1 := by decide
  rw [hexports, hquestions] at hdelivered
  refine ⟨n, s, hl, hs, he, fun pe hpe => ?_, hpool, hdelivered⟩
  obtain ⟨w, hw, hd, hasked⟩ := hdone pe hpe
  exact ⟨w, hw, hd, hquiet pe w hw hd, hasked⟩

end Scenario
end MeshDecomp
