import MeshDecomp.Proofs.NewIds

/-! The bounds of a finished run tile the new ids: every rank but the last stops one id before the
block that the next rank numbers. -/
namespace MeshDecomp
namespace Scenario

variable {S : Scenario} {pe x : Nat}

/-- Where the bounds of a rank start; behind the last rank, the end of all new ids. -/
def edge (S : Scenario) (pe : Nat) : Nat := if pe < S.pes then S.start pe - 1 else S.used.length

theorem start_zero : S.start 0 = 0 := by
  simp [start]

namespace Answered

/-- A rank starts to number where the rank before it stops. -/
theorem start_succ (h : S.Answered) (hpe : pe < S.pes) :
    S.start (pe + 1) = S.start pe + (S.held pe pe).length := by
  have hheld : S.held pe pe = S.used.filter fun x => S.holder x = pe :=
    (h.covers (Nat.zero_lt_of_lt hpe)).filter_holder (getElem?_sets hpe)
  rw [start, Sharing.countP_lt_succ, hheld,
    List.countP_eq_length_filter (p := fun x => decide (_ = pe))]
  rfl

/-- All used nodes are numbered before the rank behind the last one. -/
theorem start_pes (h : S.Answered) (hp : 0 < S.pes) : S.start S.pes = S.used.length := by
  apply List.countP_eq_length.2
  intro x hx
  exact decide_eq_true (h.holder_lowest hp hx).1

/-- A rank uses no node that a later rank numbers. -/
theorem newId_lt_start (h : S.Answered) (hpe : pe < S.pes) (hx : x ∈ S.nodes pe) :
    S.newId x < S.start (pe + 1) := by
  have hused : x ∈ S.used := h.mem_used_of_mem_nodes hpe hx
  have hle : S.holder x ≤ pe := holder_le hpe hx
  unfold newId start Sharing.place
  rw [List.countP_eq_length_filter, List.countP_eq_length_filter]
  apply length_lt_of_not_mem (nodup_used.filter _) (x := x)
  · intro y hy
    obtain ⟨hmem, hlt⟩ := List.mem_filter.1 hy
    refine List.mem_filter.2 ⟨hmem, decide_eq_true (Nat.lt_succ_of_le (Nat.le_trans ?_ hle))⟩
    exact (of_decide_eq_true hlt).elim Nat.le_of_lt fun h => Nat.le_of_eq h.1
  · exact List.mem_filter.2 ⟨hused, decide_eq_true (Nat.lt_succ_of_le hle)⟩
  · simp

/-- A rank that numbers nodes uses the last id of its block. -/
theorem exists_newId_last (h : S.Answered) (hpe : pe < S.pes) (hne : S.held pe pe ≠ []) :
    ∃ x ∈ S.nodes pe, S.newId x + 1 = S.start (pe + 1) := by
  have hlen : (S.held pe pe).length - 1 < (S.held pe pe).length :=
    Nat.sub_one_lt (mt List.length_eq_zero_iff.1 hne)
  have hzip := congrArg (·[(S.held pe pe).length - 1]?)
    (zipIdx_held hpe (h.covers (Nat.zero_lt_of_lt hpe)))
  simp only [List.getElem?_zipIdx, List.getElem?_map, List.getElem?_eq_getElem hlen,
    Option.map_some, Option.some.injEq, Prod.mk.injEq, true_and] at hzip
  refine ⟨_, (mem_held.1 (List.getElem_mem hlen)).1, ?_⟩
  rw [h.start_succ hpe]
  omega

end Answered

namespace Finishes

variable (hf : S.Finishes)

include hf

/-- Every rank creates a work unit, so it uses some node. -/
theorem nodes_ne_nil (hpe : pe < S.pes) : S.nodes pe ≠ [] := by
  have hw : 0 < Block.width S.units S.pes :=
    Nat.div_pos hf.answered.pes_le_units (Nat.zero_lt_of_lt hpe)
  have hmem : pe * Block.width S.units S.pes ∈ Block.span S.units S.pes pe := by
    simp only [Span.mem_def, Block.span, Block.count]
    omega
  obtain ⟨x, hx⟩ := List.exists_mem_of_ne_nil _ (vacant?_eq_none_iff.1 (hf.occupied pe hpe) _ hmem)
  exact List.ne_nil_of_mem (Scenario.mem_nodes_iff.2 ⟨_, owner_of_mem_span hpe hmem, hx⟩)

theorem start_succ_pos (hpe : pe < S.pes) : 0 < S.start (pe + 1) := by
  obtain ⟨x, hx⟩ := List.exists_mem_of_ne_nil _ (hf.nodes_ne_nil hpe)
  exact Nat.zero_lt_of_lt (hf.answered.newId_lt_start hpe hx)

/-- The ids in the work units of a rank are the new ids of its nodes. -/
theorem highest_le_iff (hpe : pe < S.pes) {b : Nat} :
    S.highest pe ≤ b ↔ ∀ x ∈ S.nodes pe, S.newId x ≤ b := by
  have hp : 0 < S.pes := Nat.zero_lt_of_lt hpe
  simp only [highest, foldl_max_le_iff, Nat.zero_le, true_and, List.mem_flatMap, unitsOf,
    List.mem_map, Span.mem_toList]
  constructor
  · intro hall x hx
    obtain ⟨unit, hu, hown, hx⟩ := (hf.mem_nodes_iff hp).1 hx
    exact hall _ ⟨_, ⟨unit, (owner_eq_iff hpe hu).1 hown, rfl⟩, List.mem_map_of_mem hx⟩
  · rintro hall _ ⟨_, ⟨unit, hu, rfl⟩, hmem⟩
    obtain ⟨x, hx, rfl⟩ := List.mem_map.1 hmem
    exact hall x (Scenario.mem_nodes_iff.2 ⟨unit, owner_of_mem_span hpe hu, hx⟩)

theorem highest_lt_start (hpe : pe < S.pes) : S.highest pe < S.start (pe + 1) := by
  have hpos := hf.start_succ_pos hpe
  have hle : S.highest pe ≤ S.start (pe + 1) - 1 :=
    (hf.highest_le_iff hpe).2 fun x hx => Nat.le_sub_one_of_lt (hf.answered.newId_lt_start hpe hx)
  omega

/-- The highest id of a rank closes its block; a rank without a block uses lower ids only. -/
theorem max_highest_eq (hpe : pe < S.pes) :
    max (S.highest pe) (S.start pe - 1) = S.start (pe + 1) - 1 := by
  have hlt := hf.highest_lt_start hpe
  have hsucc := hf.answered.start_succ hpe
  by_cases hne : S.held pe pe = []
  · rw [hne, List.length_nil, Nat.add_zero] at hsucc
    omega
  · obtain ⟨x, hx, hlast⟩ := hf.answered.exists_newId_last hpe hne
    have hge : S.newId x ≤ S.highest pe := (hf.highest_le_iff hpe).1 (Nat.le_refl _) x hx
    omega

theorem lower_eq (hpe : pe < S.pes) : S.lower pe = S.start pe - 1 := by
  induction pe with
  | zero => rw [start_zero]; rfl
  | succ pe ih =>
    have hlt : pe < S.pes := Nat.lt_of_succ_lt hpe
    rw [lower, upperFrom, if_neg (Nat.ne_of_lt hpe), ih hlt, hf.max_highest_eq hlt]

theorem upper_eq (hpe : pe + 1 < S.pes) : S.upper pe = S.start (pe + 1) - 1 :=
  hf.lower_eq hpe

/-- The last rank stops behind the last new id. -/
theorem upper_last (hpe : pe + 1 = S.pes) : S.upper pe = S.used.length := by
  have hlt : pe < S.pes := hpe ▸ Nat.lt_succ_self pe
  have hsucc := hf.answered.start_succ hlt
  have hhigh := hf.highest_lt_start hlt
  have hblock : (S.block pe).stop = S.start (pe + 1) := hsucc.symm
  rw [upper, upperFrom, if_pos hpe, hf.lower_eq hlt, hblock,
    ← hf.answered.start_pes (hpe ▸ Nat.succ_pos pe), ← hpe]
  omega

/-! ### Tiling -/

theorem bounds_eq (hpe : pe < S.pes) : S.bounds pe = ⟨S.edge pe, S.edge (pe + 1)⟩ := by
  have hfirst : S.edge pe = S.lower pe := by rw [edge, if_pos hpe, hf.lower_eq hpe]
  have hstop : S.edge (pe + 1) = S.upper pe := by
    unfold edge
    split
    · next hlt => exact (hf.upper_eq hlt).symm
    · next hlt => exact (hf.upper_last (by omega)).symm
  rw [hfirst, hstop]
  rfl

theorem edge_le_succ (hpe : pe < S.pes) : S.edge pe ≤ S.edge (pe + 1) := by
  have hsucc := hf.answered.start_succ hpe
  rw [edge, if_pos hpe]
  unfold edge
  split
  · omega
  · next hlt =>
    have hlast : pe + 1 = S.pes := by omega
    rw [← hf.answered.start_pes (hlast ▸ Nat.succ_pos pe), ← hlast]
    omega

/-- The bounds in rank order are all new ids in their order. -/
theorem flatMap_bounds (hp : 0 < S.pes) :
    (List.range S.pes).flatMap (fun pe => (S.bounds pe).toList) = List.range S.used.length := by
  have h0 : S.edge 0 = 0 := by rw [edge, if_pos hp, start_zero]
  have hall := Span.flatMap_toList h0 (fun pe hpe => hf.bounds_eq hpe)
    fun pe hpe => hf.edge_le_succ hpe
  rwa [edge, if_neg (Nat.lt_irrefl _)] at hall

end Finishes

theorem length_used : S.used.length = S.mesh.connectivity.toFinset.card := length_ascending _

/-- In every run that finishes, with the starts that the sharing of the node sets gives: rank zero
is bounded below by zero, every other rank by one less than its start, and every rank but the last
is bounded above by one less than the start of the next, the last one by the number of nodes. So
the bounds in rank order are all new ids, without a gap and each once. -/
theorem bounds_tile_new_ids {n s : Network} {r : Report} (ha : S.Admissible)
    (hl : S.launch = .ok n) (hs : n.Reaches s) (he : s.ending = some (.ok r)) :
    ∃ (sets : List (List Nat)) (start : Nat → Nat) (bounds : Nat → Span),
      s.ensemble.workers.map (fun w => w.numbering.map Numbering.nodes) = sets.map some ∧
      (∀ pe < S.pes, (Sharing.ofSets sets).starts[pe]? = some (start pe)) ∧
      (Sharing.ofSets sets).total = r.nodes ∧ r.nodes = S.mesh.connectivity.toFinset.card ∧
      s.ensemble.workers.map Worker.bounds = (List.range S.pes).map (fun pe => some (bounds pe)) ∧
      (∀ pe < S.pes, s.collector.bounds.get? pe = some (bounds pe)) ∧
      (bounds 0).first = 0 ∧
      (∀ pe, pe + 1 < S.pes → (bounds (pe + 1)).first + 1 = start (pe + 1) ∧
        (bounds pe).stop + 1 = start (pe + 1) ∧ (bounds pe).stop = (bounds (pe + 1)).first) ∧
      (bounds (S.pes - 1)).stop = r.nodes ∧
      (∀ pe < S.pes, (bounds pe).first ≤ (bounds pe).stop) ∧
      (List.range S.pes).flatMap (fun pe => (bounds pe).toList) = List.range r.nodes := by
  have hp : 0 < S.pes := ha.pes_pos
  obtain ⟨H, h, ho, rfl⟩ := reflects_of_finished ha hl hs he
  have hf : S.Finishes := h.history.finishes ho hp
  have hcovers : Sharing.Covers S.used S.sets := hf.answered.covers hp
  have hlast : S.pes - 1 + 1 = S.pes := Nat.sub_add_cancel hp
  refine ⟨S.sets, S.start, S.bounds, ?_, ?_, hcovers.total_eq, length_used, ?_, ?_, rfl, ?_,
    hf.upper_last hlast, ?_, hf.flatMap_bounds hp⟩
  · rw [h.ensemble, ensemble, sets, List.map_map, List.map_map]
    apply List.map_congr_left
    intro pe hpe
    have hflat : (View.of H pe).flattened = true :=
      decide_eq_true (h.history.flatten_of_over ho (List.mem_range.1 hpe))
    simp only [Function.comp, worker, hflat, ↓reduceIte, Option.map_some]
    rfl
  · intro pe hpe
    exact hcovers.starts_getElem? (by simpa [sets] using hpe)
  · rw [h.ensemble, ensemble, List.map_map]
    apply List.map_congr_left
    intro pe hpe
    exact bounds_of_over h ho (List.mem_range.1 hpe)
  · intro pe hpe
    rw [collected_bounds_of_over h ho, IdMap.get?_ofList_map, if_pos (List.mem_range.2 hpe)]
  · intro pe hpe
    have hpos := hf.start_succ_pos (Nat.lt_of_succ_lt hpe)
    have hlower := hf.lower_eq hpe
    have hupper := hf.upper_eq hpe
    simp only [Scenario.bounds]
    omega
  · intro pe hpe
    rw [hf.bounds_eq hpe]
    exact hf.edge_le_succ hpe

theorem pair_bounds_tile_new_ids :
    ∃ n s, pair.launch = .ok n ∧ n.Reaches s ∧ s.ending = some (.ok pair.report) ∧
      ∃ (sets : List (List Nat)) (start : Nat → Nat) (bounds : Nat → Span),
        s.ensemble.workers.map (fun w => w.numbering.map Numbering.nodes) = sets.map some ∧
        (∀ pe < pair.pes, (Sharing.ofSets sets).starts[pe]? = some (start pe)) ∧
        (Sharing.ofSets sets).total = pair.report.nodes ∧
        pair.report.nodes = pair.mesh.connectivity.toFinset.card ∧
        s.ensemble.workers.map Worker.bounds =
          (List.range pair.pes).map (fun pe => some (bounds pe)) ∧
        (∀ pe < pair.pes, s.collector.bounds.get? pe = some (bounds pe)) ∧
        (bounds 0).first = 0 ∧
        (∀ pe, pe + 1 < pair.pes → (bounds (pe + 1)).first + 1 = start (pe + 1) ∧
          (bounds pe).stop + 1 = start (pe + 1) ∧ (bounds pe).stop = (bounds (pe + 1)).first) ∧
        (bounds (pair.pes - 1)).stop = pair.report.nodes ∧
        (∀ pe < pair.pes, (bounds pe).first ≤ (bounds pe).stop) ∧
        (List.range pair.pes).flatMap (fun pe => (bounds pe).toList) =
          List.range pair.report.nodes := by
  obtain ⟨n, s, hl, hs, he⟩ := finishes_pair.exists_finished admissible_pair
  exact ⟨n, s, hl, hs, he, bounds_tile_new_ids admissible_pair hl hs he⟩

end Scenario
end MeshDecomp
