import MeshDecomp.Proofs.Renumbering

/-! Work units in new ids, and the costs that follow from the bounds. -/
namespace MeshDecomp
namespace Scenario

variable {S : Scenario} {pe unit x : Nat} {sources : List Nat}

theorem mem_content : x ∈ S.content unit ↔ ∃ e ∈ S.placed, e.2 = unit ∧ x ∈ e.1.nodes :=
  mem_nodesOf

theorem mem_nodes_iff : x ∈ S.nodes pe ↔ ∃ unit, S.owner unit = pe ∧ x ∈ S.content unit := by
  rw [mem_nodes]
  constructor
  · rintro ⟨e, he, ho, hx⟩
    exact ⟨e.2, ho, mem_content.2 ⟨e, he, rfl, hx⟩⟩
  · rintro ⟨_, ho, hx⟩
    obtain ⟨e, he, rfl, hxe⟩ := mem_content.1 hx
    exact ⟨e, he, ho, hxe⟩

/-- The work units of a rank are the blocks of its rank. -/
theorem owner_eq_iff (h : pe < S.pes) (hu : unit < S.units) :
    S.owner unit = pe ↔ unit ∈ Block.span S.units S.pes pe := Block.owner_eq_iff h hu

theorem owner_of_mem_span (h : pe < S.pes) (hu : unit ∈ Block.span S.units S.pes pe) :
    S.owner unit = pe :=
  (owner_eq_iff h (hu.2.trans_le (Block.stop_span_le h))).2 hu

theorem buildUnits_eq (hs : S.Supplied pe sources) (ha : S.Answered) (h : pe < S.pes) {w : Worker}
    (ht : w.table = S.table pe sources) (hr : w.rank = pe) (hp : w.pes = S.pes) {n : Numbering}
    (hn : ∀ x ∈ S.nodes pe, n.newId? x = some (S.newId x)) :
    w.buildUnits n S.units = .ok (S.unitsOf pe) := by
  have hp0 : 0 < S.pes := Nat.zero_lt_of_lt h
  have hall : ∀ s : Span, w.unnumbered? n s = none := by
    intro s
    refine List.find?_eq_none.2 fun x hx => ?_
    have hmem : x ∈ w.allNodes := by
      simp only [List.mem_flatMap, List.mem_filter, List.mem_flatten] at hx
      obtain ⟨e, ⟨he, -⟩, l, hl, hx⟩ := hx
      rw [Worker.allNodes, mem_ascending, List.mem_flatten]
      exact ⟨l, List.mem_flatMap.2 ⟨e.2, List.mem_map_of_mem he, hl⟩, hx⟩
    rw [hs.allNodes_eq ha hp0 ht] at hmem
    simp [hn x hmem]
  have hunit : ∀ u ∈ Block.span S.units S.pes pe, w.buildUnit n u = S.unit u := by
    intro u hu
    have ho := owner_of_mem_span h hu
    have hids : ((w.nodesOf u).filterMap fun old => (n.newId? old).map fun new => (new, old)) =
        (S.content u).map fun x => (S.newId x, x) := by
      rw [hs.nodesOf_eq ha hp0 ho ht, ← List.filterMap_eq_map]
      apply List.filterMap_congr
      intro x hx
      rw [hn x (mem_nodes_iff.2 ⟨u, ho, hx⟩)]
      rfl
    simp only [Worker.buildUnit, hids, unit, hr, ho, List.map_map]
    rfl
  simp only [Worker.buildUnits, hp, hr, hall, unitsOf, Except.ok.injEq]
  exact List.map_congr_left fun u hu => hunit u (Span.mem_toList.1 hu)

theorem costOf_eq {n : Numbering} (hnodes : n.nodes = S.nodes pe)
    (hn : ∀ x ∈ S.nodes pe, n.newId? x = some (S.newId x)) :
    Worker.costOf n (S.bounds pe) = S.cost pe := by
  have hids : (S.nodes pe).filterMap n.newId? = (S.nodes pe).map S.newId := by
    rw [← List.filterMap_eq_map]
    exact List.filterMap_congr hn
  simp only [Worker.costOf, cost, hnodes, hids]

end Scenario
end MeshDecomp
