import Mathlib.Algebra.BigOperators.Group.List.Basic
import Mathlib.Data.Finset.Card
import MeshDecomp.Proofs.Lists
import MeshDecomp.Proofs.Pieces

/-!
The faces of a box mesh. A face belongs to one piece if it lies on a side of the box and to two
otherwise; every cell on a side has two faces there.
-/

namespace MeshDecomp.Box

open Piece

variable {n : Cell} {P Q : Piece} {k : Fin 4} {F : Multiset Nat}

/-! ### Elements and nodes -/

theorem length_tets (n : Cell) : (tets n).length = 6 * (n.i * n.j * n.k) := by
  have horders (c : Cell) : (orders.map (walk n c)).length = 6 := rfl
  rw [tets, List.length_flatMap]
  simp only [horders, List.map_const', List.sum_replicate_nat, Cell.length_grid]
  exact Nat.mul_comm _ 6

theorem length_pieces (n : Cell) : (pieces n).length = 6 * (n.i * n.j * n.k) := by
  rw [← length_tets, tets_eq_map_pieces, List.length_map]

theorem nodup_nodes {t : Tet} (h : t ∈ tets n) : t.nodes.Nodup := by
  rw [tets_eq_map_pieces] at h
  obtain ⟨P, -, rfl⟩ := List.mem_map.1 h
  have hfirst := node_lt_node_step n P.cell P.first
  have hsecond := node_lt_node_step n (P.cell.step P.first) P.second
  have hthird := node_lt_node_step n ((P.cell.step P.first).step P.second) P.third
  have hascending : (P.tet n).nodes.Pairwise (· < ·) := by
    simp only [Tet.nodes, tet, walk, List.pairwise_cons, List.mem_cons, List.not_mem_nil, or_false,
      forall_eq_or_imp, forall_eq, false_imp_iff, implies_true, List.Pairwise.nil, and_true]
    omega
  exact hascending.imp Nat.ne_of_lt

/-- Every corner belongs to a piece: of the cell above it, or of the last cell before it along the
axes where the grid ends. -/
theorem exists_piece_of_corner (hn : ∀ a, 0 < n.get a) {c : Cell} (hc : c.Corner n) :
    ∃ P, Within P n ∧ node n c ∈ (P.tet n).nodes := by
  obtain ⟨i, j, k⟩ := c
  have hcell {x m : Nat} (hx : x ≤ m) (hm : 0 < m) : ∃ y < m, x = y ∨ x = y + 1 :=
    ⟨min x (m - 1), by omega, by omega⟩
  obtain ⟨i, hi, hx⟩ := hcell (hc .x) (hn .x)
  obtain ⟨j, hj, hy⟩ := hcell (hc .y) (hn .y)
  obtain ⟨k, hk, hz⟩ := hcell (hc .z) (hn .z)
  have hinside : (⟨i, j, k⟩ : Cell).Inside n := by
    rintro (_ | _ | _)
    exacts [hi, hj, hk]
  have hfound (o : Axis × Axis × Axis) (ho : o ∈ orders) {v : Nat}
      (hv : v ∈ (walk n ⟨i, j, k⟩ o).nodes) : ∃ P, Within P n ∧ v ∈ (P.tet n).nodes :=
    ⟨⟨_, o.1, o.2.1, o.2.2⟩, ⟨hinside, mem_orders.1 ho⟩, hv⟩
  simp only [Cell.get] at hx hy hz
  rcases hx with rfl | rfl <;> rcases hy with rfl | rfl <;> rcases hz with rfl | rfl
  · exact hfound (.x, .y, .z) (by decide) (by simp [walk, Tet.nodes])
  · exact hfound (.z, .x, .y) (by decide) (by simp [walk, Tet.nodes, Cell.step])
  · exact hfound (.y, .x, .z) (by decide) (by simp [walk, Tet.nodes, Cell.step])
  · exact hfound (.y, .z, .x) (by decide) (by simp [walk, Tet.nodes, Cell.step])
  · exact hfound (.x, .y, .z) (by decide) (by simp [walk, Tet.nodes, Cell.step])
  · exact hfound (.x, .z, .y) (by decide) (by simp [walk, Tet.nodes, Cell.step])
  · exact hfound (.x, .y, .z) (by decide) (by simp [walk, Tet.nodes, Cell.step])
  · exact hfound (.x, .y, .z) (by decide) (by simp [walk, Tet.nodes, Cell.step])

/-- Every number below the number of corners is a node, and no other. -/
theorem exists_mem_nodes_iff (hn : ∀ a, 0 < n.get a) {v : Nat} :
    (∃ t ∈ tets n, v ∈ t.nodes) ↔ v < nodeCount n := by
  simp only [tets_eq_map_pieces, List.mem_map, exists_exists_and_eq_and, mem_pieces]
  constructor
  · rintro ⟨P, hP, hv⟩
    obtain ⟨hcell, -, htop⟩ := hP.corner_face 1
    obtain ⟨hfirst, hsecond, -⟩ := hP.corner_face 0
    simp only [tet, walk, Tet.nodes, List.mem_cons, List.not_mem_nil, or_false] at hv
    rcases hv with rfl | rfl | rfl | rfl
    exacts [node_lt hcell, node_lt hfirst, node_lt hsecond, node_lt htop]
  · intro hv
    obtain ⟨P, hP, hmem⟩ := exists_piece_of_corner hn (corner_cornerOf hv)
    rw [node_cornerOf] at hmem
    exact ⟨P, hP, hmem⟩

/-! ### The elements with a face -/

/-- The number of elements with a face. -/
def sharers (ts : List Tet) (F : Multiset Nat) : Nat := ts.countP fun t => F ∈ t.triples

/-- The faces of all elements, once for each element. -/
def triangles (ts : List Tet) : List (Multiset Nat) := ts.flatMap Tet.triples

theorem mem_triangles :
    F ∈ triangles (tets n) ↔ ∃ P : Piece, P.Within n ∧ ∃ k, (P.face k).nodes n = F := by
  simp only [triangles, tets_eq_map_pieces, List.mem_flatMap, List.mem_map,
    exists_exists_and_eq_and, mem_triples_tet, mem_pieces]

theorem sharers_face (hP : P.Within n) :
    sharers (tets n) ((P.face k).nodes n) = if P.Inner n k then 2 else 1 := by
  have hcount {l : List Piece} (hl : l.Nodup)
      (h : ∀ Q, Q ∈ l ↔ Q = P ∨ P.Inner n k ∧ Q = P.across k) :
      sharers (tets n) ((P.face k).nodes n) = l.length := by
    rw [sharers, tets_eq_map_pieces, List.countP_map, ← List.countP_true]
    refine countP_eq_of_nodup (nodup_pieces n) hl fun Q => ?_
    rw [mem_pieces, Function.comp_apply, decide_eq_true_iff, and_iff_left rfl, h]
    constructor
    · rintro ⟨hQ, hface⟩
      exact (nodes_face_mem_triples_iff hP hQ).1 hface
    · intro hQ
      have hwithin : Q.Within n := by
        rcases hQ with rfl | ⟨hinner, rfl⟩
        exacts [hP, hP.across hinner]
      exact ⟨hwithin, (nodes_face_mem_triples_iff hP hwithin).2 hQ⟩
  by_cases hinner : P.Inner n k
  · rw [if_pos hinner]
    have hpair : [P, P.across k].Nodup := by simp [(across_ne hP.proper k).symm]
    exact hcount hpair fun Q => by simp [hinner]
  · rw [if_neg hinner]
    exact hcount (List.nodup_singleton P) fun Q => by simp [hinner]

/-! ### The sides of the box -/

/-- All nodes of a face lie on one side of the box. -/
def OnSide (n : Cell) (F : Multiset Nat) : Prop :=
  ∃ a, ∃ v, (v = 0 ∨ v = n.get a) ∧ ∀ x ∈ F, ∃ c : Cell, c.Corner n ∧ node n c = x ∧ c.get a = v

theorem onSide_face_iff (hP : P.Within n) : OnSide n ((P.face k).nodes n) ↔ ¬ P.Inner n k := by
  obtain ⟨hlow, hmid, hhigh⟩ := hP.corner_face k
  have hcorner {c : Cell} (hc : c.Corner n) (a : Axis) (v : Nat) :
      (∃ d : Cell, d.Corner n ∧ node n d = node n c ∧ d.get a = v) ↔ c.get a = v := by
    constructor
    · rintro ⟨d, hd, hnode, hv⟩
      rwa [node_injective hd hc hnode] at hv
    · exact fun hv => ⟨c, hc, rfl, hv⟩
  have hnodes : OnSide n ((P.face k).nodes n) ↔ ∃ a, ∃ v, (v = 0 ∨ v = n.get a) ∧
      (P.face k).low.get a = v ∧ (P.face k).mid.get a = v ∧ (P.face k).high.get a = v := by
    simp only [OnSide, Triangle.nodes, Multiset.insert_eq_cons, Multiset.mem_cons,
      Multiset.mem_singleton, forall_eq_or_imp, forall_eq, hcorner hlow, hcorner hmid,
      hcorner hhigh]
  rw [hnodes]
  have htop := get_top hP.proper
  have hinside := hP.inside
  have hproper := hP.proper
  obtain ⟨c, a, b, d⟩ := P
  obtain ⟨hab, had, hbd⟩ := hproper
  dsimp only at hab had hbd htop hinside
  -- from the lowest to the highest corner every coordinate changes
  have hchange (e : Axis) : c.get e ≠ (((c.step a).step b).step d).get e := by
    rw [htop]
    exact (Nat.succ_ne_self _).symm
  fin_cases k
  · -- the corners agree along the first axis, at the top of the cell
    change (∃ e v, _ ∧ (c.step a).get e = v ∧ ((c.step a).step b).get e = v ∧
      (((c.step a).step b).step d).get e = v) ↔ ¬ c.get a + 1 < n.get a
    constructor
    · rintro ⟨e, v, hv, hlow, -, hhigh⟩
      have hsame := hlow.trans hhigh.symm
      rw [htop, Cell.get_step, Nat.add_left_cancel_iff, ite_eq_left_iff] at hsame
      obtain rfl : a = e := by
        by_contra hne
        exact absurd (hsame hne) Nat.zero_ne_one
      rw [Cell.get_step_self] at hlow
      omega
    · intro hend
      have htop := htop a
      have hinside := hinside a
      have hmid := ((c.step a).get_step_of_ne hab.symm).trans (c.get_step_self a)
      exact ⟨a, c.get a + 1, .inr (by omega), c.get_step_self a, hmid, htop⟩
  · refine iff_of_false ?_ (not_not.2 trivial)
    rintro ⟨e, v, -, hlow, -, hhigh⟩
    exact hchange e (hlow.trans hhigh.symm)
  · refine iff_of_false ?_ (not_not.2 trivial)
    rintro ⟨e, v, -, hlow, -, hhigh⟩
    exact hchange e (hlow.trans hhigh.symm)
  · -- the corners agree along the last axis, at the bottom of the cell
    change (∃ e v, _ ∧ c.get e = v ∧ (c.step a).get e = v ∧ ((c.step a).step b).get e = v) ↔
      ¬ 0 < c.get d
    constructor
    · rintro ⟨e, v, hv, hlow, hmid, hhigh⟩
      have hae : a ≠ e := by
        rintro rfl
        rw [Cell.get_step_self] at hmid
        omega
      have hbe : b ≠ e := by
        rintro rfl
        rw [Cell.get_step_self] at hhigh
        omega
      obtain rfl := third_eq ⟨hab, had, hbd⟩ ⟨hab, hae, hbe⟩
      have := hinside d
      omega
    · intro hstart
      have hmid := c.get_step_of_ne had
      have hhigh := ((c.step a).get_step_of_ne hbd).trans hmid
      exact ⟨d, c.get d, .inl (by omega), rfl, hmid, hhigh⟩

/-! ### How many faces lie inside and on the sides -/

/-- Pairs are counted from both ends. -/
theorem sum_countP_comm (l : List α) (m : List β) (p : α → β → Bool) :
    (l.map fun x => m.countP (p x)).sum = (m.map fun y => l.countP (p · y)).sum := by
  induction l with
  | nil => simp
  | cons x l ih =>
    have hone := sum_map_ite (p x) 1 m
    simp only [List.map_cons, List.sum_cons, List.countP_cons, List.sum_map_add, ih, hone]
    omega

theorem countP_pieces (n : Cell) (p : Piece → Bool) : (pieces n).countP p =
    (orders.map fun o => (Cell.grid n).countP fun c => p ⟨c, o.1, o.2.1, o.2.2⟩).sum := by
  rw [← sum_countP_comm, pieces, List.countP_flatMap]
  simp only [Function.comp_def, List.countP_map]

theorem countP_lt_last {m : Nat} (hm : 0 < m) :
    (List.range m).countP (fun x => x + 1 < m) + 1 = m := by
  have hbetween : (List.range m).countP (fun x => x + 1 < m) =
      (List.range m).countP fun x => 0 ≤ x ∧ x < m - 1 := by
    apply List.countP_congr
    intro x _
    rw [decide_eq_true_iff, decide_eq_true_iff]
    omega
  rw [hbetween, Run.countP_range_between]
  omega

theorem countP_pos {m : Nat} (hm : 0 < m) : (List.range m).countP (fun x => 0 < x) + 1 = m := by
  have hbetween : (List.range m).countP (fun x => 0 < x) =
      (List.range m).countP fun x => 1 ≤ x ∧ x < m := by
    apply List.countP_congr
    intro x hx
    have hlt := List.mem_range.1 hx
    rw [decide_eq_true_iff, decide_eq_true_iff]
    omega
  rw [hbetween, Run.countP_range_between]
  omega

theorem get_mul_layer (n : Cell) (a : Axis) : n.get a * Cell.layer n a = n.i * n.j * n.k := by
  cases a with
  | x => exact (Nat.mul_assoc _ _ _).symm
  | y => exact (Nat.mul_left_comm _ _ _).trans (Nat.mul_assoc _ _ _).symm
  | z => exact Nat.mul_comm _ _

/-- The number of cells at the sides across the three axes, one side each. -/
def sideCells (n : Cell) : Nat := n.i * n.j + n.j * n.k + n.i * n.k

/-- A layer across each axis is cut off in two of the orders. -/
theorem sum_layers (n : Cell) :
    (orders.map fun o => Cell.layer n o.1).sum = 2 * sideCells n ∧
      (orders.map fun o => Cell.layer n o.2.2).sum = 2 * sideCells n := by
  simp only [orders, List.map_cons, List.map_nil, List.sum_cons, List.sum_nil, Cell.layer,
    sideCells]
  omega

/-- Where every order of a cell loses the cells of a layer, the pieces lose the layers of all
orders. -/
theorem countP_inner {k : Fin 4} (f : Axis × Axis × Axis → Axis)
    (h : ∀ o, (Cell.grid n).countP (fun c => (Piece.mk c o.1 o.2.1 o.2.2).Inner n k) +
      Cell.layer n (f o) = n.i * n.j * n.k) :
    (pieces n).countP (fun P => P.Inner n k) + (orders.map fun o => Cell.layer n (f o)).sum =
      6 * (n.i * n.j * n.k) := by
  rw [countP_pieces, ← List.sum_map_add, List.map_congr_left fun o _ => h o, List.map_const',
    List.sum_replicate_nat]
  rfl

/-- Every side cuts off the pieces of one layer, those of two orders in each cell. -/
theorem sum_inner (hn : ∀ a, 0 < n.get a) :
    ((pieces n).map fun P => ([0, 1, 2, 3] : List (Fin 4)).countP (P.Inner n ·)).sum +
      4 * sideCells n = 24 * (n.i * n.j * n.k) := by
  have hlen := length_pieces n
  obtain ⟨hfirst, hlast⟩ := sum_layers n
  have hzero : (pieces n).countP (fun P => P.Inner n 0) + _ = _ := countP_inner (·.1) fun o => by
    have hcells : (Cell.grid n).countP (fun c => (Piece.mk c o.1 o.2.1 o.2.2).Inner n 0) =
        (List.range (n.get o.1)).countP (fun x => x + 1 < n.get o.1) * Cell.layer n o.1 :=
      Cell.countP_grid n o.1 fun x => x + 1 < n.get o.1
    rw [hcells, ← Nat.succ_mul, Nat.succ_eq_add_one, countP_lt_last (hn o.1), get_mul_layer]
  have hthree : (pieces n).countP (fun P => P.Inner n 3) + _ = _ := countP_inner (·.2.2) fun o => by
    have hcells : (Cell.grid n).countP (fun c => (Piece.mk c o.1 o.2.1 o.2.2).Inner n 3) =
        (List.range (n.get o.2.2)).countP (fun x => 0 < x) * Cell.layer n o.2.2 :=
      Cell.countP_grid n o.2.2 fun x => 0 < x
    rw [hcells, ← Nat.succ_mul, Nat.succ_eq_add_one, countP_pos (hn o.2.2), get_mul_layer]
  have hone : (pieces n).countP (fun P => P.Inner n 1) = (pieces n).length :=
    List.countP_eq_length.2 fun P _ => decide_eq_true trivial
  have htwo : (pieces n).countP (fun P => P.Inner n 2) = (pieces n).length :=
    List.countP_eq_length.2 fun P _ => decide_eq_true trivial
  rw [sum_countP_comm]
  simp only [List.map_cons, List.map_nil, List.sum_cons, List.sum_nil, hone, htwo]
  omega

theorem nodup_triples (hP : P.Within n) : (P.tet n).triples.Nodup := by
  rw [triples_tet]
  refine List.Nodup.map (fun k l h => ?_) (by decide)
  exact face_injective (face_eq_of_nodes_eq hP hP h)

/-- A face comes once for every element that has it. -/
theorem count_triangles (n : Cell) (F : Multiset Nat) :
    (triangles (tets n)).count F = sharers (tets n) F := by
  have hone : (tets n).map (fun t => t.triples.count F) =
      (tets n).map fun t => if F ∈ t.triples then 1 else 0 := by
    apply List.map_congr_left
    intro t ht
    rw [tets_eq_map_pieces] at ht
    obtain ⟨P, hP, rfl⟩ := List.mem_map.1 ht
    exact (nodup_triples (mem_pieces.1 hP)).count
  have hsum := sum_map_ite (fun t : Tet => decide (F ∈ t.triples)) 1 (tets n)
  simp only [decide_eq_true_iff] at hsum
  rw [triangles, List.count_flatMap, Function.comp_def, hone, hsum, Nat.mul_one, sharers]

/-- As many faces belong to one element as there are sides of cells on the sides of the box. -/
theorem card_sharers_eq_one (hn : ∀ a, 0 < n.get a) :
    ((triangles (tets n)).toFinset.filter fun F => sharers (tets n) F = 1).card =
      4 * sideCells n := by
  have hfilter : (triangles (tets n)).toFinset.filter (fun F => sharers (tets n) F = 1) =
      ((triangles (tets n)).filter fun F => sharers (tets n) F = 1).toFinset := by
    ext F
    simp
  have hnodup : ((triangles (tets n)).filter fun F => sharers (tets n) F = 1).Nodup := by
    rw [List.nodup_iff_count_le_one]
    intro F
    by_cases hF : sharers (tets n) F = 1
    · rw [List.count_filter (p := fun F => decide (sharers (tets n) F = 1)) (decide_eq_true hF),
        count_triangles, hF]
    · rw [List.count_eq_zero_of_not_mem]
      · exact Nat.zero_le 1
      · exact fun hmem => hF (of_decide_eq_true (List.mem_filter.1 hmem).2)
  have houter : ∀ P ∈ pieces n, (P.tet n).triples.countP (fun F => sharers (tets n) F = 1) +
      ([0, 1, 2, 3] : List (Fin 4)).countP (P.Inner n ·) = 4 := by
    intro P hP
    have hone : (P.tet n).triples.countP (fun F => sharers (tets n) F = 1) =
        ([0, 1, 2, 3] : List (Fin 4)).countP fun k => ¬ decide (P.Inner n k) = true := by
      rw [triples_tet, List.countP_map]
      refine List.countP_congr fun k _ => ?_
      rw [Function.comp_apply, sharers_face (mem_pieces.1 hP)]
      by_cases hinner : P.Inner n k <;> simp [hinner]
    rw [hone, Nat.add_comm]
    exact (List.length_eq_countP_add_countP (P.Inner n ·)).symm
  have hsum : ((pieces n).map fun P => (P.tet n).triples.countP fun F =>
      sharers (tets n) F = 1).sum + ((pieces n).map fun P =>
        ([0, 1, 2, 3] : List (Fin 4)).countP (P.Inner n ·)).sum = 4 * (pieces n).length := by
    rw [← List.sum_map_add, List.map_congr_left houter, List.map_const', List.sum_replicate_nat,
      Nat.mul_comm]
  have hinner := sum_inner hn
  rw [length_pieces] at hsum
  rw [hfilter, List.toFinset_card_of_nodup hnodup, ← List.countP_eq_length_filter, triangles,
    List.countP_flatMap, tets_eq_map_pieces, List.map_map]
  rw [tets_eq_map_pieces] at hsum
  change (((pieces n).map _).sum : Nat) = _
  simp only [Function.comp_def] at hsum ⊢
  omega

end MeshDecomp.Box
