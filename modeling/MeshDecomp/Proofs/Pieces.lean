import Mathlib.Tactic.FinCases
import MeshDecomp.Proofs.Grids
import MeshDecomp.Proofs.SharedFaces

/-!
The six pieces of every cell and their faces. Two pieces of a grid have a face in common exactly if
one lies across the face of the other: in the same cell with two neighbouring axes exchanged, or in
the next cell with the axes rotated.
-/

namespace MeshDecomp.Box

/-- A tetrahedron of a cell, with the axes in the order in which its walk takes them. -/
structure Piece where
  cell : Cell
  first : Axis
  second : Axis
  third : Axis
  deriving DecidableEq

/-- Three corners, from the lowest to the highest. -/
@[ext] structure Triangle where
  low : Cell
  mid : Cell
  high : Cell

def Triangle.nodes (n : Cell) (T : Triangle) : Multiset Nat :=
  {node n T.low, node n T.mid, node n T.high}

namespace Piece

/-- The walk takes every axis. -/
def Proper (P : Piece) : Prop := P.first ≠ P.second ∧ P.first ≠ P.third ∧ P.second ≠ P.third

def tet (n : Cell) (P : Piece) : Tet := walk n P.cell (P.first, P.second, P.third)

/-- The face without the corner that the walk reaches after `k` steps. -/
def face (P : Piece) (k : Fin 4) : Triangle :=
  let c₁ := P.cell.step P.first
  let c₂ := c₁.step P.second
  let c₃ := c₂.step P.third
  match k with
  | 0 => ⟨c₁, c₂, c₃⟩
  | 1 => ⟨P.cell, c₂, c₃⟩
  | 2 => ⟨P.cell, c₁, c₃⟩
  | 3 => ⟨P.cell, c₁, c₂⟩

/-- The piece across a face. -/
def across (P : Piece) (k : Fin 4) : Piece :=
  match k with
  | 0 => ⟨P.cell.step P.first, P.second, P.third, P.first⟩
  | 1 => ⟨P.cell, P.second, P.first, P.third⟩
  | 2 => ⟨P.cell, P.first, P.third, P.second⟩
  | 3 => ⟨P.cell.back P.third, P.third, P.first, P.second⟩

/-- The face is not on a side of the grid. -/
def Inner (P : Piece) (n : Cell) (k : Fin 4) : Prop :=
  match k with
  | 0 => P.cell.get P.first + 1 < n.get P.first
  | 1 => True
  | 2 => True
  | 3 => 0 < P.cell.get P.third

instance (P : Piece) (n : Cell) : (k : Fin 4) → Decidable (P.Inner n k)
  | 0 => inferInstanceAs (Decidable (P.cell.get P.first + 1 < n.get P.first))
  | 1 => inferInstanceAs (Decidable True)
  | 2 => inferInstanceAs (Decidable True)
  | 3 => inferInstanceAs (Decidable (0 < P.cell.get P.third))

/-- A piece of a cell of the grid. -/
structure Within (P : Piece) (n : Cell) : Prop where
  inside : P.cell.Inside n
  proper : P.Proper

variable {n : Cell} {P Q : Piece} {k l : Fin 4}

/-! ### Pieces with a face in common -/

/-- Two axes determine the third. -/
theorem third_eq {a b d d' : Axis} (h : a ≠ b ∧ a ≠ d ∧ b ≠ d) (h' : a ≠ b ∧ a ≠ d' ∧ b ≠ d') :
    d = d' := by
  cases a <;> cases b <;> cases d <;> cases d' <;> simp at h h' ⊢

/-- The last axis determines the others up to their order. -/
theorem eq_or_swapped {a b a' b' d : Axis} (h : a ≠ b ∧ a ≠ d ∧ b ≠ d)
    (h' : a' ≠ b' ∧ a' ≠ d ∧ b' ≠ d) : a' = a ∧ b' = b ∨ a' = b ∧ b' = a := by
  cases a <;> cases b <;> cases d <;> cases a' <;> cases b' <;> simp at h h' ⊢

theorem face_zero (P : Piece) : P.face 0 = (P.across 0).face 3 := rfl

theorem eq_of_face_three (hP : P.Proper) (hQ : Q.Proper) (h : P.face 3 = Q.face 3) : P = Q := by
  obtain ⟨c, a, b, d⟩ := P
  obtain ⟨c', a', b', d'⟩ := Q
  obtain ⟨hlow, hmid, hhigh⟩ := Triangle.mk.inj h
  dsimp only at hlow hmid hhigh
  subst hlow
  obtain rfl := Cell.axis_of_step hmid
  obtain rfl := Cell.axis_of_step hhigh
  obtain rfl := third_eq hP hQ
  rfl

theorem eq_or_of_face_one (hP : P.Proper) (hQ : Q.Proper) (h : P.face 1 = Q.face 1) :
    Q = P ∨ Q = P.across 1 := by
  obtain ⟨c, a, b, d⟩ := P
  obtain ⟨c', a', b', d'⟩ := Q
  obtain ⟨hlow, hmid, hhigh⟩ := Triangle.mk.inj h
  dsimp only at hlow hmid hhigh
  subst hlow
  rw [hmid] at hhigh
  obtain rfl := Cell.axis_of_step hhigh
  rcases eq_or_swapped hP hQ with ⟨rfl, rfl⟩ | ⟨rfl, rfl⟩
  · exact .inl rfl
  · exact .inr rfl

theorem eq_or_of_face_two (hP : P.Proper) (hQ : Q.Proper) (h : P.face 2 = Q.face 2) :
    Q = P ∨ Q = P.across 2 := by
  obtain ⟨c, a, b, d⟩ := P
  obtain ⟨c', a', b', d'⟩ := Q
  obtain ⟨hlow, hmid, -⟩ := Triangle.mk.inj h
  dsimp only at hlow hmid
  subst hlow
  obtain rfl := Cell.axis_of_step hmid
  rcases eq_or_swapped ⟨hP.2.2, hP.1.symm, hP.2.1.symm⟩ ⟨hQ.2.2, hQ.1.symm, hQ.2.1.symm⟩ with
    ⟨rfl, rfl⟩ | ⟨rfl, rfl⟩
  · exact .inl rfl
  · exact .inr rfl

theorem Proper.across (h : P.Proper) (k : Fin 4) : (P.across k).Proper := by
  obtain ⟨h₁, h₂, h₃⟩ := h
  fin_cases k
  · exact ⟨h₃, h₁.symm, h₂.symm⟩
  · exact ⟨h₁.symm, h₃, h₂⟩
  · exact ⟨h₂, h₁, h₃.symm⟩
  · exact ⟨h₂.symm, h₃.symm, h₁⟩

/-- The distances between the corners tell most faces apart. -/
theorem index_of_face_eq (h : P.face k = Q.face l) :
    (k = 0 ∨ k = 3) ∧ (l = 0 ∨ l = 3) ∨ k = 1 ∧ l = 1 ∨ k = 2 ∧ l = 2 := by
  have hlow := congrArg (·.low.height) h
  have hmid := congrArg (·.mid.height) h
  have hhigh := congrArg (·.high.height) h
  fin_cases k <;> fin_cases l <;> simp [face] at hlow hmid hhigh ⊢ <;> omega

theorem face_injective (h : P.face k = P.face l) : k = l := by
  have hlow := congrArg (·.low.height) h
  have hmid := congrArg (·.mid.height) h
  have hhigh := congrArg (·.high.height) h
  fin_cases k <;> fin_cases l <;> simp [face] at hlow hmid hhigh ⊢

/-- Pieces with a face in common lie across it. -/
theorem eq_or_across_of_face_eq (hP : P.Within n) (hQ : Q.Within n) (h : P.face k = Q.face l) :
    Q = P ∨ P.Inner n k ∧ Q = P.across k := by
  have hback (P : Piece) : (P.across 0).across 3 = P :=
    congrArg (Piece.mk · P.first P.second P.third) (P.cell.back_step P.first)
  rcases index_of_face_eq h with ⟨rfl | rfl, rfl | rfl⟩ | ⟨rfl, rfl⟩ | ⟨rfl, rfl⟩
  · rw [face_zero P, face_zero Q] at h
    have hrotated := eq_of_face_three (hP.proper.across 0) (hQ.proper.across 0) h
    have heq := congrArg (across · 3) hrotated
    simp only [hback] at heq
    exact .inl heq.symm
  · rw [face_zero P] at h
    have heq := eq_of_face_three (hP.proper.across 0) hQ.proper h
    have hinside := hQ.inside P.first
    rw [← heq] at hinside
    exact .inr ⟨(P.cell.get_step_self P.first).symm.trans_lt hinside, heq.symm⟩
  · rw [face_zero Q] at h
    obtain rfl := eq_of_face_three hP.proper (hQ.proper.across 0) h
    refine .inr ⟨?_, (hback Q).symm⟩
    exact (Nat.succ_pos _).trans_eq (Q.cell.get_step_self Q.first).symm
  · exact .inl (eq_of_face_three hP.proper hQ.proper h).symm
  · exact (eq_or_of_face_one hP.proper hQ.proper h).imp_right fun h => ⟨trivial, h⟩
  · exact (eq_or_of_face_two hP.proper hQ.proper h).imp_right fun h => ⟨trivial, h⟩

/-- The piece across a face has the face. -/
theorem exists_face_across (h : P.Inner n k) : ∃ l, (P.across k).face l = P.face k := by
  obtain ⟨c, a, b, d⟩ := P
  fin_cases k
  · exact ⟨3, rfl⟩
  · exact ⟨1, congrArg (fun e => Triangle.mk c e (e.step d)) (c.step_comm b a)⟩
  · exact ⟨2, congrArg (Triangle.mk c (c.step a)) ((c.step a).step_comm d b)⟩
  · have hcell : (c.back d).step d = c := Cell.step_back h
    exact ⟨0, congrArg (fun e => Triangle.mk e (e.step a) ((e.step a).step b)) hcell⟩

theorem Within.across (hP : P.Within n) (h : P.Inner n k) : (P.across k).Within n := by
  refine ⟨?_, hP.proper.across k⟩
  obtain ⟨c, a, b, d⟩ := P
  intro e
  have hinside : c.get e < n.get e := hP.inside e
  fin_cases k
  · change (c.step a).get e < n.get e
    change c.get a + 1 < n.get a at h
    rw [Cell.get_step]
    split
    · next hae => exact hae ▸ h
    · exact hinside
  · exact hinside
  · exact hinside
  · have hstep := (c.back d).get_step d e
    rw [Cell.step_back h] at hstep
    exact (Nat.le_of_add_right_le hstep.symm.le).trans_lt hinside

/-- Across every face lies another piece. -/
theorem across_ne (hP : P.Proper) (k : Fin 4) : P.across k ≠ P := by
  obtain ⟨c, a, b, d⟩ := P
  obtain ⟨hab, had, hbd⟩ := hP
  fin_cases k <;> intro h <;> simp_all [across]

theorem across_injective (hP : P.Proper) (h : P.across k = P.across l) : k = l := by
  obtain ⟨c, a, b, d⟩ := P
  obtain ⟨hab, had, hbd⟩ := hP
  fin_cases k <;> fin_cases l <;> simp_all [across]

/-! ### The nodes of the faces -/

/-- A walk ends one step further along every axis. -/
theorem get_top (hP : P.Proper) (e : Axis) :
    (((P.cell.step P.first).step P.second).step P.third).get e = P.cell.get e + 1 := by
  obtain ⟨c, a, b, d⟩ := P
  unfold Proper at hP
  simp only [Cell.get_step, Nat.add_assoc]
  cases a <;> cases b <;> cases d <;> cases e <;> simp at hP ⊢

theorem Within.corner_face (hP : P.Within n) (k : Fin 4) :
    (P.face k).low.Corner n ∧ (P.face k).mid.Corner n ∧ (P.face k).high.Corner n := by
  have htop : (((P.cell.step P.first).step P.second).step P.third).Corner n := by
    intro e
    rw [get_top hP.proper]
    exact hP.inside e
  have hmid := htop.of_step
  have hlow := hmid.of_step
  have hcell := hlow.of_step
  fin_cases k
  · exact ⟨hlow, hmid, htop⟩
  · exact ⟨hcell, hmid, htop⟩
  · exact ⟨hcell, hlow, htop⟩
  · exact ⟨hcell, hlow, hmid⟩

theorem node_face_lt (n : Cell) (P : Piece) (k : Fin 4) :
    node n (P.face k).low < node n (P.face k).mid ∧
      node n (P.face k).mid < node n (P.face k).high := by
  have hfirst := node_lt_node_step n P.cell P.first
  have hsecond := node_lt_node_step n (P.cell.step P.first) P.second
  have hthird := node_lt_node_step n ((P.cell.step P.first).step P.second) P.third
  fin_cases k
  · exact ⟨hsecond, hthird⟩
  · exact ⟨hfirst.trans hsecond, hthird⟩
  · exact ⟨hfirst, hsecond.trans hthird⟩
  · exact ⟨hfirst, hsecond⟩

/-- Faces are told apart by their nodes. -/
theorem face_eq_of_nodes_eq (hP : P.Within n) (hQ : Q.Within n)
    (h : (P.face k).nodes n = (Q.face l).nodes n) : P.face k = Q.face l := by
  have hsorted (P : Piece) (k : Fin 4) := (node_face_lt n P k).imp Nat.le_of_lt Nat.le_of_lt
  obtain ⟨hlow, hmid, hhigh⟩ :=
    Face.mk.inj (Face.eq_of_nodes_eq (hsorted P k) (hsorted Q l) h)
  obtain ⟨hPlow, hPmid, hPhigh⟩ := hP.corner_face k
  obtain ⟨hQlow, hQmid, hQhigh⟩ := hQ.corner_face l
  exact Triangle.ext (node_injective hPlow hQlow hlow) (node_injective hPmid hQmid hmid)
    (node_injective hPhigh hQhigh hhigh)

theorem triples_tet (n : Cell) (P : Piece) :
    (P.tet n).triples = [0, 1, 2, 3].map fun k => (P.face k).nodes n := rfl

theorem mem_triples_tet {F : Multiset Nat} :
    F ∈ (P.tet n).triples ↔ ∃ k, (P.face k).nodes n = F := by
  have hall (k : Fin 4) : k ∈ ([0, 1, 2, 3] : List (Fin 4)) := by fin_cases k <;> decide
  simp only [triples_tet, List.mem_map, hall, true_and]

/-- Only the piece across a face has the face, too. -/
theorem nodes_face_mem_triples_iff (hP : P.Within n) (hQ : Q.Within n) :
    (P.face k).nodes n ∈ (Q.tet n).triples ↔ Q = P ∨ P.Inner n k ∧ Q = P.across k := by
  rw [mem_triples_tet]
  constructor
  · rintro ⟨l, h⟩
    exact eq_or_across_of_face_eq hP hQ (face_eq_of_nodes_eq hQ hP h).symm
  · rintro (rfl | ⟨hinner, rfl⟩)
    · exact ⟨k, rfl⟩
    · obtain ⟨l, hl⟩ := exists_face_across hinner
      exact ⟨l, congrArg (Triangle.nodes n) hl⟩

end Piece

/-! ### The pieces of a grid -/

/-- The pieces of all cells, in the order of the elements. -/
def pieces (n : Cell) : List Piece :=
  (Cell.grid n).flatMap fun c => orders.map fun o => ⟨c, o.1, o.2.1, o.2.2⟩

theorem tets_eq_map_pieces (n : Cell) : tets n = (pieces n).map (Piece.tet n) := by
  simp only [tets, pieces, List.map_flatMap, List.map_map]
  rfl

theorem mem_orders {a b d : Axis} : (a, b, d) ∈ orders ↔ a ≠ b ∧ a ≠ d ∧ b ≠ d := by
  cases a <;> cases b <;> cases d <;> decide

theorem mem_pieces {n : Cell} {P : Piece} : P ∈ pieces n ↔ P.Within n := by
  obtain ⟨c, a, b, d⟩ := P
  simp only [pieces, List.mem_flatMap, Cell.mem_grid, List.mem_map]
  constructor
  · rintro ⟨c, hc, ⟨a, b, d⟩, ho, ⟨⟩⟩
    exact ⟨hc, mem_orders.1 ho⟩
  · rintro ⟨hc, ho⟩
    exact ⟨c, hc, (a, b, d), mem_orders.2 ho, rfl⟩

theorem nodup_pieces (n : Cell) : (pieces n).Nodup := by
  unfold pieces
  rw [List.nodup_flatMap]
  constructor
  · intro c _
    refine List.Nodup.map ?_ (by decide)
    rintro ⟨a, b, d⟩ ⟨a', b', d'⟩ ⟨⟩
    rfl
  · refine (Cell.nodup_grid n).imp fun {c c'} hne P hP hP' => ?_
    obtain ⟨o, -, rfl⟩ := List.mem_map.1 hP
    obtain ⟨o', -, h⟩ := List.mem_map.1 hP'
    exact hne (congrArg Piece.cell h).symm

end MeshDecomp.Box
