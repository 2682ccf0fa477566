import Mathlib.Combinatorics.SimpleGraph.Connectivity.Connected
import MeshDecomp.Proofs.BoxFaces
import MeshDecomp.Proofs.Reading

/-!
Box meshes: the elements around every face, the links between them, and a way from every piece to
the first piece of the first cell, across one face after the other.
-/

namespace MeshDecomp.Box

open FaceGraph Piece

variable {n : Cell} {P Q : Piece} {e u : Nat} {F : Multiset Nat}

/-! ### The neighbours of a piece -/

theorem within_of_getElem? (h : (pieces n)[e]? = some P) : P.Within n :=
  mem_pieces.1 (List.mem_of_getElem? h)

theorem exists_getElem?_of_within (h : P.Within n) : ∃ e : Nat, (pieces n)[e]? = some P :=
  List.mem_iff_getElem?.1 (mem_pieces.2 h)

theorem exists_getElem?_of_lt (h : e < (ofTets (tets n)).size) : ∃ P, (pieces n)[e]? = some P := by
  rw [size_ofTets, tets_eq_map_pieces, List.length_map] at h
  exact ⟨_, List.getElem?_eq_getElem h⟩

theorem lt_size_of_getElem? (h : (pieces n)[e]? = some P) : e < (ofTets (tets n)).size := by
  rw [size_ofTets, tets_eq_map_pieces, List.length_map]
  exact (List.getElem?_eq_some_iff.1 h).1

theorem getElem?_pieces_inj (he : (pieces n)[e]? = some P) (hu : (pieces n)[u]? = some P) :
    e = u :=
  (List.getElem?_inj (List.getElem?_eq_some_iff.1 he).1 (nodup_pieces n)).1 (he.trans hu.symm)

theorem hasFace_tets :
    HasFace (tets n) e F ↔ ∃ P, (pieces n)[e]? = some P ∧ F ∈ (P.tet n).triples := by
  rw [HasFace, tets_eq_map_pieces]
  simp only [List.getElem?_map, Option.map_eq_some_iff]
  constructor
  · rintro ⟨-, ⟨P, hP, rfl⟩, hF⟩
    exact ⟨P, hP, hF⟩
  · rintro ⟨P, hP, hF⟩
    exact ⟨_, ⟨P, hP, rfl⟩, hF⟩

theorem conforming_tets (n : Cell) : Conforming (tets n) := by
  intro F i j k hi hj hk
  obtain ⟨P, hP, hPF⟩ := hasFace_tets.1 hi
  obtain ⟨Q, hQ, hQF⟩ := hasFace_tets.1 hj
  obtain ⟨R, hR, hRF⟩ := hasFace_tets.1 hk
  obtain ⟨l, rfl⟩ := mem_triples_tet.1 hPF
  have hwithin := within_of_getElem? hP
  rcases (nodes_face_mem_triples_iff hwithin (within_of_getElem? hQ)).1 hQF with rfl | ⟨-, rfl⟩
  · exact .inl (getElem?_pieces_inj hP hQ)
  · rcases (nodes_face_mem_triples_iff hwithin (within_of_getElem? hR)).1 hRF with rfl | ⟨-, rfl⟩
    · exact .inr (.inr (getElem?_pieces_inj hP hR))
    · exact .inr (.inl (getElem?_pieces_inj hQ hR))

theorem mem_neighbours_tets_iff (he : (pieces n)[e]? = some P) (hu : (pieces n)[u]? = some Q) :
    u ∈ (ofTets (tets n)).neighbours e ↔ ∃ k, P.Inner n k ∧ Q = P.across k := by
  have hP := within_of_getElem? he
  have hQ := within_of_getElem? hu
  have hlt : e < (tets n).length := (lt_size_of_getElem? he).trans_eq (size_ofTets _)
  rw [(conforming_tets n).mem_neighbours_iff hlt]
  simp only [hasFace_tets, he, hu, Option.some.injEq, exists_eq_left']
  constructor
  · rintro ⟨hne, F, hPF, hQF⟩
    obtain ⟨k, rfl⟩ := mem_triples_tet.1 hPF
    rcases (nodes_face_mem_triples_iff hP hQ).1 hQF with rfl | hacross
    · exact absurd (getElem?_pieces_inj he hu) hne
    · exact ⟨k, hacross⟩
  · rintro ⟨k, hinner, rfl⟩
    have hne : e ≠ u := by
      rintro rfl
      exact across_ne hP.proper k (Option.some.inj (hu.symm.trans he))
    exact ⟨hne, (P.face k).nodes n, mem_triples_tet.2 ⟨k, rfl⟩,
      (nodes_face_mem_triples_iff hP hQ).2 (.inr ⟨hinner, rfl⟩)⟩

/-- A piece has a neighbour across every face inside the box. -/
theorem length_neighbours_tets (he : (pieces n)[e]? = some P) :
    ((ofTets (tets n)).neighbours e).length =
      ([0, 1, 2, 3] : List (Fin 4)).countP (P.Inner n ·) := by
  have hP := within_of_getElem? he
  have hlt : e < (tets n).length := (lt_size_of_getElem? he).trans_eq (size_ofTets _)
  have hexists {u : Nat} (hu : u ∈ (ofTets (tets n)).neighbours e) :
      ∃ Q, (pieces n)[u]? = some Q :=
    exists_getElem?_of_lt ((lt_of_mem_neighbours hlt hu).trans_eq (size_ofTets _).symm)
  have hleft : (((ofTets (tets n)).neighbours e).map fun u => (pieces n)[u]?).Nodup := by
    refine (List.nodup_map_iff_inj_on (nodup_neighbours_ofTets hlt)).2 fun u hu u' hu' h => ?_
    obtain ⟨Q, hQ⟩ := hexists hu
    exact getElem?_pieces_inj hQ (h.symm.trans hQ)
  have hright : ((([0, 1, 2, 3] : List (Fin 4)).filter (P.Inner n ·)).map fun k =>
      some (P.across k)).Nodup := by
    refine List.Nodup.map ?_ (List.Nodup.filter _ (by decide))
    exact fun k l h => across_injective hP.proper (Option.some.inj h)
  have hperm := (List.perm_ext_iff_of_nodup hleft hright).2 fun x => by
    have hall (k : Fin 4) : k ∈ ([0, 1, 2, 3] : List (Fin 4)) := by fin_cases k <;> decide
    simp only [List.mem_map, List.mem_filter, hall, true_and, decide_eq_true_iff]
    constructor
    · rintro ⟨u, hu, rfl⟩
      obtain ⟨Q, hQ⟩ := hexists hu
      obtain ⟨k, hinner, rfl⟩ := (mem_neighbours_tets_iff he hQ).1 hu
      exact ⟨k, hinner, hQ.symm⟩
    · rintro ⟨k, hinner, rfl⟩
      obtain ⟨u, hu⟩ := exists_getElem?_of_within (hP.across hinner)
      exact ⟨u, (mem_neighbours_tets_iff he hu).2 ⟨k, hinner, rfl⟩, hu⟩
  have hcount := hperm.length_eq
  rwa [List.length_map, List.length_map, ← List.countP_eq_length_filter] at hcount

theorem size_targets_tets (hn : ∀ a, 0 < n.get a) :
    (ofTets (tets n)).targets.size + 4 * sideCells n = 24 * (n.i * n.j * n.k) := by
  have hrows : (List.range (tets n).length).map (fun e =>
      ((ofTets (tets n)).neighbours e).length) =
      (pieces n).map fun P => ([0, 1, 2, 3] : List (Fin 4)).countP (P.Inner n ·) := by
    apply List.ext_getElem
    · simp only [List.length_map, List.length_range, tets_eq_map_pieces]
    · intro e he he'
      rw [List.length_map] at he'
      rw [List.getElem_map, List.getElem_map, List.getElem_range]
      exact length_neighbours_tets (List.getElem?_eq_getElem he')
  rw [size_targets_ofTets, hrows, sum_inner hn]

/-! ### Ways between the pieces -/

/-- From a piece to one across a face. -/
def Crosses (n : Cell) (P Q : Piece) : Prop := ∃ k, P.Inner n k ∧ Q = P.across k

abbrev Leads (n : Cell) : Piece → Piece → Prop := Relation.ReflTransGen (Crosses n)

theorem leads_across {k : Fin 4} (h : P.Inner n k) : Leads n P (P.across k) :=
  .single ⟨k, h, rfl⟩

/-- Within its cell a piece leads to one with any axis last. -/
theorem exists_leads_last (n : Cell) (hP : P.Proper) (a : Axis) :
    ∃ Q, Leads n P Q ∧ Q.Proper ∧ Q.cell = P.cell ∧ Q.third = a := by
  have hcases : a = P.first ∨ a = P.second ∨ a = P.third := by
    obtain ⟨c, b, d, e⟩ := P
    unfold Proper at hP
    cases a <;> cases b <;> cases d <;> cases e <;> simp at hP ⊢
  have hone : Leads n P (P.across 1) := leads_across (k := 1) trivial
  rcases hcases with rfl | rfl | rfl
  · have htwo : Leads n (P.across 1) ((P.across 1).across 2) := leads_across (k := 2) trivial
    exact ⟨_, hone.trans htwo, (hP.across 1).across 2, rfl, rfl⟩
  · exact ⟨_, leads_across (k := 2) trivial, hP.across 2, rfl, rfl⟩
  · exact ⟨P, .refl, hP, rfl, rfl⟩

/-- The first piece of the first cell. -/
def firstPiece : Piece := ⟨⟨0, 0, 0⟩, .x, .y, .z⟩

/-- Cell by cell, every piece leads down to the first one. -/
theorem leads_firstPiece (n : Cell) (hP : P.Proper) : Leads n P firstPiece := by
  induction hheight : P.cell.height generalizing P with
  | zero =>
    obtain ⟨Q, hPQ, hQ, hcell, hlast⟩ := exists_leads_last n hP .z
    refine hPQ.trans ?_
    obtain ⟨⟨i, j, k⟩, a, b, d⟩ := Q
    obtain ⟨rfl, rfl, rfl⟩ : i = 0 ∧ j = 0 ∧ k = 0 := by
      rw [← hcell, Cell.height] at hheight
      dsimp only at hheight
      omega
    obtain rfl : d = .z := hlast
    rcases eq_or_swapped (d := .z) (a := .x) (b := .y) (by decide) hQ with ⟨rfl, rfl⟩ | ⟨rfl, rfl⟩
    · exact .refl
    · exact leads_across (k := 1) trivial
  | succ m ih =>
    obtain ⟨a, ha⟩ : ∃ a, 0 < P.cell.get a := by
      by_contra! hnone
      have hx : P.cell.i ≤ 0 := hnone .x
      have hy : P.cell.j ≤ 0 := hnone .y
      have hz : P.cell.k ≤ 0 := hnone .z
      rw [Cell.height] at hheight
      omega
    obtain ⟨Q, hPQ, hQ, hcell, rfl⟩ := exists_leads_last n hP a
    rw [← hcell] at ha hheight
    have hdown : (Q.across 3).cell.height = m := by
      have hstep := (Q.cell.back Q.third).height_step Q.third
      rw [Cell.step_back ha, hheight] at hstep
      exact Nat.succ.inj hstep.symm
    exact (hPQ.trans (leads_across (k := 3) ha)).trans (ih (hQ.across 3) hdown)

/-- Where a piece leads to another, a path in the graph connects them. -/
theorem exists_reachable (h : Leads n P Q) {e : Fin (ofTets (tets n)).size}
    (he : (pieces n)[e.1]? = some P) :
    ∃ u : Fin (ofTets (tets n)).size, (pieces n)[u.1]? = some Q ∧
      (undirected_ofTets (tets n)).graph.Reachable e u := by
  induction h with
  | refl => exact ⟨e, he, .refl e⟩
  | tail _ hcross ih =>
    obtain ⟨u, hu, hreach⟩ := ih
    obtain ⟨k, hinner, rfl⟩ := hcross
    obtain ⟨v, hv⟩ := exists_getElem?_of_within ((within_of_getElem? hu).across hinner)
    have hmem := (mem_neighbours_tets_iff hu hv).2 ⟨k, hinner, rfl⟩
    have hlt := lt_size_of_getElem? hv
    have hadj : (undirected_ofTets (tets n)).graph.Adj u ⟨v, hlt⟩ := hmem
    exact ⟨⟨v, hlt⟩, hv, hreach.trans hadj.reachable⟩

theorem connected_tets (hn : ∀ a, 0 < n.get a) :
    (undirected_ofTets (tets n)).graph.Connected := by
  have hinside : firstPiece.cell.Inside n := by
    rintro (_ | _ | _)
    exacts [hn .x, hn .y, hn .z]
  have hfirst : firstPiece.Within n := ⟨hinside, nofun, nofun, nofun⟩
  obtain ⟨b, hb⟩ := exists_getElem?_of_within hfirst
  have hdown (e : Fin (ofTets (tets n)).size) : (undirected_ofTets (tets n)).graph.Reachable e
      ⟨b, lt_size_of_getElem? hb⟩ := by
    obtain ⟨P, he⟩ := exists_getElem?_of_lt e.2
    obtain ⟨u, hu, hreach⟩ :=
      exists_reachable (leads_firstPiece n (within_of_getElem? he).proper) he
    have hub : u = ⟨b, lt_size_of_getElem? hb⟩ := Fin.ext (getElem?_pieces_inj hu hb)
    rwa [hub] at hreach
  have : Nonempty (Fin (ofTets (tets n)).size) := ⟨⟨b, lt_size_of_getElem? hb⟩⟩
  exact ⟨fun e u => (hdown e).trans (hdown u).symm⟩

/-! ### The meshes -/

/-- The boxes that become a mesh. -/
theorem mesh_eq_ok_iff (hn : ∀ a, 0 < n.get a) {lo hi : Point} {m : TetMesh} :
    mesh n lo hi = .ok m ↔ (∀ a, (lo.get a).lt (hi.get a) = true) ∧ nodeCount n ≤ maxNodes ∧
      24 * (n.i * n.j * n.k) ≤ maxIds ∧ m = ⟨tets n, coordinates n lo hi⟩ := by
  have hcells : ¬ (n.i = 0 ∨ n.j = 0 ∨ n.k = 0) := by
    rintro (h | h | h)
    exacts [(hn .x).ne' h, (hn .y).ne' h, (hn .z).ne' h]
  have hall (a : Axis) : a ∈ Axis.all := by cases a <;> decide
  rw [mesh, if_neg hcells]
  cases hfind : Axis.all.find? fun a => !(lo.get a).lt (hi.get a) with
  | some a =>
    have hempty : ¬ (lo.get a).lt (hi.get a) = true := by
      simpa using List.find?_some hfind
    exact iff_of_false nofun fun h => hempty (h.1 a)
  | none =>
    have hextent : ∀ a, (lo.get a).lt (hi.get a) = true := fun a => by
      simpa using List.find?_eq_none.1 hfind a (hall a)
    rw [and_iff_right hextent]
    dsimp only
    split
    · next hfull => exact iff_of_false nofun fun h => by omega
    · next hroom =>
      rw [not_or, Nat.not_lt, Nat.not_lt] at hroom
      rw [and_iff_right hroom.1, and_iff_right hroom.2, Except.ok.injEq, eq_comm]

/-- All nodes of a box mesh have coordinates. -/
theorem isComplete_mesh (hn : ∀ a, 0 < n.get a) (lo hi : Point) :
    (TetMesh.mk (tets n) (coordinates n lo hi)).IsComplete := by
  intro t ht v hv
  have hcorner := corner_cornerOf ((exists_mem_nodes_iff hn).1 ⟨t, ht, hv⟩)
  have hinside : (cornerOf n v).Inside ⟨n.i + 1, n.j + 1, n.k + 1⟩ := by
    rintro (_ | _ | _)
    exacts [Nat.lt_succ_of_le (hcorner .x), Nat.lt_succ_of_le (hcorner .y),
      Nat.lt_succ_of_le (hcorner .z)]
  apply IdMap.mem_keys_iff.1
  refine IdMap.mem_keys_ofList.2 ⟨corner n lo hi (cornerOf n v), ?_⟩
  exact List.mem_map.2 ⟨cornerOf n v, Cell.mem_grid.2 hinside, by rw [node_cornerOf]⟩

/-- Box meshes are conforming: every face inside the box belongs to two elements and every face on a
side to one. Their graphs are connected, and the check of a new mesh passes them. -/
theorem box_meshes_conform (hn : ∀ a, 0 < n.get a) :
    (∀ lo hi m, mesh n lo hi = .ok m ↔ (∀ a, (lo.get a).lt (hi.get a) = true) ∧
      nodeCount n ≤ maxNodes ∧ 24 * (n.i * n.j * n.k) ≤ maxIds ∧
        m = ⟨tets n, coordinates n lo hi⟩) ∧
    (∀ lo hi, TetMesh.ofFlat (Tet.flatten (tets n)) (coordinates n lo hi) =
      .ok ⟨tets n, coordinates n lo hi⟩) ∧
    (tets n).length = 6 * (n.i * n.j * n.k) ∧
    (∀ t ∈ tets n, t.nodes.Nodup) ∧
    (∀ v, (∃ t ∈ tets n, v ∈ t.nodes) ↔ v < (n.i + 1) * (n.j + 1) * (n.k + 1)) ∧
    (∀ F ∈ triangles (tets n), (sharers (tets n) F = 1 ∨ sharers (tets n) F = 2) ∧
      (sharers (tets n) F = 1 ↔ OnSide n F)) ∧
    ((triangles (tets n)).toFinset.filter fun F => sharers (tets n) F = 1).card =
      4 * (n.i * n.j + n.j * n.k + n.i * n.k) ∧
    ∃ g, FaceGraph.ofFlat (Tet.flatten (tets n)) = .ok g ∧ g.size = (tets n).length ∧
      g.targets.size + 4 * (n.i * n.j + n.j * n.k + n.i * n.k) = 24 * (n.i * n.j * n.k) ∧
      ∃ hg : g.Undirected, hg.graph.Connected := by
  have hfaces : ∀ F ∈ triangles (tets n), (sharers (tets n) F = 1 ∨ sharers (tets n) F = 2) ∧
      (sharers (tets n) F = 1 ↔ OnSide n F) := by
    intro F hF
    obtain ⟨P, hP, k, rfl⟩ := mem_triangles.1 hF
    rw [sharers_face hP, onSide_face_iff hP]
    by_cases hinner : P.Inner n k <;> simp [hinner]
  have hgraph : FaceGraph.ofFlat (Tet.flatten (tets n)) = .ok (ofTets (tets n)) := by
    rw [FaceGraph.ofFlat, Tet.ofFlat_flatten, Tet.length_flatten, Nat.mul_mod_right]
    rfl
  exact ⟨fun lo hi m => mesh_eq_ok_iff hn,
    fun lo hi => TetMesh.isComplete_iff.1 (isComplete_mesh hn lo hi), length_tets n,
    fun t => nodup_nodes, fun v => exists_mem_nodes_iff hn, hfaces, card_sharers_eq_one hn, _,
    hgraph, size_ofTets _, size_targets_tets hn, undirected_ofTets _, connected_tets hn⟩

/-- Two cells along the second axis. -/
theorem pair_of_cells_conforms :
    (∀ a, 0 < (Cell.mk 1 2 1).get a) ∧ (tets ⟨1, 2, 1⟩).length = 12 ∧
      ∃ g, FaceGraph.ofFlat (Tet.flatten (tets ⟨1, 2, 1⟩)) = .ok g ∧ g.targets.size = 28 ∧
        ∃ hg : g.Undirected, hg.graph.Connected := by
  have hn : ∀ a, 0 < (Cell.mk 1 2 1).get a := by
    rintro (_ | _ | _) <;> decide
  obtain ⟨-, -, hlen, -, -, -, -, g, hg, -, htargets, hconnected⟩ := box_meshes_conform hn
  exact ⟨hn, hlen, g, hg, Nat.add_right_cancel (m := 20) htargets, hconnected⟩

end MeshDecomp.Box
