import Mathlib.Combinatorics.SimpleGraph.Basic
import Mathlib.Data.Multiset.ZeroCons
import MeshDecomp.Proofs.GrowthLookups

/-!
Neighbours in the face graph are elements that share a face. A face is linked through the first
element that has it, so a face of two elements links them, and a face of three or more links the
first of them to each of the others, and those not to each other.
-/

namespace MeshDecomp

namespace Face

/-- The nodes of a face, in no order. -/
def nodes (f : Face) : Multiset Nat := {f.a, f.b, f.c}

theorem ascending_ofNodes (x y z : Nat) :
    (ofNodes x y z).a ≤ (ofNodes x y z).b ∧ (ofNodes x y z).b ≤ (ofNodes x y z).c := by
  unfold ofNodes
  dsimp only
  split
  · next hlow => exact ⟨hlow, min_le_max⟩
  · next hlow =>
    split
    · next hhigh => exact ⟨Nat.le_of_not_le hlow, hhigh⟩
    · next hhigh => exact ⟨min_le_max, Nat.le_of_not_le hhigh⟩

theorem nodes_ofNodes (x y z : Nat) : (ofNodes x y z).nodes = {x, y, z} := by
  have hpair : ({min x y, max x y} : Multiset Nat) = {x, y} := by
    rcases Nat.le_total x y with h | h
    · rw [min_eq_left h, max_eq_right h]
    · rw [min_eq_right h, max_eq_left h, Multiset.pair_comm]
  have hlast : ({x, y, z} : Multiset Nat) = z ::ₘ {x, y} := by
    rw [Multiset.pair_comm y z]
    exact Multiset.cons_swap x z {y}
  rw [hlast, ← hpair]
  unfold ofNodes
  dsimp only
  split
  · rfl
  · split
    · exact Multiset.cons_swap (min x y) z {max x y}
    · change min x y ::ₘ {max x y, z} = _
      rw [Multiset.pair_comm (max x y) z]
      exact Multiset.cons_swap _ _ _

/-- Sorted faces are told apart by their nodes. -/
theorem eq_of_nodes_eq {f g : Face} (hf : f.a ≤ f.b ∧ f.b ≤ f.c) (hg : g.a ≤ g.b ∧ g.b ≤ g.c)
    (h : f.nodes = g.nodes) : f = g := by
  have hperm : [f.a, f.b, f.c].Perm [g.a, g.b, g.c] := Multiset.coe_eq_coe.1 h
  have hsorted {e : Face} (he : e.a ≤ e.b ∧ e.b ≤ e.c) : [e.a, e.b, e.c].Pairwise (· ≤ ·) := by
    simp [he, he.1.trans he.2]
  have heq := hperm.eq_of_pairwise (fun a b _ _ => Nat.le_antisymm) (hsorted hf) (hsorted hg)
  obtain ⟨a, b, c⟩ := f
  obtain ⟨a', b', c'⟩ := g
  simpa using heq

end Face

namespace Tet

/-- The nodes of the four faces, each in no order. -/
def triples (t : Tet) : List (Multiset Nat) :=
  [{t.b, t.c, t.d}, {t.a, t.c, t.d}, {t.a, t.b, t.d}, {t.a, t.b, t.c}]

theorem map_nodes_faces (t : Tet) : t.faces.map Face.nodes = t.triples := by
  simp [faces, triples, Face.nodes_ofNodes]

theorem ascending_of_mem_faces {t : Tet} {f : Face} (h : f ∈ t.faces) : f.a ≤ f.b ∧ f.b ≤ f.c := by
  simp only [faces, List.mem_cons, List.not_mem_nil, or_false] at h
  rcases h with rfl | rfl | rfl | rfl <;> exact Face.ascending_ofNodes _ _ _

end Tet

namespace FaceGraph

variable {ts : List Tet} {e u : Nat} {f : Face} {F : Multiset Nat}

/-- Element `e` has a face with the nodes `F`. -/
def HasFace (ts : List Tet) (e : Nat) (F : Multiset Nat) : Prop :=
  ∃ t, ts[e]? = some t ∧ F ∈ t.triples

theorem mem_allFaces : (f, e) ∈ allFaces ts ↔ ∃ t, ts[e]? = some t ∧ f ∈ t.faces := by
  simp [allFaces, List.mem_zipIdx_iff_getElem?]

theorem hasFace_iff : HasFace ts e F ↔ ∃ f, (f, e) ∈ allFaces ts ∧ f.nodes = F := by
  simp only [HasFace, mem_allFaces, ← Tet.map_nodes_faces, List.mem_map]
  constructor
  · rintro ⟨t, ht, f, hf, rfl⟩
    exact ⟨f, ⟨t, ht, hf⟩, rfl⟩
  · rintro ⟨f, ⟨t, ht, hf⟩, rfl⟩
    exact ⟨t, ht, f, hf, rfl⟩

theorem lt_of_hasFace (h : HasFace ts e F) : e < ts.length := by
  obtain ⟨t, ht, -⟩ := h
  exact (List.getElem?_eq_some_iff.1 ht).1

/-- A face among those of the elements is told by its nodes. -/
theorem hasFace_nodes_iff (hf : (f, u) ∈ allFaces ts) :
    HasFace ts e f.nodes ↔ (f, e) ∈ allFaces ts := by
  rw [hasFace_iff]
  constructor
  · rintro ⟨g, hg, hnodes⟩
    obtain ⟨s, -, hs⟩ := mem_allFaces.1 hf
    obtain ⟨t, -, ht⟩ := mem_allFaces.1 hg
    rwa [Face.eq_of_nodes_eq (Tet.ascending_of_mem_faces ht) (Tet.ascending_of_mem_faces hs)
      hnodes] at hg
  · exact fun h => ⟨f, h, rfl⟩

/-- The faces come in the order of their elements. -/
theorem pairwise_allFaces (ts : List Tet) : (allFaces ts).Pairwise (·.2 ≤ ·.2) := by
  have horder : (ts.zipIdx.map Prod.snd).Pairwise (· ≤ ·) := by
    rw [List.zipIdx_map_snd]
    exact List.pairwise_le_range'
  rw [allFaces, List.pairwise_flatMap]
  constructor
  · intro t _
    rw [List.pairwise_map]
    exact List.pairwise_of_forall fun _ _ => Nat.le_refl _
  · refine (List.pairwise_map.1 horder).imp fun {s t} hle f hf g hg => ?_
    obtain ⟨-, -, rfl⟩ := List.mem_map.1 hf
    obtain ⟨-, -, rfl⟩ := List.mem_map.1 hg
    exact hle

/-- The holder of a face is the lowest element that has it. -/
theorem get?_holders_eq_some_iff {h : Nat} :
    (holders (allFaces ts)).get? f = some h ↔
      (f, h) ∈ allFaces ts ∧ ∀ k, (f, k) ∈ allFaces ts → h ≤ k := by
  have hlowest {h : Nat} (hh : (holders (allFaces ts)).get? f = some h) :
      ∀ k, (f, k) ∈ allFaces ts → h ≤ k := by
    intro k hk
    rw [get?_holders, Option.map_eq_some_iff] at hh
    obtain ⟨g, hg, rfl⟩ := hh
    obtain ⟨-, before, after, hsplit, hbefore⟩ := List.find?_eq_some_iff_append.1 hg
    have hsorted := pairwise_allFaces ts
    rw [hsplit] at hk hsorted
    rcases List.mem_append.1 hk with hk | hk
    · exact absurd (hbefore _ hk) (by simp)
    · rcases List.mem_cons.1 hk with rfl | hk
      · exact Nat.le_refl _
      · exact (List.pairwise_cons.1 (List.pairwise_append.1 hsorted).2.1).1 _ hk
  constructor
  · exact fun hh => ⟨mem_of_get?_holders hh, hlowest hh⟩
  · rintro ⟨hmem, hle⟩
    cases hold : (holders (allFaces ts)).get? f with
    | none =>
      rw [get?_holders, Option.map_eq_none_iff, List.find?_eq_none] at hold
      exact absurd (decide_eq_true rfl) (hold _ hmem)
    | some h' =>
      have hle' := hle h' (mem_of_get?_holders hold)
      rw [Nat.le_antisymm hle' (hlowest hold h hmem)]

/-- Two elements are linked by the faces that no element before both of them has. -/
theorem mem_links_iff : (e, u) ∈ links (allFaces ts) ↔
    e ≠ u ∧ ∃ F, HasFace ts e F ∧ HasFace ts u F ∧ ∀ k, HasFace ts k F → min e u ≤ k := by
  rw [mem_links]
  constructor
  · rintro ⟨⟨f, k⟩, hk, h, hh, hne, hl⟩
    obtain ⟨hmem, hle⟩ := get?_holders_eq_some_iff.1 hh
    have hfirst (j : Nat) (hj : HasFace ts j f.nodes) : h ≤ j :=
      hle j ((hasFace_nodes_iff hk).1 hj)
    have hface : HasFace ts k f.nodes := (hasFace_nodes_iff hk).2 hk
    have hheld : HasFace ts h f.nodes := (hasFace_nodes_iff hk).2 hmem
    rcases hl with hl | hl <;> obtain ⟨rfl, rfl⟩ := Prod.mk.inj hl
    · exact ⟨hne.symm, f.nodes, hface, hheld, fun j hj => (min_le_right _ _).trans (hfirst j hj)⟩
    · exact ⟨hne, f.nodes, hheld, hface, fun j hj => (min_le_left _ _).trans (hfirst j hj)⟩
  · rintro ⟨hne, F, he, hu, hfirst⟩
    obtain ⟨f, hf, rfl⟩ := hasFace_iff.1 he
    have hu := (hasFace_nodes_iff hf).1 hu
    have hlow (k : Nat) (hk : (f, k) ∈ allFaces ts) : min e u ≤ k :=
      hfirst k ((hasFace_nodes_iff hf).2 hk)
    rcases lt_or_gt_of_ne hne with hlt | hlt
    · rw [min_eq_left hlt.le] at hlow
      exact ⟨(f, u), hu, e, get?_holders_eq_some_iff.2 ⟨hf, hlow⟩, hne, .inr rfl⟩
    · rw [min_eq_right hlt.le] at hlow
      exact ⟨(f, e), hf, u, get?_holders_eq_some_iff.2 ⟨hu, hlow⟩, hne.symm, .inl rfl⟩

theorem mem_neighbours_iff (he : e < ts.length) : u ∈ (ofTets ts).neighbours e ↔
    e ≠ u ∧ ∃ F, HasFace ts e F ∧ HasFace ts u F ∧ ∀ k, HasFace ts k F → min e u ≤ k :=
  (mem_neighbours_ofTets he).trans mem_links_iff

theorem pairwise_neighbours_ofTets (he : e < ts.length) :
    ((ofTets ts).neighbours e).Pairwise (· < ·) := by
  rw [neighbours_ofTets he]
  exact pairwise_ascending _

theorem nodup_neighbours_ofTets (he : e < ts.length) : ((ofTets ts).neighbours e).Nodup :=
  (pairwise_neighbours_ofTets he).imp Nat.ne_of_lt

/-- The targets are the neighbours of all elements. -/
theorem size_targets_ofTets (ts : List Tet) : (ofTets ts).targets.size =
    ((List.range ts.length).map fun e => ((ofTets ts).neighbours e).length).sum := by
  have hrows : ((List.range ts.length).map fun e => ((ofTets ts).neighbours e).length) =
      (List.range ts.length).map fun e =>
        (ascending (((linked (links (allFaces ts))).get? e).getD [])).length :=
    List.map_congr_left fun e he => by rw [neighbours_ofTets (List.mem_range.1 he)]
  rw [hrows, ofTets, ofRows, List.size_toArray, List.length_flatten, List.map_map]
  rfl

/-- No face belongs to three elements. -/
def Conforming (ts : List Tet) : Prop :=
  ∀ F i j k, HasFace ts i F → HasFace ts j F → HasFace ts k F → i = j ∨ j = k ∨ i = k

theorem Conforming.mem_neighbours_iff (h : Conforming ts) (he : e < ts.length) :
    u ∈ (ofTets ts).neighbours e ↔ e ≠ u ∧ ∃ F, HasFace ts e F ∧ HasFace ts u F := by
  rw [FaceGraph.mem_neighbours_iff he]
  apply and_congr_right
  intro hne
  constructor
  · rintro ⟨F, hF, hF', -⟩
    exact ⟨F, hF, hF'⟩
  · rintro ⟨F, hF, hF'⟩
    refine ⟨F, hF, hF', fun k hk => ?_⟩
    rcases h F e u k hF hF' hk with rfl | rfl | rfl
    · exact absurd rfl hne
    · exact min_le_right _ _
    · exact min_le_left _ _

/-! ### The graph of links -/

/-- A graph whose links all lead to another element and back. -/
structure Undirected (g : FaceGraph) : Prop extends Readable g where
  symm : ∀ e < g.size, ∀ u ∈ g.neighbours e, e ∈ g.neighbours u
  loopless : ∀ e < g.size, e ∉ g.neighbours e

def Undirected.graph {g : FaceGraph} (hg : g.Undirected) : SimpleGraph (Fin g.size) where
  Adj e u := u.1 ∈ g.neighbours e
  symm := ⟨fun e _ => hg.symm e e.2 _⟩
  loopless := ⟨fun e => hg.loopless e e.2⟩

theorem undirected_ofTets (ts : List Tet) : (ofTets ts).Undirected where
  toReadable := readable_ofTets ts
  symm e he u hu := by
    rw [size_ofTets] at he
    have hlt := lt_of_mem_neighbours he hu
    rw [mem_neighbours_iff he] at hu
    obtain ⟨hne, F, hF, hF', hfirst⟩ := hu
    rw [min_comm] at hfirst
    exact (mem_neighbours_iff hlt).2 ⟨hne.symm, F, hF', hF, hfirst⟩
  loopless e he h := by
    rw [size_ofTets] at he
    exact ((mem_neighbours_iff he).1 h).1 rfl

/-- Elements are neighbours by the faces that they share and no element before them has; where no
face belongs to three elements, by all faces that they share. -/
theorem neighbours_share_first_faces {ids : List Nat} (hids : ids.length % 4 = 0) :
    ∃ g, ofFlat ids = .ok g ∧ g.size = ids.length / 4 ∧
      (∀ e < g.size, ∀ u, u ∈ g.neighbours e ↔ e ≠ u ∧
        ∃ F, HasFace (Tet.ofFlat ids) e F ∧ HasFace (Tet.ofFlat ids) u F ∧
          ∀ k, HasFace (Tet.ofFlat ids) k F → min e u ≤ k) ∧
      (Conforming (Tet.ofFlat ids) → ∀ e < g.size, ∀ u, u ∈ g.neighbours e ↔ e ≠ u ∧
        ∃ F, HasFace (Tet.ofFlat ids) e F ∧ HasFace (Tet.ofFlat ids) u F) := by
  have hsize : (ofTets (Tet.ofFlat ids)).size = ids.length / 4 :=
    (size_ofTets _).trans (Tet.length_ofFlat ids)
  refine ⟨ofTets (Tet.ofFlat ids), if_neg (not_not.2 hids), hsize, ?_, ?_⟩
  · intro e he u
    exact mem_neighbours_iff (he.trans_eq (size_ofTets _))
  · intro h e he u
    exact h.mem_neighbours_iff (he.trans_eq (size_ofTets _))

/-- Two elements with the face of the nodes 11, 12 and 13. -/
def pairOfTets : List Nat := [10, 11, 12, 13, 11, 12, 13, 14]

theorem conforming_pairOfTets : Conforming (Tet.ofFlat pairOfTets) := by
  intro F i j k hi hj hk
  have hlen : (Tet.ofFlat pairOfTets).length = 2 := rfl
  have := lt_of_hasFace hi
  have := lt_of_hasFace hj
  have := lt_of_hasFace hk
  omega

theorem pair_shares_first_face :
    pairOfTets.length % 4 = 0 ∧ Conforming (Tet.ofFlat pairOfTets) ∧
      ∃ g, ofFlat pairOfTets = .ok g ∧ 1 ∈ g.neighbours 0 := by
  have hids : pairOfTets.length % 4 = 0 := rfl
  obtain ⟨g, hg, hsize, -, hpair⟩ := neighbours_share_first_faces hids
  refine ⟨hids, conforming_pairOfTets, g, hg, ?_⟩
  rw [hpair conforming_pairOfTets 0 (by rw [hsize]; decide)]
  exact ⟨Nat.zero_ne_one, {11, 12, 13}, ⟨_, rfl, by decide⟩, ⟨_, rfl, by decide⟩⟩

/-- Three elements around the face of the nodes 0, 1 and 2. -/
def fan : List Nat := [0, 1, 2, 3, 0, 1, 2, 4, 0, 1, 2, 5]

/-- The second and the third element with a face are no neighbours. -/
theorem later_holders_not_linked :
    ∃ g, ofFlat fan = .ok g ∧ 1 < g.size ∧ 1 ≠ 2 ∧
      (∃ F, HasFace (Tet.ofFlat fan) 1 F ∧ HasFace (Tet.ofFlat fan) 2 F) ∧
      2 ∉ g.neighbours 1 := by
  refine ⟨ofTets (Tet.ofFlat fan), rfl, by decide, by decide, ?_, by decide⟩
  exact ⟨{0, 1, 2}, ⟨_, rfl, by decide⟩, ⟨_, rfl, by decide⟩⟩

/-! ### The arrays of the graph -/

/-- A face graph is in compressed rows: the offsets ascend from zero to the end of the targets, and
between two of them stand the neighbours of one element, each once and in ascending order, the
element itself not among them. Links lead both ways. -/
theorem rows_ascend_and_lead_back {ids : List Nat} (hids : ids.length % 4 = 0) :
    ∃ g, ofFlat ids = .ok g ∧ g.Compressed (ids.length / 4) ∧
      ∀ e < ids.length / 4, ∃ start stop,
        g.offsets[e]? = some start ∧ g.offsets[e + 1]? = some stop ∧ start ≤ stop ∧
        stop ≤ g.targets.size ∧ g.neighbours e = (g.targets.extract start stop).toList ∧
        (g.neighbours e).Pairwise (· < ·) ∧ (∀ u ∈ g.neighbours e, u < ids.length / 4) ∧
        e ∉ g.neighbours e ∧
        ∀ u < ids.length / 4, u ∈ g.neighbours e ↔ e ∈ g.neighbours u := by
  obtain ⟨ts, hts⟩ : ∃ ts, Tet.ofFlat ids = ts := ⟨_, rfl⟩
  have hlen : ts.length = ids.length / 4 := hts ▸ Tet.length_ofFlat ids
  have hsize : (ofTets ts).size = ids.length / 4 := (size_ofTets ts).trans hlen
  have hrows : (ofTets ts).Compressed (ids.length / 4) := hlen ▸ compressed_ofTets ts
  have hlinks := undirected_ofTets ts
  refine ⟨ofTets ts, ?_, hrows, ?_⟩
  · rw [ofFlat, if_neg (not_not.2 hids), hts]
  · intro e he
    obtain ⟨start, stop, hstart, hstop, hle, hend, hrow⟩ := hrows.row he
    have hback {e u : Nat} (he : e < ids.length / 4) (hu : u ∈ (ofTets ts).neighbours e) :
        e ∈ (ofTets ts).neighbours u := hlinks.symm e (by omega) u hu
    refine ⟨start, stop, hstart, hstop, hle, hend, hrow, ?_, ?_, ?_, ?_⟩
    · exact pairwise_neighbours_ofTets (by omega)
    · intro u hu
      have hlt := hlinks.below e (by omega) u hu
      omega
    · exact hlinks.loopless e (by omega)
    · intro u hu
      exact ⟨hback he, hback hu⟩

/-- Two elements with the same four nodes, one that shares a face with both, and one whose nodes are
all the same. -/
def crowd : List Nat := [10, 11, 12, 13, 11, 12, 13, 14, 13, 12, 11, 10, 9, 9, 9, 9]

theorem crowd_rows_lead_back :
    crowd.length % 4 = 0 ∧ ∃ g, ofFlat crowd = .ok g ∧ g.Compressed 4 ∧
      g.offsets = #[0, 2, 3, 4, 4] ∧ g.targets = #[1, 2, 0, 0] ∧
      3 ∉ g.neighbours 3 ∧ (2 ∈ g.neighbours 0 ↔ 0 ∈ g.neighbours 2) := by
  have hids : crowd.length % 4 = 0 := rfl
  obtain ⟨g, hg, hrows, hlinks⟩ := rows_ascend_and_lead_back hids
  have harrays : g.offsets = #[0, 2, 3, 4, 4] ∧ g.targets = #[1, 2, 0, 0] := by
    have hgraph : ofFlat crowd = .ok ⟨#[0, 2, 3, 4, 4], #[1, 2, 0, 0], #[1, 1, 1, 1]⟩ := by decide
    obtain rfl := Except.ok.inj (hg.symm.trans hgraph)
    exact ⟨rfl, rfl⟩
  obtain ⟨-, -, -, -, -, -, -, -, -, hself, -⟩ := hlinks 3 (by decide)
  obtain ⟨-, -, -, -, -, -, -, -, -, -, hboth⟩ := hlinks 0 (by decide)
  exact ⟨hids, g, hg, hrows, harrays.1, harrays.2, hself, hboth 2 (by decide)⟩

end FaceGraph

end MeshDecomp
