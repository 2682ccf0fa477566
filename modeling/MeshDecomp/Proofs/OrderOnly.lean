import MeshDecomp.Partition.Elementary
import MeshDecomp.Proofs.Safety
import Mathlib.Order.Monotone.MonovaryOrder
import Mathlib.Order.Lattice
import Mathlib.Data.List.Basic
import Mathlib.Data.List.Find
import Mathlib.Tactic.Common

/-!
Partitioners to which the ids of nodes matter only as they compare. A partitioner that works on
centroids or element numbers does not look at them; the one that grows parts over the face graph
looks at which faces are equal.
-/

namespace MeshDecomp

/-- Renames every node. -/
def Tet.map (f : Nat → Nat) (t : Tet) : Tet := ⟨f t.a, f t.b, f t.c, f t.d⟩

def Face.map (f : Nat → Nat) (x : Face) : Face := ⟨f x.a, f x.b, f x.c⟩

def PartitionInput.map (f : Nat → Nat) (i : PartitionInput) : PartitionInput :=
  { i with connectivity := i.connectivity.map f }

/-- The answer stays when the nodes get other ids in the same order. -/
def Partitioner.OrderOnly (p : Partitioner) : Prop :=
  ∀ (f : Nat → Nat) (i : PartitionInput) (parts : Nat),
    StrictMonoOn f {x | x ∈ i.connectivity} → p.assign (i.map f) parts = p.assign i parts

variable {f : Nat → Nat} {s : Set Nat} {x y z : Nat}

/-! ### Faces -/

namespace Tet

theorem ofFlat_map (f : Nat → Nat) (ids : List Nat) :
    ofFlat (ids.map f) = (ofFlat ids).map (Tet.map f) := by
  fun_induction ofFlat ids with
  | case1 a b c d r ih => simp [ofFlat, ih, Tet.map]
  | case2 ids hne =>
    rcases ids with _ | ⟨a, _ | ⟨b, _ | ⟨c, _ | ⟨d, r⟩⟩⟩⟩
    · rfl
    · rfl
    · rfl
    · rfl
    · exact absurd rfl (hne a b c d r)

theorem mem_of_mem_ofFlat {ids : List Nat} {t : Tet} (ht : t ∈ ofFlat ids) (hx : x ∈ t.nodes) :
    x ∈ ids := by
  fun_induction ofFlat ids with
  | case1 a b c d r ih =>
    rcases List.mem_cons.1 ht with rfl | ht
    · simp only [nodes, List.mem_cons, List.not_mem_nil, or_false] at hx
      rcases hx with rfl | rfl | rfl | rfl <;> simp
    · simp [ih ht]
  | case2 => cases ht

end Tet

namespace Face

/-- The corners lie in a set. -/
def Within (s : Set Nat) (x : Face) : Prop := x.a ∈ s ∧ x.b ∈ s ∧ x.c ∈ s

theorem within_ofNodes (hx : x ∈ s) (hy : y ∈ s) (hz : z ∈ s) : (ofNodes x y z).Within s := by
  have hmin : min x y ∈ s := min_rec' (· ∈ s) hx hy
  have hmax : max x y ∈ s := max_rec' (· ∈ s) hx hy
  unfold ofNodes
  dsimp only
  split
  · exact ⟨hz, hmin, hmax⟩
  · split
    · exact ⟨hmin, hz, hmax⟩
    · exact ⟨hmin, hmax, hz⟩

/-- Sorting only compares. -/
theorem ofNodes_map (hf : StrictMonoOn f s) (hx : x ∈ s) (hy : y ∈ s) (hz : z ∈ s) :
    ofNodes (f x) (f y) (f z) = (ofNodes x y z).map f := by
  have hmin : min x y ∈ s := min_rec' (· ∈ s) hx hy
  have hmax : max x y ∈ s := max_rec' (· ∈ s) hx hy
  unfold ofNodes
  rw [← hf.monotoneOn.map_min hx hy, ← hf.monotoneOn.map_max hx hy]
  simp only [hf.le_iff_le hz hmin, hf.le_iff_le hz hmax]
  split
  · rfl
  · split <;> rfl

theorem map_inj (hf : StrictMonoOn f s) {g h : Face} (hg : g.Within s) (hh : h.Within s) :
    g.map f = h.map f ↔ g = h := by
  obtain ⟨a, b, c⟩ := g
  obtain ⟨a', b', c'⟩ := h
  obtain ⟨ha, hb, hc⟩ := hg
  obtain ⟨ha', hb', hc'⟩ := hh
  simp only [map, Face.mk.injEq]
  rw [hf.injOn.eq_iff ha ha', hf.injOn.eq_iff hb hb', hf.injOn.eq_iff hc hc']

end Face

namespace Tet

variable {t : Tet}

theorem forall_mem_nodes : (∀ x ∈ t.nodes, x ∈ s) ↔ t.a ∈ s ∧ t.b ∈ s ∧ t.c ∈ s ∧ t.d ∈ s := by
  simp [nodes]

theorem within_faces (ht : ∀ x ∈ t.nodes, x ∈ s) {g : Face} (hg : g ∈ t.faces) : g.Within s := by
  obtain ⟨ha, hb, hc, hd⟩ := forall_mem_nodes.1 ht
  simp only [faces, List.mem_cons, List.not_mem_nil, or_false] at hg
  rcases hg with rfl | rfl | rfl | rfl
  · exact Face.within_ofNodes hb hc hd
  · exact Face.within_ofNodes ha hc hd
  · exact Face.within_ofNodes ha hb hd
  · exact Face.within_ofNodes ha hb hc

theorem faces_map (hf : StrictMonoOn f s) (ht : ∀ x ∈ t.nodes, x ∈ s) :
    (t.map f).faces = t.faces.map (Face.map f) := by
  obtain ⟨ha, hb, hc, hd⟩ := forall_mem_nodes.1 ht
  simp only [faces, map, Face.ofNodes_map hf, ha, hb, hc, hd, List.map_cons, List.map_nil]

end Tet

/-! ### The face graph -/

namespace FaceGraph

theorem allFaces_map {ts : List Tet} (hf : StrictMonoOn f s)
    (hs : ∀ t ∈ ts, ∀ x ∈ t.nodes, x ∈ s) :
    allFaces (ts.map (Tet.map f)) = (allFaces ts).map (Prod.map (Face.map f) id) := by
  unfold allFaces
  rw [List.zipIdx_map, List.flatMap_map, List.map_flatMap]
  apply List.flatMap_congr
  intro t ht
  simp only [Prod.map_fst, Prod.map_snd, id, List.map_map,
    Tet.faces_map hf (hs t.1 (List.fst_mem_of_mem_zipIdx ht))]
  rfl

theorem within_allFaces {ts : List Tet} (hs : ∀ t ∈ ts, ∀ x ∈ t.nodes, x ∈ s) :
    ∀ g ∈ allFaces ts, g.1.Within s := by
  intro g hg
  obtain ⟨t, ht, hg⟩ := List.mem_flatMap.1 hg
  obtain ⟨h, hh, rfl⟩ := List.mem_map.1 hg
  exact Tet.within_faces (hs t.1 (List.fst_mem_of_mem_zipIdx ht)) hh

variable {faces : List (Face × Nat)}

theorem get?_holders_map (hf : StrictMonoOn f s) (hs : ∀ g ∈ faces, g.1.Within s) {g : Face}
    (hg : g.Within s) :
    (holders (faces.map (Prod.map (Face.map f) id))).get? (g.map f) =
      (holders faces).get? g := by
  have hfind : faces.find? ((fun h => decide (h.1 = g.map f)) ∘ Prod.map (Face.map f) id) =
      faces.find? fun h => h.1 = g := by
    apply List.find?_congr
    intro h hh
    exact decide_eq_decide.2 (Face.map_inj hf (hs h hh) hg)
  rw [get?_holders, get?_holders, List.find?_map, hfind, Option.map_map]
  rfl

/-- The elements next to one another stay so. -/
theorem links_map (hf : StrictMonoOn f s) (hs : ∀ g ∈ faces, g.1.Within s) :
    links (faces.map (Prod.map (Face.map f) id)) = links faces := by
  unfold links
  rw [List.flatMap_map]
  apply List.flatMap_congr
  intro g hg
  simp only [Prod.map_fst, Prod.map_snd, id, get?_holders_map hf hs (hs g hg)]

theorem ofTets_map {ts : List Tet} (hf : StrictMonoOn f s)
    (hs : ∀ t ∈ ts, ∀ x ∈ t.nodes, x ∈ s) : ofTets (ts.map (Tet.map f)) = ofTets ts := by
  unfold ofTets
  rw [allFaces_map hf hs, links_map hf (within_allFaces hs), List.length_map]

/-- The face graph is the same for all ids in the same order. -/
theorem ofFlat_map {ids : List Nat} (hf : StrictMonoOn f {x | x ∈ ids}) :
    ofFlat (ids.map f) = ofFlat ids := by
  unfold ofFlat
  rw [List.length_map, Tet.ofFlat_map,
    ofTets_map hf fun t ht x hx => Tet.mem_of_mem_ofFlat ht hx]

end FaceGraph

/-! ### Partitioners -/

namespace Partitioner

theorem validate_map (f : Nat → Nat) (i : PartitionInput) : (i.map f).validate = i.validate := by
  unfold PartitionInput.validate PartitionInput.size PartitionInput.map
  rw [List.length_map]

theorem orderOnly_guarded {name : String} {geometric : Bool}
    {assign : PartitionInput → Nat → Except (Failure PartitionError) (List Nat)}
    (h : ∀ (f : Nat → Nat) (i : PartitionInput) (parts : Nat),
      StrictMonoOn f {x | x ∈ i.connectivity} → assign (i.map f) parts = assign i parts) :
    (⟨name, geometric, guarded assign⟩ : Partitioner).OrderOnly := by
  intro f i parts hf
  show guarded assign (i.map f) parts = guarded assign i parts
  unfold guarded
  rw [validate_map, h f i parts hf]

theorem orderOnly_ofCentroids (name : String)
    (assign : Centroids → (size parts : Nat) → Except Crash (List Nat)) :
    (ofCentroids name assign).OrderOnly :=
  orderOnly_guarded fun _ _ _ _ => rfl

theorem orderOnly_hilbertCurve : hilbertCurve.OrderOnly := orderOnly_ofCentroids _ _

theorem orderOnly_elementOrder : elementOrder.OrderOnly := orderOnly_guarded fun _ _ _ _ => rfl

theorem orderOnly_graphGrowing : graphGrowing.OrderOnly := by
  refine orderOnly_guarded fun f i parts hf => ?_
  have hgraph : FaceGraph.ofFlat (i.map f).connectivity = FaceGraph.ofFlat i.connectivity :=
    FaceGraph.ofFlat_map hf
  rw [hgraph]

theorem orderOnly_failing (name : String) (geometric : Bool) (text : String) :
    (failing name geometric text).OrderOnly :=
  fun _ _ _ _ => rfl

/-- No partitioner that can be asked for by name depends on the ids of nodes beyond their order,
whatever routine makes its cuts. -/
theorem orderOnly_selecting (S : Bisection.Selection) (a : Algorithm) :
    (a.selecting S).OrderOnly := by
  cases a with
  | coordinateBisection => exact orderOnly_ofCentroids _ _
  | inertialBisection => exact orderOnly_ofCentroids _ _
  | hilbertCurve =>
    rw [Algorithm.selecting_of_other (by decide) (by decide)]
    exact orderOnly_hilbertCurve
  | elementOrder =>
    rw [Algorithm.selecting_of_other (by decide) (by decide)]
    exact orderOnly_elementOrder
  | graphGrowing =>
    rw [Algorithm.selecting_of_other (by decide) (by decide)]
    exact orderOnly_graphGrowing
  | multilevel => exact fun _ _ _ _ => rfl

end Partitioner
end MeshDecomp
