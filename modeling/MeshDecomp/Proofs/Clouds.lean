import Mathlib.Order.Nat
import MeshDecomp.Partition.Input

/-! The points of the elements, when the axes reach as far as the elements do. -/

namespace MeshDecomp.Centroids

variable {c : Centroids} {n : Nat}

/-- No axis ends before `n` coordinates. -/
def Reaches (c : Centroids) (n : Nat) : Prop := ∀ a, n ≤ (c.axis a).length

/-- The points of the elements; where an axis has ended, its coordinate is zero. -/
def cloud (c : Centroids) (e : Nat) : Point :=
  ⟨c.xs.getD e .zero, c.ys.getD e .zero, c.zs.getD e .zero⟩

/-- The points of all elements are those of the cloud. -/
theorem points?_eq (h : c.Reaches n) (hn : c.size = n) :
    c.points? = some ((List.range n).map c.cloud) := by
  have hx : c.xs.length = n := hn
  have hy : n ≤ c.ys.length := h .y
  have hz : n ≤ c.zs.length := h .z
  have hreach : c.xs.length ≤ c.ys.length ∧ c.xs.length ≤ c.zs.length := by omega
  rw [points?, if_pos hreach]
  congr 1
  apply List.ext_getElem
  · simp only [List.length_map, List.length_zip, List.length_range]
    omega
  · intro e he he'
    have hlt : e < n := by simpa using he'
    simp [cloud, List.getD_eq_getElem?_getD, hx, hlt, hlt.trans_le hy, hlt.trans_le hz]

theorem points?_of_not_reaches (h : ¬ c.Reaches n) (hn : c.size = n) : c.points? = none := by
  apply if_neg
  rintro ⟨hy, hz⟩
  apply h
  intro a
  cases a with
  | x => exact hn.ge
  | y => exact hn.ge.trans hy
  | z => exact hn.ge.trans hz

/-- One point for each of `n` elements. -/
def Covers (c : Centroids) (n : Nat) : Prop := ∀ a, (c.axis a).length = n

theorem Covers.points (h : c.Covers n) :
    ∃ ps, Partitioner.points c = .ok ps ∧ ps.length = n := by
  have hreach : c.Reaches n := fun a => (h a).ge
  have hsize : c.size = n := h .x
  refine ⟨_, by rw [Partitioner.points, points?_eq hreach hsize], ?_⟩
  rw [List.length_map, List.length_range]

end MeshDecomp.Centroids
