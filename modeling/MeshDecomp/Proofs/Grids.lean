import Mathlib.Algebra.Ring.Nat
import Mathlib.Data.List.Nodup
import MeshDecomp.Mesh.Box

/-!
The corners and cells of a grid. Corners are numbered without gaps, and a step along an axis leads
to a higher number.
-/

namespace MeshDecomp.Box

theorem sum_map_ite (p : α → Bool) (m : Nat) (l : List α) :
    (l.map fun x => if p x then m else 0).sum = l.countP p * m := by
  induction l with
  | nil => simp
  | cons x l ih => cases hx : p x <;> simp [hx, ih, Nat.add_mul, Nat.add_comm]

namespace Cell

variable {n c d : Cell} {a b : Axis}

theorem ext_get (h : ∀ a, c.get a = d.get a) : c = d := by
  obtain ⟨i, j, k⟩ := c
  obtain ⟨i', j', k'⟩ := d
  have hi : i = i' := h .x
  have hj : j = j' := h .y
  have hk : k = k' := h .z
  rw [hi, hj, hk]

theorem get_step (c : Cell) (a b : Axis) :
    (c.step a).get b = c.get b + if a = b then 1 else 0 := by
  cases a <;> cases b <;> rfl

@[simp] theorem get_step_self (c : Cell) (a : Axis) : (c.step a).get a = c.get a + 1 := by
  rw [get_step, if_pos rfl]

theorem get_step_of_ne (c : Cell) (h : a ≠ b) : (c.step a).get b = c.get b := by
  rw [get_step, if_neg h, Nat.add_zero]

theorem axis_of_step (h : c.step a = c.step b) : a = b := by
  by_contra hne
  have ha := congrArg (get · a) h
  simp only [get_step_self, get_step_of_ne c (Ne.symm hne)] at ha
  omega

theorem step_comm (c : Cell) (a b : Axis) : (c.step a).step b = (c.step b).step a := by
  cases a <;> cases b <;> rfl

/-- One step back along an axis. -/
def back (c : Cell) : Axis → Cell
  | .x => { c with i := c.i - 1 }
  | .y => { c with j := c.j - 1 }
  | .z => { c with k := c.k - 1 }

theorem back_step (c : Cell) (a : Axis) : (c.step a).back a = c := by
  cases a <;> rfl

theorem step_back (h : 0 < c.get a) : (c.back a).step a = c := by
  apply ext_get
  intro b
  cases a <;> cases b <;> simp only [step, back, get] at h ⊢ <;> omega

/-- The number of steps from the lowest corner. -/
def height (c : Cell) : Nat := c.i + c.j + c.k

@[simp] theorem height_step (c : Cell) (a : Axis) : (c.step a).height = c.height + 1 := by
  cases a <;> simp only [height, step] <;> omega

/-- The cells of a grid of `n` cells. -/
def Inside (c n : Cell) : Prop := ∀ a, c.get a < n.get a

/-- The corners of a grid of `n` cells. -/
def Corner (c n : Cell) : Prop := ∀ a, c.get a ≤ n.get a

theorem Corner.of_step (h : (c.step a).Corner n) : c.Corner n := by
  intro b
  have hb := h b
  rw [get_step] at hb
  exact Nat.le_trans (Nat.le_add_right _ _) hb

/-! ### The cells in order -/

theorem mem_grid : c ∈ grid n ↔ c.Inside n := by
  have haxes : c.Inside n ↔ c.k < n.k ∧ c.j < n.j ∧ c.i < n.i := by
    constructor
    · exact fun h => ⟨h .z, h .y, h .x⟩
    · rintro ⟨hk, hj, hi⟩ (_ | _ | _)
      exacts [hi, hj, hk]
  rw [haxes]
  simp only [grid, List.mem_flatMap, List.mem_map, List.mem_range]
  constructor
  · rintro ⟨k, hk, j, hj, i, hi, rfl⟩
    exact ⟨hk, hj, hi⟩
  · rintro ⟨hk, hj, hi⟩
    exact ⟨c.k, hk, c.j, hj, c.i, hi, rfl⟩

theorem nodup_grid (n : Cell) : (grid n).Nodup := by
  unfold grid
  rw [List.nodup_flatMap]
  constructor
  · intro k _
    rw [List.nodup_flatMap]
    constructor
    · intro j _
      apply List.nodup_range.map
      intro i i' h
      exact congrArg Cell.i h
    · refine List.nodup_range.imp fun {j j'} hne c hc hc' => ?_
      obtain ⟨i, -, rfl⟩ := List.mem_map.1 hc
      obtain ⟨i', -, h⟩ := List.mem_map.1 hc'
      exact hne (congrArg Cell.j h).symm
  · refine List.nodup_range.imp fun {k k'} hne c hc hc' => ?_
    simp only [List.mem_flatMap, List.mem_map] at hc hc'
    obtain ⟨j, -, i, -, rfl⟩ := hc
    obtain ⟨j', -, i', -, h⟩ := hc'
    exact hne (congrArg Cell.k h).symm

/-- The number of cells in a layer across an axis. -/
def layer (n : Cell) : Axis → Nat
  | .x => n.j * n.k
  | .y => n.i * n.k
  | .z => n.i * n.j

/-- Cells are counted layer by layer. -/
theorem countP_grid (n : Cell) (a : Axis) (p : Nat → Bool) :
    (grid n).countP (fun c => p (c.get a)) = (List.range (n.get a)).countP p * layer n a := by
  have hconst (m : Nat) (b : Bool) : (List.range m).countP (fun _ => b) = if b then m else 0 := by
    cases b <;> simp
  cases a with
  | x =>
    simp only [grid, List.countP_flatMap, List.countP_map, Function.comp_def, get, layer,
      List.map_const', List.sum_replicate_nat, List.length_range]
    rw [← Nat.mul_assoc, Nat.mul_comm, Nat.mul_comm n.k]
  | y =>
    simp only [grid, List.countP_flatMap, List.countP_map, Function.comp_def, get, layer, hconst,
      sum_map_ite, List.map_const', List.sum_replicate_nat, List.length_range]
    rw [Nat.mul_comm, Nat.mul_assoc]
  | z =>
    simp only [grid, List.countP_flatMap, List.countP_map, Function.comp_def, get, layer, hconst,
      List.map_const', List.sum_replicate_nat, List.length_range,
      apply_ite (n.j * ·), Nat.mul_zero, sum_map_ite]
    rw [Nat.mul_comm n.j]

theorem length_grid (n : Cell) : (grid n).length = n.i * n.j * n.k := by
  have hcount := countP_grid n .x fun _ => true
  simp only [List.countP_true, List.length_range] at hcount
  rw [hcount, Nat.mul_assoc]
  rfl

end Cell

/-! ### The numbers of the corners -/

open Cell

variable {n c d : Cell} {a b : Axis} {v : Nat}

/-- The corner with a number. -/
def cornerOf (n : Cell) (v : Nat) : Cell :=
  ⟨v % (n.i + 1), v / (n.i + 1) % (n.j + 1), v / (n.i + 1) / (n.j + 1)⟩

theorem cornerOf_node (h : c.Corner n) : cornerOf n (node n c) = c := by
  have hi : c.i < n.i + 1 := Nat.lt_succ_of_le (h .x)
  have hj : c.j < n.j + 1 := Nat.lt_succ_of_le (h .y)
  have hrow : node n c / (n.i + 1) = c.j + (n.j + 1) * c.k := by
    rw [node, Nat.add_mul_div_left _ _ (Nat.succ_pos n.i), Nat.div_eq_of_lt hi, Nat.zero_add]
  rw [cornerOf, hrow, node, Nat.add_mul_mod_self_left, Nat.mod_eq_of_lt hi,
    Nat.add_mul_mod_self_left, Nat.mod_eq_of_lt hj, Nat.add_mul_div_left _ _ (Nat.succ_pos n.j),
    Nat.div_eq_of_lt hj, Nat.zero_add]

theorem node_cornerOf (n : Cell) (v : Nat) : node n (cornerOf n v) = v := by
  simp only [node, cornerOf, Nat.mod_add_div]

theorem node_injective (hc : c.Corner n) (hd : d.Corner n) (h : node n c = node n d) : c = d := by
  rw [← cornerOf_node hc, h, cornerOf_node hd]

theorem corner_cornerOf (h : v < nodeCount n) : (cornerOf n v).Corner n := by
  have hz : v / (n.i + 1) / (n.j + 1) < n.k + 1 := by
    have hpos : 0 < (n.i + 1) * (n.j + 1) := Nat.mul_pos (Nat.succ_pos _) (Nat.succ_pos _)
    rw [Nat.div_div_eq_div_mul, Nat.div_lt_iff_lt_mul hpos, Nat.mul_comm]
    exact h
  rintro (_ | _ | _)
  · exact Nat.le_of_lt_succ (Nat.mod_lt _ (Nat.succ_pos n.i))
  · exact Nat.le_of_lt_succ (Nat.mod_lt _ (Nat.succ_pos n.j))
  · exact Nat.le_of_lt_succ hz

/-- A digit and the number before it. -/
theorem add_mul_lt_mul {x y m q : Nat} (hx : x < m) (hy : y < q) : x + m * y < m * q := by
  have hle : m * (y + 1) ≤ m * q := Nat.mul_le_mul_left m hy
  rw [Nat.mul_succ] at hle
  omega

theorem node_lt (h : c.Corner n) : node n c < nodeCount n := by
  have hrow : c.j + (n.j + 1) * c.k < (n.j + 1) * (n.k + 1) :=
    add_mul_lt_mul (Nat.lt_succ_of_le (h .y)) (Nat.lt_succ_of_le (h .z))
  rw [nodeCount, Nat.mul_assoc]
  exact add_mul_lt_mul (Nat.lt_succ_of_le (h .x)) hrow

theorem node_lt_node_step (n c : Cell) (a : Axis) : node n c < node n (c.step a) := by
  cases a with
  | x => exact Nat.add_lt_add_right (Nat.lt_succ_self c.i) _
  | y =>
    have hrow : c.j + (n.j + 1) * c.k < c.j + 1 + (n.j + 1) * c.k :=
      Nat.add_lt_add_right (Nat.lt_succ_self c.j) _
    exact Nat.add_lt_add_left (Nat.mul_lt_mul_of_pos_left hrow (Nat.succ_pos n.i)) c.i
  | z =>
    have hlayer : (n.j + 1) * c.k < (n.j + 1) * (c.k + 1) :=
      Nat.mul_lt_mul_of_pos_left (Nat.lt_succ_self c.k) (Nat.succ_pos n.j)
    have hrow : c.j + (n.j + 1) * c.k < c.j + (n.j + 1) * (c.k + 1) :=
      Nat.add_lt_add_left hlayer c.j
    exact Nat.add_lt_add_left (Nat.mul_lt_mul_of_pos_left hrow (Nat.succ_pos n.i)) c.i

end MeshDecomp.Box
