import Mathlib.Order.Interval.Set.Defs
import MeshDecomp.Proofs.CurveSteps

/-!
The Hilbert curve nests. On a grid of larger cubes it is the same curve: the leading digits of the
position of a point are the position of the cube that holds it. So the curve runs through every
aligned cube in one piece.
-/

namespace MeshDecomp.Hilbert

open Hilbert.Cube

variable {s t j n : Nat} {c d : Cube}

/-! ### The grid of larger cubes -/

namespace Cube

theorem octant_div (ht : 0 < t) (s : Nat) (c : Cube) :
    (c.map (· / t)).octant s = c.octant (s * t) := by
  simp only [octant, map, Nat.le_div_iff_mul_le ht]

theorem reflect_div (h : c.x < s * t) :
    (c.reflect (s * t)).map (· / t) = (c.map (· / t)).reflect s := by
  have hx : (s * t - 1 - c.x) / t = s - 1 - c.x / t := by
    have hdiv := Nat.mul_sub_div c.x t s (by rwa [Nat.mul_comm])
    rw [Nat.mul_comm t s] at hdiv
    have hcount : s * t - 1 - c.x = s * t - (c.x + 1) := by omega
    rw [hcount, hdiv]
    omega
  simp only [reflect, map, hx]

theorem turn_div (h : c.Inside (s * t)) (o : Octant) (a : Axis) :
    (turn (s * t) o c a).map (· / t) = turn s o (c.map (· / t)) a := by
  unfold turn
  split
  · exact reflect_div h.1
  · cases a <;> rfl

theorem straighten_div (h : c.Inside (s * t)) (o : Octant) :
    (c.straighten (s * t) o).map (· / t) = (c.map (· / t)).straighten s o := by
  simp only [straighten_eq, turn_div ((h.turn o .x).turn o .y), turn_div (h.turn o .x), turn_div h]

theorem inner_div (hs : 0 < s) (ht : 0 < t) (c : Cube) :
    (inner (s * t) c).map (· / t) = inner s (c.map (· / t)) := by
  have hmod : (c.map (· % (s * t))).map (· / t) = (c.map (· / t)).map (· % s) := by
    simp only [map, Nat.mod_mul_left_div_self]
  have hinside := inside_map_mod (Nat.mul_pos hs ht) c
  rw [inner, straighten_div hinside, hmod, ← octant_div ht, inner]

end Cube

/-- The leading digits of a position are the position on the grid of larger cubes. -/
theorem position_div (j n : Nat) (r : Bool) (c : Cube) :
    position (j + n) r c / 8 ^ n = position j r (c.map (· / 2 ^ n)) := by
  induction j generalizing r c with
  | zero =>
    have hlt := position_lt n r c
    simp only [Nat.zero_add, position, Nat.div_eq_of_lt hlt]
  | succ j ih =>
    have hpos : 0 < 8 ^ n := Nat.pow_pos (by omega)
    have hdigits (q p : Nat) : (q * 8 ^ (j + n) + p) / 8 ^ n = q * 8 ^ j + p / 8 ^ n := by
      rw [Nat.pow_add, ← Nat.mul_assoc, Nat.add_comm, Nat.add_mul_div_right _ _ hpos, Nat.add_comm]
    -- a point lies in the same octant, at the same place, on both grids
    have hinner := inner_div (Nat.two_pow_pos j) (Nat.two_pow_pos n) c
    have hoctant := octant_div (Nat.two_pow_pos n) (2 ^ j) c
    rw [Nat.add_right_comm, position_succ, position_succ, hdigits, ih, Nat.pow_add, hinner, hoctant]

theorem Cube.map_mod_div (hj : j + n = 21) (c : Cube) :
    (c.map (· % 2 ^ 21)).map (· / 2 ^ n) = (c.map (· / 2 ^ n)).map (· % 2 ^ j) := by
  simp only [map, ← hj, Nat.pow_add, Nat.mod_mul_left_div_self]

theorem index_div (hj : j + n = 21) (c : Cube) :
    index c.x c.y c.z / 8 ^ n = position j false ((c.map (· / 2 ^ n)).map (· % 2 ^ j)) := by
  rw [← map_mod_div hj, ← position_div, hj, index_eq_position]
  rfl

/-- Positions share their leading digits if the points lie in the same larger cube. -/
theorem index_div_eq_iff (hj : j + n = 21) :
    index c.x c.y c.z / 8 ^ n = index d.x d.y d.z / 8 ^ n ↔
      (c.map (· / 2 ^ n)).map (· % 2 ^ j) = (d.map (· / 2 ^ n)).map (· % 2 ^ j) := by
  have hinside (c : Cube) := inside_map_mod (Nat.two_pow_pos j) (c.map (· / 2 ^ n))
  rw [index_div hj, index_div hj]
  constructor
  · exact position_injective (hinside c) (hinside d)
  · exact congrArg _

/-! ### Leading bits -/

/-- Numbers agree in the `m` bits from the bit `n` on. -/
theorem div_mod_eq_iff {m n v w : Nat} : v / 2 ^ n % 2 ^ m = w / 2 ^ n % 2 ^ m ↔
    ∀ i, n ≤ i → i < m + n → v.testBit i = w.testBit i := by
  have hbit (v i : Nat) :
      (v / 2 ^ n % 2 ^ m).testBit i = (decide (i < m) && v.testBit (i + n)) := by
    rw [Nat.testBit_mod_two_pow, Nat.testBit_div_two_pow]
  constructor
  · intro h i hle hlt
    have hi := congrArg (Nat.testBit · (i - n)) h
    have hm : i - n < m := by omega
    simpa only [hbit, Nat.sub_add_cancel hle, hm, decide_true, Bool.true_and] using hi
  · intro h
    apply Nat.eq_of_testBit_eq
    intro i
    simp only [hbit]
    by_cases hi : i < m
    · rw [h (i + n) (by omega) (by omega)]
    · simp only [hi, decide_false, Bool.false_and]

namespace Cube

theorem map_eq_map_iff (f : Nat → Nat) (c d : Cube) :
    c.map f = d.map f ↔ ∀ a, f (c.get a) = f (d.get a) := by
  constructor
  · intro h a
    obtain ⟨hx, hy, hz⟩ := Cube.mk.inj h
    cases a <;> assumption
  · intro h
    have hx := h .x
    have hy := h .y
    have hz := h .z
    simp only [get] at hx hy hz
    simp only [map, hx, hy, hz]

theorem map_div_mod_eq_iff {m : Nat} :
    (c.map (· / 2 ^ n)).map (· % 2 ^ m) = (d.map (· / 2 ^ n)).map (· % 2 ^ m) ↔
      ∀ i, n ≤ i → i < m + n → ∀ a, (c.get a).testBit i = (d.get a).testBit i := by
  have hmap (c : Cube) :
      (c.map (· / 2 ^ n)).map (· % 2 ^ m) = c.map (fun v => v / 2 ^ n % 2 ^ m) := rfl
  simp only [hmap, map_eq_map_iff, div_mod_eq_iff]
  constructor
  · intro h i hle hlt a
    exact h a i hle hlt
  · intro h a i hle hlt
    exact h i hle hlt a

end Cube

theorem index_lt (x y z : Nat) : index x y z < 2 ^ 63 := by
  have hlt := position_lt levels false ⟨x % 2 ^ 21, y % 2 ^ 21, z % 2 ^ 21⟩
  have hsize : 8 ^ levels = 2 ^ 63 := by decide
  rwa [← index_eq_position, hsize] at hlt

/-- The leading digits of a position are its leading bits, three for each. -/
theorem index_div_eq_iff_testBit (hj : j + n = 21) :
    index c.x c.y c.z / 8 ^ n = index d.x d.y d.z / 8 ^ n ↔
      ∀ i, 3 * n ≤ i → i < 63 →
        (index c.x c.y c.z).testBit i = (index d.x d.y d.z).testBit i := by
  have hcount : 3 * j + 3 * n = 63 := by omega
  have hpow : 8 ^ n = 2 ^ (3 * n) := (Nat.pow_mul 2 3 n).symm
  have hlt (c : Cube) : index c.x c.y c.z / 2 ^ (3 * n) < 2 ^ (3 * j) := by
    apply Nat.div_lt_of_lt_mul
    rw [← Nat.pow_add, Nat.add_comm, hcount]
    exact index_lt c.x c.y c.z
  rw [hpow, ← Nat.mod_eq_of_lt (hlt c), ← Nat.mod_eq_of_lt (hlt d), div_mod_eq_iff, hcount]

/-! ### Whole cubes -/

/-- The aligned cube of side `s` that is number `o` along the axes. -/
def aligned (s : Nat) (o : Cube) : Set Cube := {c | c.map (· / s) = o}

theorem mem_Ico_iff_div {k p m : Nat} (hm : 0 < m) :
    p ∈ Set.Ico (k * m) ((k + 1) * m) ↔ p / m = k := by
  rw [Set.mem_Ico, Nat.div_eq_iff hm, Nat.add_mul]
  omega

/-- No two points of an aligned cube have the same place. -/
theorem injOn_aligned (hj : j + n = 21) (o : Cube) :
    Set.InjOn (fun c : Cube => index c.x c.y c.z) (aligned (2 ^ n) o) := by
  intro c hc d hd h
  have hall := (index_div_eq_iff (n := 0) rfl).1 (congrArg (· / 8 ^ 0) h)
  rw [map_div_mod_eq_iff] at hall
  have hdiv : c.map (· / 2 ^ n) = d.map (· / 2 ^ n) := hc.trans hd.symm
  rw [map_eq_map_iff] at hdiv
  have hget (a : Axis) : c.get a = d.get a := by
    apply Nat.eq_of_testBit_eq
    intro i
    -- the low bits are those of the place, the high ones those of the cube
    by_cases hi : i < 21
    · exact hall i (by omega) hi a
    · have hbit := congrArg (Nat.testBit · (i - n)) (hdiv a)
      have hback : i - n + n = i := by omega
      simpa only [Nat.testBit_div_two_pow, hback] using hbit
  exact (map_eq_map_iff id c d).2 hget

/-- A coordinate `w` on the grid, as many whole grids further on as the cube number `v` is. -/
theorem far_div {v w : Nat} (hj : j + n = 21) (hw : w < 2 ^ 21)
    (h : w / 2 ^ n % 2 ^ j = v % 2 ^ j) : (w + 2 ^ 21 * (v / 2 ^ j)) / 2 ^ n = v := by
  have hsplit : 2 ^ 21 = 2 ^ n * 2 ^ j := by rw [← Nat.pow_add, Nat.add_comm, hj]
  have hlt : w / 2 ^ n < 2 ^ j := Nat.div_lt_of_lt_mul (by rwa [← hsplit])
  calc (w + 2 ^ 21 * (v / 2 ^ j)) / 2 ^ n
      = (w + 2 ^ n * (2 ^ j * (v / 2 ^ j))) / 2 ^ n := by rw [hsplit, Nat.mul_assoc]
    _ = w / 2 ^ n + 2 ^ j * (v / 2 ^ j) := Nat.add_mul_div_left _ _ (Nat.two_pow_pos n)
    _ = v % 2 ^ j + 2 ^ j * (v / 2 ^ j) := by rw [← h, Nat.mod_eq_of_lt hlt]
    _ = v := Nat.mod_add_div v (2 ^ j)

/-- An aligned cube has every place that begins with its own digits. -/
theorem exists_aligned (hj : j + n = 21) (o : Cube) {p : Nat}
    (hp : p / 8 ^ n = position j false (o.map (· % 2 ^ j))) :
    ∃ c ∈ aligned (2 ^ n) o, index c.x c.y c.z = p := by
  have hlt : p < 8 ^ 21 := by
    rw [← hj, Nat.pow_add, ← Nat.div_lt_iff_lt_mul (Nat.pow_pos (by omega)), hp]
    exact position_lt j false _
  obtain ⟨e, he, hindex⟩ := exists_position hlt false
  rw [← index_eq he] at hindex
  have hinside (c : Cube) := inside_map_mod (Nat.two_pow_pos j) c
  have hsame : (e.map (· / 2 ^ n)).map (· % 2 ^ j) = o.map (· % 2 ^ j) := by
    apply position_injective (hinside _) (hinside _)
    rw [← index_div hj, hindex, hp]
  obtain ⟨hx, hy, hz⟩ := Cube.mk.inj hsame
  refine ⟨⟨e.x + 2 ^ 21 * (o.x / 2 ^ j), e.y + 2 ^ 21 * (o.y / 2 ^ j),
    e.z + 2 ^ 21 * (o.z / 2 ^ j)⟩, ?_, ?_⟩
  · show Cube.mk _ _ _ = o
    simp only [far_div hj he.1 hx, far_div hj he.2.1 hy, far_div hj he.2.2 hz]
  · simp only [← hindex, index_eq_position, Nat.add_mul_mod_self_left]

/-- The curve runs through an aligned cube in one piece. -/
theorem bijOn_aligned (hj : j + n = 21) (o : Cube) :
    ∃ k < 8 ^ j, Set.BijOn (fun c : Cube => index c.x c.y c.z) (aligned (2 ^ n) o)
      (Set.Ico (k * 8 ^ n) ((k + 1) * 8 ^ n)) := by
  have hpos : 0 < 8 ^ n := Nat.pow_pos (by omega)
  obtain ⟨k, hk⟩ : ∃ k, position j false (o.map (· % 2 ^ j)) = k := ⟨_, rfl⟩
  have hmaps : Set.MapsTo (fun c : Cube => index c.x c.y c.z) (aligned (2 ^ n) o)
      (Set.Ico (k * 8 ^ n) ((k + 1) * 8 ^ n)) := by
    intro c hc
    have hdiv := index_div hj c
    rw [show c.map (· / 2 ^ n) = o from hc, hk] at hdiv
    exact (mem_Ico_iff_div hpos).2 hdiv
  have hsurj : Set.SurjOn (fun c : Cube => index c.x c.y c.z) (aligned (2 ^ n) o)
      (Set.Ico (k * 8 ^ n) ((k + 1) * 8 ^ n)) := by
    intro p hp
    have hdiv := (mem_Ico_iff_div hpos).1 hp
    exact exists_aligned hj o (hdiv.trans hk.symm)
  exact ⟨k, hk ▸ position_lt j false _, hmaps, injOn_aligned hj o, hsurj⟩

/-- The leading bits of a position name the aligned cube of the point, at every level: points have
the first `3 * j` bits in common if they have the first `j` bits of every coordinate in common, each
aligned cube has one run of positions to itself, and the bits of the coordinates above the 21 that
are kept do not count. -/
theorem curve_nests_octants {j : Nat} (hj : j ≤ 21) :
    (∀ c d : Cube, (∀ i, 63 - 3 * j ≤ i → i < 63 →
        (index c.x c.y c.z).testBit i = (index d.x d.y d.z).testBit i) ↔
      ∀ i, 21 - j ≤ i → i < 21 → ∀ a, (c.get a).testBit i = (d.get a).testBit i) ∧
    (∀ o : Cube, ∃ k < 8 ^ j, Set.BijOn (fun c : Cube => index c.x c.y c.z)
      (aligned (2 ^ (21 - j)) o) (Set.Ico (k * 8 ^ (21 - j)) ((k + 1) * 8 ^ (21 - j)))) ∧
    ∀ x y z, index x y z < 2 ^ 63 ∧
      index x y z = index (x % 2 ^ 21) (y % 2 ^ 21) (z % 2 ^ 21) := by
  have hsum : j + (21 - j) = 21 := by omega
  have hleading : 63 - 3 * j = 3 * (21 - j) := by omega
  refine ⟨?_, bijOn_aligned hsum, ?_⟩
  · intro c d
    rw [hleading, ← index_div_eq_iff_testBit hsum, index_div_eq_iff hsum, map_div_mod_eq_iff, hsum]
  · intro x y z
    have hmod : index x y z = index (x % 2 ^ 21) (y % 2 ^ 21) (z % 2 ^ 21) := by
      simp only [index_eq_position, Nat.mod_mod]
    exact ⟨index_lt x y z, hmod⟩

/-- Two points of one aligned cube, a quarter of the grid along each axis. -/
theorem quarter_shares_leading_bits :
    2 ≤ 21 ∧
    (∀ i, 19 ≤ i → i < 21 → ∀ a, ((⟨2 ^ 19 + 5, 2 ^ 20 - 1, 3⟩ : Cube).get a).testBit i =
      ((⟨2 ^ 31 + 2 ^ 19, 2 ^ 19, 2 ^ 25⟩ : Cube).get a).testBit i) ∧
    (∀ i, 57 ≤ i → i < 63 → (index (2 ^ 19 + 5) (2 ^ 20 - 1) 3).testBit i =
      (index (2 ^ 31 + 2 ^ 19) (2 ^ 19) (2 ^ 25)).testBit i) ∧
    ∃ k < 64, Set.BijOn (fun c : Cube => index c.x c.y c.z) (aligned (2 ^ 19) ⟨1, 1, 0⟩)
      (Set.Ico (k * 8 ^ 19) ((k + 1) * 8 ^ 19)) := by
  have hj : 2 ≤ 21 := by decide
  obtain ⟨hbits, hruns, -⟩ := curve_nests_octants hj
  have hsame : ∀ i, 19 ≤ i → i < 21 → ∀ a, ((⟨2 ^ 19 + 5, 2 ^ 20 - 1, 3⟩ : Cube).get a).testBit i =
      ((⟨2 ^ 31 + 2 ^ 19, 2 ^ 19, 2 ^ 25⟩ : Cube).get a).testBit i := by
    intro i hle hlt a
    obtain rfl | rfl : i = 19 ∨ i = 20 := by omega
    all_goals cases a <;> decide
  exact ⟨hj, hsame, (hbits ⟨2 ^ 19 + 5, 2 ^ 20 - 1, 3⟩ ⟨2 ^ 31 + 2 ^ 19, 2 ^ 19, 2 ^ 25⟩).2 hsame,
    hruns ⟨1, 1, 0⟩⟩

end MeshDecomp.Hilbert
