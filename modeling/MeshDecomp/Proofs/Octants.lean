import Mathlib.Algebra.Group.Nat.Defs
import MeshDecomp.Partition.Hilbert

/-!
The Hilbert curve octant by octant. The curve visits the eight octants of a cube one after the
other; in each it is the same curve, reflected and with axes exchanged. The highest bits of a point
name its octant, and the bits below them, once inverted and exchanged, its place in the octant.
-/

namespace MeshDecomp.Hilbert

/-! ### The curve through a cube -/

/-- A corner of a cube, one bit per axis. -/
structure Octant where
  x : Bool
  y : Bool
  z : Bool
  deriving DecidableEq

namespace Octant

def get (o : Octant) : Axis → Bool
  | .x => o.x
  | .y => o.y
  | .z => o.z

/-- The place of an octant in the Gray code of the octants, counted from the far end if the curve
runs backwards. -/
def digit (o : Octant) (backwards : Bool) : Nat :=
  let y := o.x ^^ o.y
  let z := y ^^ o.z
  4 * (o.x ^^ backwards).toNat + 2 * (y ^^ backwards).toNat + (z ^^ backwards).toNat

/-- The number of set bits is odd. -/
def odd (o : Octant) : Bool := o.x ^^ o.y ^^ o.z

end Octant

namespace Cube

/-- The octant of side `s` that holds the point. -/
def octant (s : Nat) (c : Cube) : Octant := ⟨s ≤ c.x, s ≤ c.y, s ≤ c.z⟩

/-- Reflects the first axis. -/
def reflect (s : Nat) (c : Cube) : Cube := { c with x := s - 1 - c.x }

/-- Exchanges the first axis with another. -/
def swap (c : Cube) : Axis → Cube
  | .x => c
  | .y => ⟨c.y, c.x, c.z⟩
  | .z => ⟨c.z, c.y, c.x⟩

/-- Reflects the first axis where the octant has a set bit, else exchanges it. -/
def turn (s : Nat) (o : Octant) (c : Cube) (a : Axis) : Cube :=
  if o.get a then c.reflect s else c.swap a

/-- Takes the point of an octant to its place in the standard curve. -/
def straighten (s : Nat) (o : Octant) (c : Cube) : Cube := Axis.all.foldl (turn s o) c

end Cube

/-- The position of a point on the curve through a cube of side `2 ^ b`. -/
def position : (b : Nat) → (backwards : Bool) → Cube → Nat
  | 0, _, _ => 0
  | b + 1, backwards, c =>
      let o := c.octant (2 ^ b)
      o.digit backwards * 8 ^ b +
        position b (backwards ^^ o.odd) ((c.map (· % 2 ^ b)).straighten (2 ^ b) o)

/-! ### One bit of the coordinates -/

variable {b v w : Nat} {c : Cube} {a : Axis}

theorem xor_below_mod (b v : Nat) : (v ^^^ (2 ^ b - 1)) % 2 ^ b = 2 ^ b - 1 - v % 2 ^ b := by
  have hlt : v % 2 ^ b < 2 ^ b := Nat.mod_lt v (Nat.two_pow_pos b)
  apply Nat.eq_of_testBit_eq
  intro i
  rw [Nat.sub_sub, Nat.add_comm 1, Nat.testBit_two_pow_sub_succ hlt, Nat.testBit_mod_two_pow,
    Nat.testBit_xor, Nat.testBit_two_pow_sub_one, Nat.testBit_mod_two_pow]
  by_cases hi : i < b <;> simp [hi]

theorem xor_exchange_mod (b v w : Nat) :
    (v ^^^ ((v ^^^ w) &&& (2 ^ b - 1))) % 2 ^ b = w % 2 ^ b := by
  rw [Nat.and_two_pow_sub_one_eq_mod, Nat.xor_mod_two_pow, Nat.mod_mod, Nat.xor_mod_two_pow,
    ← Nat.xor_assoc, Nat.xor_self, Nat.zero_xor]

theorem xor_div (h : w < 2 ^ b) (v : Nat) : (v ^^^ w) / 2 ^ b = v / 2 ^ b := by
  rw [Nat.xor_div_two_pow, Nat.div_eq_of_lt h, Nat.xor_zero]

theorem le_mod_iff (b v : Nat) : decide (2 ^ b ≤ v % 2 ^ (b + 1)) = v.testBit b := by
  have hsplit : v % 2 ^ (b + 1) = v % 2 ^ b + 2 ^ b * (v / 2 ^ b % 2) := by
    rw [Nat.pow_succ, Nat.mod_mul]
  have hlt : v % 2 ^ b < 2 ^ b := Nat.mod_lt v (Nat.two_pow_pos b)
  rw [Nat.testBit_eq_decide_div_mod_eq, hsplit, decide_eq_decide]
  rcases Nat.mod_two_eq_zero_or_one (v / 2 ^ b) with h | h <;> rw [h] <;> omega

namespace Cube

/-- The octant that the bits `b` of the coordinates name. -/
def octantAt (b : Nat) (c : Cube) : Octant := ⟨c.x.testBit b, c.y.testBit b, c.z.testBit b⟩

theorem octant_map_mod (b : Nat) (c : Cube) :
    (c.map (· % 2 ^ (b + 1))).octant (2 ^ b) = c.octantAt b := by
  rw [octant, octantAt, Octant.mk.injEq]
  exact ⟨le_mod_iff b c.x, le_mod_iff b c.y, le_mod_iff b c.z⟩

theorem get_octantAt (b : Nat) (c : Cube) (a : Axis) :
    (c.octantAt b).get a = (c.get a).testBit b := by
  cases a <;> rfl

theorem octantAt_eq_of_div {c d : Cube} (h : c.map (· / 2 ^ b) = d.map (· / 2 ^ b)) :
    c.octantAt b = d.octantAt b := by
  have hbit (v : Nat) : v.testBit b = (v / 2 ^ b).testBit 0 := by
    rw [Nat.testBit_div_two_pow, Nat.zero_add]
  obtain ⟨hx, hy, hz⟩ := Cube.mk.inj h
  simp only [octantAt, hbit, hx, hy, hz]

/-! ### The bits below -/

/-- The bits from `b` upwards stay. -/
theorem undo_div (b : Nat) (c : Cube) (a : Axis) :
    (undo b c a).map (· / 2 ^ b) = c.map (· / 2 ^ b) := by
  have hbelow : 2 ^ b - 1 < 2 ^ b := Nat.sub_one_lt_of_lt (Nat.two_pow_pos b)
  have hinvert (v : Nat) : (v ^^^ (2 ^ b - 1)) / 2 ^ b = v / 2 ^ b := xor_div hbelow v
  have hexchange (v w : Nat) : (v ^^^ (w &&& (2 ^ b - 1))) / 2 ^ b = v / 2 ^ b :=
    xor_div (Nat.lt_of_le_of_lt Nat.and_le_right hbelow) v
  unfold undo
  rw [Nat.one_shiftLeft]
  split
  · simp only [alter, map, hinvert]
  · cases a <;> simp only [alter, map, hexchange]

/-- The bits below `b` are reflected or exchanged. -/
theorem undo_mod (b : Nat) (c : Cube) (a : Axis) :
    (undo b c a).map (· % 2 ^ b) = turn (2 ^ b) (c.octantAt b) (c.map (· % 2 ^ b)) a := by
  have hexchange (v w : Nat) : (w ^^^ ((v ^^^ w) &&& (2 ^ b - 1))) % 2 ^ b = v % 2 ^ b := by
    rw [Nat.xor_comm v w, xor_exchange_mod]
  unfold undo turn
  rw [get_octantAt, Nat.one_shiftLeft]
  split
  · simp only [alter, map, reflect, xor_below_mod]
  · cases a with
    | x => simp only [alter, get, swap, Nat.xor_self, Nat.zero_and, Nat.xor_zero]
    | y => simp only [alter, get, swap, map, xor_exchange_mod, hexchange]
    | z => simp only [alter, get, swap, map, xor_exchange_mod, hexchange]

/-- The three axes in turn straighten the octant. -/
theorem foldl_undo_mod (b : Nat) (c : Cube) : (Axis.all.foldl (undo b) c).map (· % 2 ^ b) =
    (c.map (· % 2 ^ b)).straighten (2 ^ b) (c.octantAt b) := by
  have hx := octantAt_eq_of_div (undo_div b c .x)
  have hy := octantAt_eq_of_div (undo_div b (undo b c .x) .y)
  change (undo b (undo b (undo b c .x) .y) .z).map (· % 2 ^ b) = _
  rw [undo_mod, undo_mod, undo_mod, hy, hx]
  rfl

theorem foldl_undo_div (b : Nat) (c : Cube) :
    (Axis.all.foldl (undo b) c).map (· / 2 ^ b) = c.map (· / 2 ^ b) :=
  (undo_div b _ .z).trans ((undo_div b _ .y).trans (undo_div b c .x))

theorem map_div_succ (b : Nat) (c : Cube) :
    c.map (· / 2 ^ (b + 1)) = (c.map (· / 2 ^ b)).map (· / 2) := by
  simp only [map, Nat.div_div_eq_div_mul, Nat.pow_succ]

theorem map_mod_succ (b : Nat) (c : Cube) :
    (c.map (· % 2 ^ (b + 1))).map (· % 2 ^ b) = c.map (· % 2 ^ b) := by
  simp only [map, Nat.pow_succ, Nat.mod_mul_right_mod]

theorem undoAll_div (b : Nat) (c : Cube) : (c.undoAll b).map (· / 2 ^ b) = c.map (· / 2 ^ b) := by
  induction b generalizing c with
  | zero => rfl
  | succ b ih =>
    rw [undoAll, map_div_succ, ih, ← map_div_succ, foldl_undo_div]

end Cube

theorem testBit_invert {i : Nat} (h : b ≤ i) (t z : Nat) :
    (invert b t z).testBit i = t.testBit i := by
  induction b generalizing t with
  | zero => rfl
  | succ b ih =>
    rw [invert, ih (Nat.le_of_succ_le h), Nat.one_shiftLeft]
    split
    · rw [Nat.testBit_xor, Nat.testBit_two_pow_sub_one, decide_eq_false (Nat.not_lt.2 h),
        Bool.xor_false]
    · rfl

namespace Cube

theorem interleave_eq (b key : Nat) (c : Cube) :
    c.interleave b key = key * 8 ^ b + c.interleave b 0 := by
  induction b generalizing key with
  | zero => simp [interleave]
  | succ b ih =>
    have hkey (x y z : Nat) :
        2 * (2 * (2 * key + x) + y) + z = key * 8 + (2 * (2 * (2 * 0 + x) + y) + z) := by omega
    rw [interleave, ih, interleave, ih (Axis.all.foldl _ 0), Nat.pow_succ]
    simp only [Axis.all, List.foldl_cons, List.foldl_nil]
    rw [hkey, Nat.add_mul, Nat.mul_assoc, Nat.mul_comm 8, Nat.add_assoc]

theorem testBit_gray (b : Nat) (c : Cube) : c.gray.z.testBit b = (c.octantAt b).odd := by
  simp only [gray, Nat.testBit_xor, octantAt, Octant.odd, Bool.xor_comm]

/-- The highest bits, the Gray code undone, are the digit of the octant. -/
theorem interleave_succ {t : Nat} {r : Bool} (ht : t.testBit b = r) (c : Cube) :
    (c.gray.map (· ^^^ t)).interleave (b + 1) 0 =
      (c.octantAt b).digit r * 8 ^ b + (c.gray.map (· ^^^ t)).interleave b 0 := by
  rw [interleave, interleave_eq]
  congr 2
  simp only [Axis.all, List.foldl_cons, List.foldl_nil, get, gray, map, Nat.testBit_xor, ht,
    octantAt]
  generalize c.x.testBit b = x
  generalize c.y.testBit b = y
  generalize c.z.testBit b = z
  clear ht
  revert x y z r
  decide

end Cube

theorem position_map_mod (b : Nat) (r : Bool) (c : Cube) :
    position (b + 1) r (c.map (· % 2 ^ (b + 1))) = (c.octantAt b).digit r * 8 ^ b +
      position b (r ^^ (c.octantAt b).odd)
        ((c.map (· % 2 ^ b)).straighten (2 ^ b) (c.octantAt b)) := by
  rw [position, Cube.octant_map_mod, Cube.map_mod_succ]

/-- An odd octant turns the curve around in all bits below its own. -/
theorem testBit_turned {r : Bool} {t : Nat} (ht : ∀ i ≤ b + 1, t.testBit i = r) (odd : Bool) :
    (if odd then t ^^^ (2 ^ (b + 1) - 1) else t).testBit (b + 1) = r ∧
      ∀ i ≤ b, (if odd then t ^^^ (2 ^ (b + 1) - 1) else t).testBit i = (r ^^ odd) := by
  have hbit (i : Nat) :
      (t ^^^ (2 ^ (b + 1) - 1)).testBit i = (t.testBit i ^^ decide (i < b + 1)) := by
    rw [Nat.testBit_xor, Nat.testBit_two_pow_sub_one]
  cases odd with
  | false =>
    simp only [Bool.false_eq_true, ↓reduceIte, Bool.xor_false]
    exact ⟨ht _ (Nat.le_refl _), fun i hi => ht i (Nat.le_succ_of_le hi)⟩
  | true =>
    simp only [↓reduceIte, hbit]
    constructor
    · rw [ht _ (Nat.le_refl _), decide_eq_false (Nat.lt_irrefl _), Bool.xor_false]
    · intro i hi
      rw [ht i (Nat.le_succ_of_le hi), decide_eq_true (Nat.lt_succ_of_le hi)]

/-- From the bit `b` down, the bits give the position on the curve through a cube of side
`2 ^ (b + 1)`. -/
theorem interleave_undoAll {r : Bool} {t : Nat} (ht : ∀ i ≤ b, t.testBit i = r) (c : Cube) :
    ((c.undoAll b).gray.map (· ^^^ invert b t (c.undoAll b).gray.z)).interleave (b + 1) 0 =
      position (b + 1) r (c.map (· % 2 ^ (b + 1))) := by
  induction b generalizing r t c with
  | zero =>
    change (c.gray.map (· ^^^ t)).interleave 1 0 = _
    rw [Cube.interleave_succ (ht 0 (Nat.le_refl 0)), position_map_mod]
    rfl
  | succ b ih =>
    obtain ⟨d, hd⟩ : ∃ d, Axis.all.foldl (Cube.undo (b + 1)) c = d := ⟨_, rfl⟩
    have hoctant : (d.undoAll b).octantAt (b + 1) = c.octantAt (b + 1) := by
      apply Cube.octantAt_eq_of_div
      rw [Cube.map_div_succ, Cube.undoAll_div, ← Cube.map_div_succ, ← hd, Cube.foldl_undo_div]
    obtain ⟨hflag, hbelow⟩ := testBit_turned ht (c.octantAt (b + 1)).odd
    have htop := (testBit_invert (Nat.le_succ b) _ (d.undoAll b).gray.z).trans hflag
    rw [Cube.undoAll, hd, invert, Cube.testBit_gray, hoctant, Nat.one_shiftLeft,
      Cube.interleave_succ htop, hoctant, ih hbelow d, ← hd, Cube.foldl_undo_mod,
      position_map_mod (b + 1)]

/-- The curve through the cube of all points. -/
theorem index_eq_position (x y z : Nat) :
    index x y z = position levels false ⟨x % 2 ^ 21, y % 2 ^ 21, z % 2 ^ 21⟩ := by
  have hzero : ∀ i ≤ 20, (0 : Nat).testBit i = false := fun i _ => Nat.zero_testBit i
  exact interleave_undoAll hzero ⟨x, y, z⟩

end MeshDecomp.Hilbert
