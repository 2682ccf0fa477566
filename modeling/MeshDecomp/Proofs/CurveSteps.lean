import Mathlib.Data.Set.Function
import MeshDecomp.Proofs.Octants

/-!
The Hilbert curve takes unit steps. Each of the eight octants is visited once, in the order of a
Gray code, along a copy of the smaller curve; where one copy ends, the next one begins beside it.
-/

namespace MeshDecomp.Hilbert

/-! ### Points of a cube -/

/-- Two numbers that differ by one. -/
def Near (a b : Nat) : Prop := a = b + 1 ∨ b = a + 1

namespace Cube

/-- The points of a cube of side `s`. -/
def Inside (s : Nat) (c : Cube) : Prop := c.x < s ∧ c.y < s ∧ c.z < s

instance (s : Nat) (c : Cube) : Decidable (c.Inside s) :=
  inferInstanceAs (Decidable (c.x < s ∧ c.y < s ∧ c.z < s))

/-- Two points that differ by one in one coordinate and agree in the others. -/
def Beside (c d : Cube) : Prop :=
  (Near c.x d.x ∧ c.y = d.y ∧ c.z = d.z) ∨ (c.x = d.x ∧ Near c.y d.y ∧ c.z = d.z) ∨
    (c.x = d.x ∧ c.y = d.y ∧ Near c.z d.z)

theorem Beside.symm {c d : Cube} (h : c.Beside d) : d.Beside c := by
  unfold Beside Near at *
  omega

/-- Takes a point of the standard curve to its place in the octant. -/
def unstraighten (s : Nat) (o : Octant) (c : Cube) : Cube :=
  turn s o (turn s o (turn s o c .z) .y) .x

/-- A symmetry of the cube of side `s` that undoes itself. -/
structure Symmetry (s : Nat) (f : Cube → Cube) : Prop where
  inside : ∀ c, c.Inside s → (f c).Inside s
  undo : ∀ c, c.Inside s → f (f c) = c
  beside : ∀ c d, c.Inside s → d.Inside s → c.Beside d → (f c).Beside (f d)

variable {s : Nat} {o : Octant} {c d : Cube}

theorem symmetry_reflect : Symmetry s (reflect s) where
  inside c h := by
    simp only [Inside, reflect] at h ⊢
    omega
  undo c h := by
    have hx : s - 1 - (s - 1 - c.x) = c.x := by
      have := h.1
      omega
    exact congrArg (Cube.mk · c.y c.z) hx
  beside c d hc hd h := by
    simp only [Inside, Beside, Near, reflect] at hc hd h ⊢
    omega

theorem symmetry_swap (s : Nat) (a : Axis) : Symmetry s (swap · a) where
  inside c h := by
    obtain ⟨hx, hy, hz⟩ := h
    cases a
    exacts [⟨hx, hy, hz⟩, ⟨hy, hx, hz⟩, ⟨hz, hy, hx⟩]
  undo c h := by cases a <;> rfl
  beside c d hc hd h := by
    unfold Beside at *
    cases a <;> simp only [swap] <;> tauto

theorem symmetry_turn (s : Nat) (o : Octant) (a : Axis) : Symmetry s (turn s o · a) := by
  unfold turn
  cases o.get a with
  | true => exact symmetry_reflect
  | false => exact symmetry_swap s a

theorem straighten_eq : c.straighten s o = turn s o (turn s o (turn s o c .x) .y) .z := rfl

theorem Inside.turn (h : c.Inside s) (o : Octant) (a : Axis) : (turn s o c a).Inside s :=
  (symmetry_turn s o a).inside c h

theorem Inside.straighten (h : c.Inside s) : (c.straighten s o).Inside s :=
  ((h.turn o .x).turn o .y).turn o .z

theorem Inside.unstraighten (h : c.Inside s) : (c.unstraighten s o).Inside s :=
  ((h.turn o .z).turn o .y).turn o .x

theorem turn_undo (h : c.Inside s) (o : Octant) (a : Axis) : turn s o (turn s o c a) a = c :=
  (symmetry_turn s o a).undo c h

theorem unstraighten_straighten (h : c.Inside s) : (c.straighten s o).unstraighten s o = c := by
  rw [straighten_eq, Cube.unstraighten, turn_undo ((h.turn o .x).turn o .y),
    turn_undo (h.turn o .x), turn_undo h]

theorem straighten_unstraighten (h : c.Inside s) : (c.unstraighten s o).straighten s o = c := by
  rw [straighten_eq, Cube.unstraighten, turn_undo ((h.turn o .z).turn o .y),
    turn_undo (h.turn o .z), turn_undo h]

theorem Beside.unstraighten (h : c.Beside d) (hc : c.Inside s) (hd : d.Inside s) :
    (c.unstraighten s o).Beside (d.unstraighten s o) := by
  have hz := (symmetry_turn s o .z).beside c d hc hd h
  have hy := (symmetry_turn s o .y).beside _ _ (hc.turn o .z) (hd.turn o .z) hz
  exact (symmetry_turn s o .x).beside _ _ ((hc.turn o .z).turn o .y) ((hd.turn o .z).turn o .y) hy

/-- A corner of the cube of side 2, in the cube of side `s`. -/
def corner (s : Nat) (e : Cube) : Cube := e.map (· * (s - 1))

theorem Inside.corner (h : c.Inside 2) (hs : 0 < s) : (corner s c).Inside s := by
  have hbit {k : Nat} (hk : k < 2) : k * (s - 1) < s := by
    rcases Nat.le_one_iff_eq_zero_or_eq_one.1 (Nat.le_of_lt_succ hk) with rfl | rfl <;> omega
  exact ⟨hbit h.1, hbit h.2.1, hbit h.2.2⟩

theorem reflect_corner (h : c.Inside 2) : (corner s c).reflect s = corner s (c.reflect 2) := by
  have hbit : s - 1 - c.x * (s - 1) = (2 - 1 - c.x) * (s - 1) := by
    rcases Nat.le_one_iff_eq_zero_or_eq_one.1 (Nat.le_of_lt_succ h.1) with hx | hx <;>
      rw [hx] <;> omega
  exact congrArg (Cube.mk · _ _) hbit

theorem turn_corner (h : c.Inside 2) (o : Octant) (a : Axis) :
    turn s o (corner s c) a = corner s (turn 2 o c a) := by
  unfold turn
  split
  · exact reflect_corner h
  · cases a <;> rfl

theorem unstraighten_corner (h : c.Inside 2) :
    (corner s c).unstraighten s o = corner s (c.unstraighten 2 o) := by
  rw [Cube.unstraighten, turn_corner h, turn_corner (h.turn o .z),
    turn_corner ((h.turn o .z).turn o .y)]
  rfl

/-- The point of an octant with a given place on the standard curve. -/
def placed (s : Nat) (o : Octant) (c : Cube) : Cube :=
  let e := c.unstraighten s o
  ⟨o.x.toNat * s + e.x, o.y.toNat * s + e.y, o.z.toNat * s + e.z⟩

/-- The place of a point on the standard curve of its octant. -/
def inner (s : Nat) (c : Cube) : Cube := (c.map (· % s)).straighten s (c.octant s)

theorem inside_map_mod (hs : 0 < s) (c : Cube) : (c.map (· % s)).Inside s :=
  ⟨Nat.mod_lt _ hs, Nat.mod_lt _ hs, Nat.mod_lt _ hs⟩

theorem inside_inner (hs : 0 < s) (c : Cube) : (inner s c).Inside s :=
  (inside_map_mod hs c).straighten

theorem placed_inner (hc : c.Inside (s * 2)) (hs : 0 < s) :
    placed s (c.octant s) (inner s c) = c := by
  have hsplit {k : Nat} (hk : k < s * 2) : (decide (s ≤ k)).toNat * s + k % s = k := by
    by_cases hle : s ≤ k
    · rw [decide_eq_true hle, Nat.mod_eq_sub_mod hle, Nat.mod_eq_of_lt (by omega)]
      simp
      omega
    · rw [decide_eq_false hle, Nat.mod_eq_of_lt (Nat.lt_of_not_le hle)]
      simp
  rw [placed, inner, unstraighten_straighten (inside_map_mod hs c)]
  obtain ⟨x, y, z⟩ := c
  exact congr (congr (congrArg Cube.mk (hsplit hc.1)) (hsplit hc.2.1)) (hsplit hc.2.2)

theorem Inside.placed (h : c.Inside s) : (placed s o c).Inside (s * 2) := by
  obtain ⟨hx, hy, hz⟩ : (c.unstraighten s o).Inside s := h.unstraighten
  have hbit (r : Bool) {k : Nat} (hk : k < s) : r.toNat * s + k < s * 2 := by
    have : r.toNat * s ≤ 1 * s := Nat.mul_le_mul_right s r.toNat_le
    omega
  exact ⟨hbit _ hx, hbit _ hy, hbit _ hz⟩

theorem octant_placed (h : c.Inside s) : (placed s o c).octant s = o := by
  obtain ⟨hx, hy, hz⟩ : (c.unstraighten s o).Inside s := h.unstraighten
  have hbit (r : Bool) {k : Nat} (hk : k < s) : decide (s ≤ r.toNat * s + k) = r := by
    cases r with
    | false => simpa using hk
    | true => simp
  exact congr (congr (congrArg Octant.mk (hbit _ hx)) (hbit _ hy)) (hbit _ hz)

theorem inner_placed (h : c.Inside s) : inner s (placed s o c) = c := by
  obtain ⟨hx, hy, hz⟩ : (c.unstraighten s o).Inside s := h.unstraighten
  have hbit (r : Bool) {k : Nat} (hk : k < s) : (r.toNat * s + k) % s = k := by
    rw [Nat.mul_add_mod_self_right, Nat.mod_eq_of_lt hk]
  have hmod : (placed s o c).map (· % s) = c.unstraighten s o := by
    simp only [placed, map, hbit _ hx, hbit _ hy, hbit _ hz]
  rw [inner, octant_placed h, hmod, straighten_unstraighten h]

theorem Beside.placed (h : c.Beside d) (hc : c.Inside s) (hd : d.Inside s) :
    (placed s o c).Beside (placed s o d) := by
  have hturned := h.unstraighten (o := o) hc hd
  simp only [Beside, Near, Cube.placed] at hturned ⊢
  omega

end Cube

open Hilbert.Cube

/-! ### The places of the points -/

theorem digit_lt (o : Octant) (r : Bool) : o.digit r < 8 := by
  obtain ⟨x, y, z⟩ := o
  revert x y z r
  decide

theorem digit_injective {o o' : Octant} {r : Bool} (h : o.digit r = o'.digit r) : o = o' := by
  obtain ⟨x, y, z⟩ := o
  obtain ⟨x', y', z'⟩ := o'
  revert x y z x' y' z' r
  decide

theorem exists_digit {k : Nat} (hk : k < 8) (r : Bool) : ∃ o : Octant, o.digit r = k := by
  have hall : ∀ (r : Bool) (k : Fin 8), ∃ x y z, (Octant.mk x y z).digit r = k := by decide
  obtain ⟨x, y, z, ho⟩ := hall r ⟨k, hk⟩
  exact ⟨_, ho⟩

theorem digit_not (o : Octant) (r : Bool) : o.digit (!r) + o.digit r = 7 := by
  obtain ⟨x, y, z⟩ := o
  revert x y z r
  decide

variable {b : Nat} {r : Bool} {c d : Cube}

theorem position_succ (b : Nat) (r : Bool) (c : Cube) :
    position (b + 1) r c = (c.octant (2 ^ b)).digit r * 8 ^ b +
      position b (r ^^ (c.octant (2 ^ b)).odd) (inner (2 ^ b) c) := rfl

theorem position_placed (h : c.Inside (2 ^ b)) (r : Bool) (o : Octant) :
    position (b + 1) r (placed (2 ^ b) o c) = o.digit r * 8 ^ b + position b (r ^^ o.odd) c := by
  rw [position_succ, octant_placed h, inner_placed h]

theorem position_lt (b : Nat) (r : Bool) (c : Cube) : position b r c < 8 ^ b := by
  induction b generalizing r c with
  | zero => exact Nat.one_pos
  | succ b ih =>
    have hdigit := digit_lt (c.octant (2 ^ b)) r
    have hrest := ih (r ^^ (c.octant (2 ^ b)).odd) (inner (2 ^ b) c)
    have hmost : (c.octant (2 ^ b)).digit r * 8 ^ b ≤ 7 * 8 ^ b :=
      Nat.mul_le_mul_right _ (Nat.le_of_lt_succ hdigit)
    rw [position_succ, Nat.pow_succ]
    omega

/-- The curve run backwards. -/
theorem position_not (b : Nat) (r : Bool) (c : Cube) :
    position b (!r) c + position b r c + 1 = 8 ^ b := by
  induction b generalizing r c with
  | zero => rfl
  | succ b ih =>
    have hdigit := digit_not (c.octant (2 ^ b)) r
    have hrest := ih (r ^^ (c.octant (2 ^ b)).odd) (inner (2 ^ b) c)
    rw [position_succ, position_succ, Bool.not_xor, Nat.pow_succ]
    have hsum : (c.octant (2 ^ b)).digit (!r) * 8 ^ b + (c.octant (2 ^ b)).digit r * 8 ^ b =
        7 * 8 ^ b := by
      rw [← Nat.add_mul, hdigit]
    omega

theorem exists_placed (h : c.Inside (2 ^ (b + 1))) :
    ∃ o c', c'.Inside (2 ^ b) ∧ placed (2 ^ b) o c' = c :=
  ⟨_, _, inside_inner (Nat.two_pow_pos b) c, placed_inner h (Nat.two_pow_pos b)⟩

/-- Numbers with a digit in front are told apart by digit and rest. -/
theorem eq_and_eq_of_mul_add {n q q' p p' : Nat} (hp : p < n) (hp' : p' < n)
    (h : q * n + p = q' * n + p') : q = q' ∧ p = p' := by
  have hn : 0 < n := Nat.zero_lt_of_lt hp
  have hdiv {q p : Nat} (hp : p < n) : (q * n + p) / n = q := by
    rw [Nat.mul_comm, Nat.mul_add_div hn, Nat.div_eq_of_lt hp, Nat.add_zero]
  have hmod {q p : Nat} (hp : p < n) : (q * n + p) % n = p := by
    rw [Nat.mul_add_mod_self_right, Nat.mod_eq_of_lt hp]
  exact ⟨(hdiv hp).symm.trans (h ▸ hdiv hp'), (hmod hp).symm.trans (h ▸ hmod hp')⟩

/-- No two points have the same place. -/
theorem position_injective (hc : c.Inside (2 ^ b)) (hd : d.Inside (2 ^ b))
    (h : position b r c = position b r d) : c = d := by
  induction b generalizing r c d with
  | zero =>
    obtain ⟨x, y, z⟩ := c
    obtain ⟨x', y', z'⟩ := d
    simp only [Inside, Nat.pow_zero, Nat.lt_one_iff] at hc hd
    simp [hc, hd]
  | succ b ih =>
    obtain ⟨o, c', hc', rfl⟩ := exists_placed hc
    obtain ⟨o', d', hd', rfl⟩ := exists_placed hd
    rw [position_placed hc', position_placed hd'] at h
    obtain ⟨hdigit, hrest⟩ := eq_and_eq_of_mul_add (position_lt _ _ _) (position_lt _ _ _) h
    obtain rfl := digit_injective hdigit
    rw [ih hc' hd' hrest]

/-- Every place is taken. -/
theorem exists_position {k : Nat} (hk : k < 8 ^ b) (r : Bool) :
    ∃ c, c.Inside (2 ^ b) ∧ position b r c = k := by
  induction b generalizing r k with
  | zero => exact ⟨⟨0, 0, 0⟩, by decide, (Nat.lt_one_iff.1 hk).symm⟩
  | succ b ih =>
    have hpos : 0 < 8 ^ b := Nat.pow_pos (by decide)
    have hdigit : k / 8 ^ b < 8 := Nat.div_lt_of_lt_mul (by rwa [Nat.pow_succ] at hk)
    obtain ⟨o, ho⟩ := exists_digit hdigit r
    obtain ⟨c, hc, hrest⟩ := ih (Nat.mod_lt k hpos) (r ^^ o.odd)
    refine ⟨placed (2 ^ b) o c, hc.placed, ?_⟩
    rw [position_placed hc, ho, hrest, Nat.mul_comm, Nat.div_add_mod]

/-! ### From one point to the next -/

/-- The corner where a curve begins. -/
def entry (r : Bool) : Cube := ⟨r.toNat, 0, 0⟩

theorem inside_entry (r : Bool) : (entry r).Inside 2 := by
  cases r <;> decide

theorem placed_corner (h : c.Inside 2) (s : Nat) (o : Octant) : placed s o (corner s c) =
    ⟨o.x.toNat * s + (c.unstraighten 2 o).x * (s - 1),
      o.y.toNat * s + (c.unstraighten 2 o).y * (s - 1),
      o.z.toNat * s + (c.unstraighten 2 o).z * (s - 1)⟩ := by
  rw [placed, unstraighten_corner h]
  rfl

theorem position_entry (b : Nat) (r : Bool) : position b r (corner (2 ^ b) (entry r)) = 0 := by
  induction b generalizing r with
  | zero => rfl
  | succ b ih =>
    have hplaced : corner (2 ^ (b + 1)) (entry r) =
        placed (2 ^ b) ⟨r, false, false⟩ (corner (2 ^ b) (entry false)) := by
      have hend : 2 ^ (b + 1) - 1 = 2 ^ b + (2 ^ b - 1) := by
        have := Nat.two_pow_pos b
        omega
      rw [placed_corner (inside_entry false), corner, map, hend]
      cases r <;> simp [entry, unstraighten, turn, Octant.get, swap, reflect]
    have hfirst : (Octant.mk r false false).digit r = 0 := by cases r <;> rfl
    have heven : (r ^^ (Octant.mk r false false).odd) = false := by cases r <;> rfl
    rw [hplaced, position_placed ((inside_entry false).corner (Nat.two_pow_pos b)), hfirst, heven,
      ih, Nat.zero_mul]

/-- Two points with these octants and corners lie on both sides of one border, face to face. -/
def Crosses (o o' : Bool) (e e' : Nat) : Prop := o ≠ o' ∧ e = o'.toNat ∧ e' = o.toNat

instance (o o' : Bool) (e e' : Nat) : Decidable (Crosses o o' e e') :=
  inferInstanceAs (Decidable (o ≠ o' ∧ e = o'.toNat ∧ e' = o.toNat))

/-- The curve leaves an octant at the border to the next one, which it enters at the same corner of
their common side. -/
theorem crosses_of_digit {o o' : Octant} (h : o'.digit r = o.digit r + 1) :
    let e := (entry !(r ^^ o.odd)).unstraighten 2 o
    let e' := (entry (r ^^ o'.odd)).unstraighten 2 o'
    (Crosses o.x o'.x e.x e'.x ∧ (o.y = o'.y ∧ e.y = e'.y) ∧ o.z = o'.z ∧ e.z = e'.z) ∨
      ((o.x = o'.x ∧ e.x = e'.x) ∧ Crosses o.y o'.y e.y e'.y ∧ o.z = o'.z ∧ e.z = e'.z) ∨
      ((o.x = o'.x ∧ e.x = e'.x) ∧ (o.y = o'.y ∧ e.y = e'.y) ∧ Crosses o.z o'.z e.z e'.z) := by
  obtain ⟨x, y, z⟩ := o
  obtain ⟨x', y', z'⟩ := o'
  revert x y z x' y' z' r
  decide

theorem Crosses.near {o o' : Bool} {e e' s : Nat} (h : Crosses o o' e e') (hs : 0 < s) :
    Near (o.toNat * s + e * (s - 1)) (o'.toNat * s + e' * (s - 1)) := by
  obtain ⟨hne, rfl, rfl⟩ := h
  unfold Near
  cases o <;> cases o' <;> simp at hne ⊢ <;> omega

/-- The last point of an octant lies beside the first point of the next. -/
theorem beside_of_crossing {o o' : Octant} {s : Nat} (hs : 0 < s)
    (h : o'.digit r = o.digit r + 1) :
    (placed s o (corner s (entry !(r ^^ o.odd)))).Beside
      (placed s o' (corner s (entry (r ^^ o'.odd)))) := by
  rw [placed_corner (inside_entry _), placed_corner (inside_entry _)]
  rcases crosses_of_digit h with ⟨hx, hy, hz⟩ | ⟨hx, hy, hz⟩ | ⟨hx, hy, hz⟩
  · exact .inl ⟨hx.near hs, by rw [hy.1, hy.2], by rw [hz.1, hz.2]⟩
  · exact .inr (.inl ⟨by rw [hx.1, hx.2], hy.near hs, by rw [hz.1, hz.2]⟩)
  · exact .inr (.inr ⟨by rw [hx.1, hx.2], by rw [hy.1, hy.2], hz.near hs⟩)

theorem eq_first (hc : c.Inside (2 ^ b)) (h : position b r c = 0) :
    c = corner (2 ^ b) (entry r) :=
  position_injective hc ((inside_entry r).corner (Nat.two_pow_pos b))
    (h.trans (position_entry b r).symm)

theorem eq_last (hc : c.Inside (2 ^ b)) (h : position b r c + 1 = 8 ^ b) :
    c = corner (2 ^ b) (entry !r) := by
  have hback := position_not b r c
  exact eq_first hc (by omega)

/-- Points with consecutive places lie beside each other. -/
theorem beside_of_position (hc : c.Inside (2 ^ b)) (hd : d.Inside (2 ^ b))
    (h : position b r d = position b r c + 1) : c.Beside d := by
  induction b generalizing r c d with
  | zero => exact absurd h (Nat.zero_ne_add_one 0)
  | succ b ih =>
    obtain ⟨o, c, hc', rfl⟩ := exists_placed hc
    obtain ⟨o', d, hd', rfl⟩ := exists_placed hd
    rw [position_placed hc', position_placed hd'] at h
    have hlt := position_lt b (r ^^ o.odd) c
    have hlt' := position_lt b (r ^^ o'.odd) d
    rcases Nat.lt_or_eq_of_le (Nat.succ_le_of_lt hlt) with hmore | hend
    · -- both points lie in one octant
      obtain ⟨hdigit, hrest⟩ := eq_and_eq_of_mul_add hlt' hmore h
      obtain rfl := digit_injective hdigit
      exact (ih hc' hd' hrest).placed hc' hd'
    · -- the first point is the last of its octant
      have hpos : 0 < 8 ^ b := Nat.zero_lt_of_lt hlt
      have hnext : o'.digit r * 8 ^ b + position b (r ^^ o'.odd) d =
          (o.digit r + 1) * 8 ^ b + 0 := by
        rw [h, Nat.add_mul]
        omega
      obtain ⟨hdigit, hfirst⟩ := eq_and_eq_of_mul_add hlt' hpos hnext
      rw [eq_last hc' hend, eq_first hd' hfirst]
      exact beside_of_crossing (Nat.two_pow_pos b) hdigit

/-- On the cube, all bits of the coordinates count. -/
theorem index_eq (hc : c.Inside (2 ^ 21)) : index c.x c.y c.z = position 21 false c := by
  obtain ⟨hx, hy, hz⟩ := hc
  rw [index_eq_position, Nat.mod_eq_of_lt hx, Nat.mod_eq_of_lt hy, Nat.mod_eq_of_lt hz]
  rfl

/-- The curve visits every point of the cube exactly once, and goes from each to one beside it. -/
theorem curve_walks_in_unit_steps :
    Set.BijOn (fun c : Cube => index c.x c.y c.z) {c | c.Inside (2 ^ 21)} {k | k < 2 ^ 63} ∧
      ∀ c d : Cube, c.Inside (2 ^ 21) → d.Inside (2 ^ 21) →
        Near (index c.x c.y c.z) (index d.x d.y d.z) → c.Beside d := by
  have hsize : 8 ^ 21 = 2 ^ 63 := by decide
  refine ⟨⟨?_, ?_, ?_⟩, ?_⟩
  · intro c hc
    have hlt := position_lt 21 false c
    rw [hsize] at hlt
    exact (index_eq hc).trans_lt hlt
  · intro c hc d hd h
    exact position_injective hc hd ((index_eq hc).symm.trans (h.trans (index_eq hd)))
  · intro k hk
    obtain ⟨c, hc, hk⟩ := exists_position (b := 21) (hsize ▸ hk) false
    exact ⟨c, hc, (index_eq hc).trans hk⟩
  · intro c d hc hd h
    rw [index_eq hc, index_eq hd] at h
    rcases h with h | h
    · exact (beside_of_position hd hc h).symm
    · exact beside_of_position hc hd h

/-- The curve crosses the middle of the cube between its places `2 ^ 62 - 1` and `2 ^ 62`. -/
theorem curve_steps_across_middle :
    (⟨2 ^ 20 - 1, 2 ^ 20, 0⟩ : Cube).Inside (2 ^ 21) ∧
      (⟨2 ^ 20, 2 ^ 20, 0⟩ : Cube).Inside (2 ^ 21) ∧
      Near (index (2 ^ 20 - 1) (2 ^ 20) 0) (index (2 ^ 20) (2 ^ 20) 0) ∧
      (⟨2 ^ 20 - 1, 2 ^ 20, 0⟩ : Cube).Beside ⟨2 ^ 20, 2 ^ 20, 0⟩ := by
  have hlast : index (2 ^ 20 - 1) (2 ^ 20) 0 = 2 ^ 62 - 1 := by decide +kernel
  have hfirst : index (2 ^ 20) (2 ^ 20) 0 = 2 ^ 62 := by decide +kernel
  have hnear : Near (index (2 ^ 20 - 1) (2 ^ 20) 0) (index (2 ^ 20) (2 ^ 20) 0) := by
    rw [hlast, hfirst]
    exact .inr rfl
  exact ⟨by decide, by decide, hnear,
    curve_walks_in_unit_steps.2 ⟨_, _, _⟩ ⟨_, _, _⟩ (by decide) (by decide) hnear⟩

end MeshDecomp.Hilbert
