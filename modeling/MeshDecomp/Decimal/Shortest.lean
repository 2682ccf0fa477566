import MeshDecomp.Binary64

/-!
The fewest decimal digits that read back as a given double. The decimals that read back form an
interval around the value; the first grid `10 ^ e` with a point in it, from coarse to fine, has one
next to the value.
-/

namespace MeshDecomp.Decimal

/-- The number `digits * 10 ^ exponent`. -/
structure Scaled where
  digits : Nat
  exponent : Int
  deriving DecidableEq, Repr

/-- What happens to a value half way between two candidates. -/
inductive Tie where
  | up
  | toEven
  deriving DecidableEq, Repr

/-- The number `significand * 2 ^ exponent`, and whether the gap below it is half the gap above. -/
structure Dyadic where
  significand : Nat
  exponent : Int
  narrowBelow : Bool
  deriving DecidableEq, Repr

/-- The magnitude of a finite double. -/
def Dyadic.ofBinary64 (x : Binary64) : Dyadic :=
  if x.exponentField = 0 then ⟨x.fraction, -1074, false⟩
  else ⟨Binary64.fractions.toNat + x.fraction, (x.exponentField : Int) - 1075,
    x.fraction = 0 && 1 < x.exponentField⟩

/-- `n * 10 ^ e` against `m * 2 ^ q`. -/
def compareScaled (n : Nat) (e : Int) (m : Nat) (q : Int) : Ordering :=
  compare (n * Nat.pow 10 e.toNat * Nat.pow 2 (-q).toNat)
    (m * Nat.pow 2 q.toNat * Nat.pow 10 (-e).toNat)

namespace Dyadic

/-- `d` lies between the midpoints to the two neighbours. The midpoints count for an even
significand. -/
def readsBack (x : Dyadic) (d : Scaled) : Bool :=
  let low := compareScaled d.digits d.exponent
    (4 * x.significand - if x.narrowBelow then 1 else 2) (x.exponent - 2)
  let high := compareScaled d.digits d.exponent (4 * x.significand + 2) (x.exponent - 2)
  let closed := x.significand % 2 = 0
  (low = .gt || (closed && low = .eq)) && (high = .lt || (closed && high = .eq))

/-- The value divided by `10 ^ e`, as a fraction. -/
def quotient (x : Dyadic) (e : Int) : Nat × Nat :=
  (x.significand * Nat.pow 2 x.exponent.toNat * Nat.pow 10 (-e).toNat,
    Nat.pow 2 (-x.exponent).toNat * Nat.pow 10 e.toNat)

/-- How many digits stand before the point; not positive if zeros follow it. -/
def pointPosition (x : Dyadic) : Int :=
  let (n, d) := x.quotient 0
  if d ≤ n then (Nat.toDigits 10 (n / d)).length
  else
    let k := (Nat.toDigits 10 (d / n)).length
    if d ≤ n * Nat.pow 10 (k - 1) then 2 - (k : Int) else 1 - (k : Int)

/-- The candidate on the grid `10 ^ e`, if one reads back: the nearer one of two. -/
def onGrid (x : Dyadic) (tie : Tie) (e : Int) : Option Scaled :=
  let (n, d) := x.quotient e
  let down := n / d
  match x.readsBack ⟨down, e⟩, x.readsBack ⟨down + 1, e⟩ with
  | true, false => some ⟨down, e⟩
  | false, true => some ⟨down + 1, e⟩
  | false, false => none
  | true, true =>
    match compare (2 * n) ((2 * down + 1) * d) with
    | .lt => some ⟨down, e⟩
    | .gt => some ⟨down + 1, e⟩
    | .eq => some ⟨if tie = .toEven ∧ down % 2 = 0 then down else down + 1, e⟩

/-- Seventeen digits always read back, so the default is never taken. -/
def shortest (x : Dyadic) (tie : Tie) : Scaled :=
  ((List.range' 1 17).findSome? fun (k : Nat) => x.onGrid tie (x.pointPosition - k)).getD
    ⟨x.significand, x.exponent⟩

end Dyadic

/-- Takes the zeros off the end of the digits. -/
def Scaled.stripZeros (d : Scaled) : Scaled :=
  if h : d.digits ≠ 0 ∧ d.digits % 10 = 0 then
    Scaled.stripZeros ⟨d.digits / 10, d.exponent + 1⟩
  else d
termination_by d.digits
decreasing_by omega

end MeshDecomp.Decimal
