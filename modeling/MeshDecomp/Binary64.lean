/-!
Double precision numbers as their 64 bits. Every operation rounds once, and the bits of a result
that is not a number are fixed: the first operand that is not a number stays, made quiet, and an
operation without a value gives `invalid`.
-/

namespace MeshDecomp

structure Binary64 where
  bits : UInt64
  deriving DecidableEq, Repr

namespace Binary64

/-- The weight of the sign. -/
abbrev signBit : UInt64 := 0x8000000000000000

/-- The number of fractions. -/
abbrev fractions : UInt64 := 0x10000000000000

/-- The bits without the sign. -/
def magnitude (x : Binary64) : UInt64 := x.bits % signBit

def negative (x : Binary64) : Bool := signBit ≤ x.bits

def exponentField (x : Binary64) : Nat := (x.magnitude / fractions).toNat

def fraction (x : Binary64) : Nat := (x.magnitude % fractions).toNat

def isNaN (x : Binary64) : Bool := 2047 * fractions < x.magnitude

def isFinite (x : Binary64) : Bool := x.magnitude < 2047 * fractions

/-- Finite, and neither zero nor closer to zero than full precision reaches. -/
def isNormal (x : Binary64) : Bool := x.exponentField ≠ 0 && x.exponentField ≠ 2047

def zero : Binary64 := ⟨0⟩

def negZero : Binary64 := ⟨0x8000000000000000⟩

def one : Binary64 := ⟨0x3ff0000000000000⟩

def infinity : Binary64 := ⟨0x7ff0000000000000⟩

def negInfinity : Binary64 := ⟨0xfff0000000000000⟩

/-- What an operation without a value gives. -/
def invalid : Binary64 := ⟨0xfff8000000000000⟩

def quiet (x : Binary64) : Binary64 := ⟨x.bits ||| 0x0008000000000000⟩

def toFloat (x : Binary64) : Float := Float.ofBits x.bits

def ofFloat (r : Float) : Binary64 := if r.isNaN then invalid else ⟨r.toBits⟩

@[inline] def unary (f : Float → Float) (x : Binary64) : Binary64 :=
  if x.isNaN then x.quiet else ofFloat (f x.toFloat)

@[inline] def binary (f : Float → Float → Float) (x y : Binary64) : Binary64 :=
  if x.isNaN then x.quiet
  else if y.isNaN then y.quiet
  else ofFloat (f x.toFloat y.toFloat)

instance : Add Binary64 := ⟨binary (· + ·)⟩

instance : Sub Binary64 := ⟨binary (· - ·)⟩

instance : Mul Binary64 := ⟨binary (· * ·)⟩

instance : Div Binary64 := ⟨binary (· / ·)⟩

def sqrt : Binary64 → Binary64 := unary Float.sqrt

/-- False if one side is not a number. -/
def lt (x y : Binary64) : Bool := x.toFloat < y.toFloat

/-- False if one side is not a number. -/
def le (x y : Binary64) : Bool := x.toFloat ≤ y.toFloat

/-- A side that is not a number does not count. -/
def min (x y : Binary64) : Binary64 :=
  if x.isNaN then y else if y.isNaN then x else if y.lt x then y else x

/-- A side that is not a number does not count. -/
def max (x y : Binary64) : Binary64 :=
  if x.isNaN then y else if y.isNaN then x else if x.lt y then y else x

/-- A value that is not a number stays as it is. -/
def clamp (lo hi x : Binary64) : Binary64 := if x.lt lo then lo else if hi.lt x then hi else x

/-- Every value has a place in one order: from the negative ones that are not a number over
`-∞`, `-0`, `0` and `∞` to the positive ones that are not a number. -/
def place (x : Binary64) : UInt64 :=
  if x.negative then signBit - 1 - x.magnitude else signBit + x.magnitude

/-- The nearest number, ties to even. -/
def ofNat (n : Nat) : Binary64 := ofFloat (Float.ofNat n)

instance (n : Nat) : OfNat Binary64 n := ⟨ofNat n⟩

/-- The sum from left to right. The sum of nothing is `-0`, so that a lone `-0` keeps its sign. -/
def sum (xs : List Binary64) : Binary64 := xs.foldl (· + ·) negZero

/-- The integral part, cut to `0, …, bound - 1`; zero for what is not a number. -/
def truncate (bound : Nat) (x : Binary64) : Nat :=
  Nat.min x.toFloat.toUInt64.toNat (bound - 1)

/-- The number nearest to `± m * 10 ^ e`, ties to even. Exponents out of reach do not cost time:
no `m` with `d` digits gives more than `10 ^ (d + e)`. -/
def ofDecimal (negative : Bool) (m : Nat) (e : Int) : Binary64 :=
  let digits := (Nat.toDigits 10 m).length
  let size :=
    if m = 0 ∨ (digits : Int) + e < -400 then zero
    else if 400 < (digits : Int) + e then infinity
    else ofFloat (Float.ofScientific m (e < 0) e.natAbs)
  if negative then ⟨size.bits ||| 0x8000000000000000⟩ else size

end Binary64

end MeshDecomp
