import MeshDecomp.Decimal.Shortest

/-!
Two ways to write a double with the fewest digits that read back: always positional, or with a
point or an exponent, so that the text is never taken for an integer.
-/

namespace MeshDecomp.Decimal

def zeros (n : Nat) : String := String.ofList (List.replicate n '0')

/-- Digits with the point after the first `point` of them; zeros fill the rest. -/
def positional (digits : List Char) (point : Int) : String :=
  if point ≤ 0 then "0." ++ zeros (-point).toNat ++ String.ofList digits
  else if digits.length ≤ point.toNat then
    String.ofList digits ++ zeros (point.toNat - digits.length)
  else String.ofList (digits.take point.toNat) ++ "." ++ String.ofList (digits.drop point.toNat)

/-- Exponents from `-5` to `15` are written positionally; any other is written with its sign. -/
def pointed (digits : List Char) (point : Int) : String :=
  if -5 < point ∧ point ≤ 16 then
    positional digits point ++ if (digits.length : Int) ≤ point then ".0" else ""
  else
    let exponent := (if point ≤ 0 then "e" else "e+") ++ toString (point - 1)
    match digits with
    | [d] => d.toString ++ exponent
    | d :: r => d.toString ++ "." ++ String.ofList r ++ exponent
    | [] => exponent

/-- Sign, then the magnitude laid out from its digits and the place of the point. -/
def write (tie : Tie) (zero : String) (layout : List Char → Int → String) (x : Binary64) : String :=
  if x.isNaN then "NaN"
  else
    let sign := if x.negative then "-" else ""
    if !x.isFinite then sign ++ "inf"
    else if x.magnitude = 0 then sign ++ zero
    else
      let d := ((Dyadic.ofBinary64 x).shortest tie).stripZeros
      let digits := Nat.toDigits 10 d.digits
      sign ++ layout digits (digits.length + d.exponent)

/-- As it stands in a message: `2`, `-0.5`, `0.0000001`. -/
def plain : Binary64 → String := write .up "0" positional

/-- As it stands in a document: `2.0`, `-0.5`, `1e-7`, `1e+16`. -/
def document : Binary64 → String := write .toEven "0.0" pointed

end MeshDecomp.Decimal
