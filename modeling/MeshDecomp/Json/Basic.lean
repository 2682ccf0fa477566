import MeshDecomp.Binary64

/-! Documents with null, truth values, numbers, texts, lists and objects. -/

namespace MeshDecomp

/-- A number as it is written: `± mantissa * 10 ^ exponent`. -/
structure Numeral where
  negative : Bool
  mantissa : Nat
  exponent : Int
  /-- Written without a point and without an exponent. -/
  integral : Bool
  deriving DecidableEq, Repr

namespace Numeral

/-- The nearest double, if it is finite. -/
def real? (n : Numeral) : Option Binary64 :=
  let x := Binary64.ofDecimal n.negative n.mantissa n.exponent
  if x.isFinite then some x else none

/-- The value of an integer without a sign that fits in a word. -/
def word? (n : Numeral) : Option Nat :=
  if n.integral && !n.negative && n.mantissa < UInt64.size then some n.mantissa else none

end Numeral

/-- A text with an escape that names half a character has no characters. -/
inductive Json where
  | null
  | bool (b : Bool)
  | number (n : Numeral)
  | text (chars : Option String)
  | list (items : List Json)
  | object (members : List (Option String × Json))

namespace Json

def real? : Json → Option Binary64
  | number n => n.real?
  | _ => none

def word? : Json → Option Nat
  | number n => n.word?
  | _ => none

/-- `null` is read as nothing. -/
def optional? (item : Json → Option α) : Json → Option (Option α)
  | null => some none
  | j => (item j).map some

/-- The values of known members: every known name stands at most once, other names do not count. -/
def known (names : List String) : List (Option String × Json) → Option (List (Option Json))
  | [] => some (names.map fun _ => none)
  | (none, _) :: _ => none
  | (some name, v) :: r => do
      let found ← known names r
      match names.findIdx? (· = name) with
      | none => return found
      | some i => if (found[i]?.join).isSome then none else return found.set i (some v)

/-- A record is an object, or a list of its fields that may end early. -/
def fields? (names : List String) : Json → Option (List (Option Json))
  | object members => known names members
  | list items =>
      if items.length ≤ names.length then
        some (items.map some ++ List.replicate (names.length - items.length) none)
      else none
  | _ => none

/-- The `i`-th field of a record, or what stands for it where it is missing. -/
def field? (fields : List (Option Json)) (i : Nat) (item : Json → Option α) (missing : Option α) :
    Option α :=
  match fields[i]?.join with
  | some v => item v
  | none => missing

end Json

end MeshDecomp
