import MeshDecomp.Json.Basic

/-!
The tokens of a document. A text stands between quotes, without control characters; numbers have no
leading zeros and digits on both sides of a point.
-/

namespace MeshDecomp.Json

inductive Token where
  | openList
  | closeList
  | openObject
  | closeObject
  | comma
  | colon
  | value (j : Json)

namespace Token

def hexDigit? (c : Char) : Option Nat :=
  if '0' ≤ c ∧ c ≤ '9' then some (c.toNat - 48)
  else if 'a' ≤ c ∧ c ≤ 'f' then some (c.toNat - 87)
  else if 'A' ≤ c ∧ c ≤ 'F' then some (c.toNat - 55)
  else none

def unit? (a b c d : Char) : Option Nat := do
  return (((← hexDigit? a) * 16 + (← hexDigit? b)) * 16 + (← hexDigit? c)) * 16 + (← hexDigit? d)

def escape? : Char → Option Char
  | '"' => some '"'
  | '\\' => some '\\'
  | '/' => some '/'
  | 'b' => some '\x08'
  | 'f' => some '\x0c'
  | 'n' => some '\n'
  | 'r' => some '\r'
  | 't' => some '\t'
  | _ => none

def isHigh (u : Nat) : Bool := 0xd800 ≤ u && u < 0xdc00

def isLow (u : Nat) : Bool := 0xdc00 ≤ u && u < 0xe000

/-- The rest of a text up to its closing quote. `acc` holds the characters read so far, last first;
nothing once half a character was named. -/
def scanText (acc : Option (List Char)) : List Char → Option (Option String × List Char)
  | '"' :: r => some (acc.map fun cs => String.ofList cs.reverse, r)
  | '\\' :: 'u' :: a :: b :: c :: d :: '\\' :: 'u' :: a' :: b' :: c' :: d' :: r => do
      let u ← unit? a b c d
      if isHigh u then
        let v ← unit? a' b' c' d'
        if isLow v then
          let char := Char.ofNat (0x10000 + (u - 0xd800) * 0x400 + (v - 0xdc00))
          scanText (acc.map (char :: ·)) r
        else scanText none ('\\' :: 'u' :: a' :: b' :: c' :: d' :: r)
      else
        let acc := if isLow u then none else acc.map (Char.ofNat u :: ·)
        scanText acc ('\\' :: 'u' :: a' :: b' :: c' :: d' :: r)
  | '\\' :: 'u' :: a :: b :: c :: d :: r => do
      let u ← unit? a b c d
      scanText (if isHigh u || isLow u then none else acc.map (Char.ofNat u :: ·)) r
  | '\\' :: c :: r => do
      let char ← escape? c
      scanText (acc.map (char :: ·)) r
  | c :: r => if c.toNat < 32 ∨ c = '\\' then none else scanText (acc.map (c :: ·)) r
  | [] => none

def natOf (digits : List Char) : Nat := digits.foldl (fun n c => n * 10 + (c.toNat - 48)) 0

/-- One digit at least, and what follows the digits. -/
def scanDigits (cs : List Char) : Option (List Char × List Char) :=
  if (cs.takeWhile Char.isDigit).isEmpty then none
  else some (cs.takeWhile Char.isDigit, cs.dropWhile Char.isDigit)

def scanInteger : List Char → Option (List Char × List Char)
  | '0' :: r => some (['0'], r)
  | cs => scanDigits cs

def scanFraction : List Char → Option (List Char × List Char)
  | '.' :: r => scanDigits r
  | cs => some ([], cs)

/-- The exponent, if one is written. -/
def scanExponent : List Char → Option (Option Int × List Char)
  | c :: r =>
      if c = 'e' ∨ c = 'E' then
        match r with
        | '-' :: r => (scanDigits r).map fun d => (some (-(natOf d.1 : Int)), d.2)
        | '+' :: r => (scanDigits r).map fun d => (some (natOf d.1 : Int), d.2)
        | r => (scanDigits r).map fun d => (some (natOf d.1 : Int), d.2)
      else some (none, c :: r)
  | [] => some (none, [])

def scanNumber (negative : Bool) (cs : List Char) : Option (Numeral × List Char) := do
  let (whole, r) ← scanInteger cs
  let (fraction, r') ← scanFraction r
  let (exponent, r'') ← scanExponent r'
  return (⟨negative, natOf (whole ++ fraction), exponent.getD 0 - fraction.length,
    fraction.isEmpty && exponent.isNone⟩, r'')

/-- The first token, which starts with `c`. -/
def scan (c : Char) (r : List Char) : Option (Token × List Char) :=
  match c, r with
  | '[', r => some (openList, r)
  | ']', r => some (closeList, r)
  | '\x7b', r => some (openObject, r)
  | '\x7d', r => some (closeObject, r)
  | ',', r => some (comma, r)
  | ':', r => some (colon, r)
  | 'n', 'u' :: 'l' :: 'l' :: r => some (value .null, r)
  | 't', 'r' :: 'u' :: 'e' :: r => some (value (.bool true), r)
  | 'f', 'a' :: 'l' :: 's' :: 'e' :: r => some (value (.bool false), r)
  | '"', r => (scanText (some []) r).map fun t => (value (.text t.1), t.2)
  | '-', r => (scanNumber true r).map fun n => (value (.number n.1), n.2)
  | c, r => (scanNumber false (c :: r)).map fun n => (value (.number n.1), n.2)

def isBlank (c : Char) : Bool := c = ' ' || c = '\t' || c = '\n' || c = '\r'

theorem length_scanText {acc : Option (List Char)} {cs : List Char} {t : Option String × List Char}
    (h : scanText acc cs = some t) : t.2.length < cs.length := by
  fun_induction scanText acc cs generalizing t <;>
    grind [Option.bind_eq_some_iff, List.length_cons]

theorem length_scanDigits {cs : List Char} {d : List Char × List Char}
    (h : scanDigits cs = some d) : d.2.length < cs.length := by
  simp only [scanDigits] at h
  split at h
  · simp at h
  next hne =>
    obtain rfl := Option.some.inj h
    have sum := congrArg List.length (List.takeWhile_append_dropWhile (p := Char.isDigit) (l := cs))
    have pos : (cs.takeWhile Char.isDigit).length ≠ 0 := by simpa using hne
    simp only [List.length_append] at sum
    simp only
    omega

theorem length_scanInteger {cs : List Char} {d : List Char × List Char}
    (h : scanInteger cs = some d) : d.2.length < cs.length := by
  unfold scanInteger at h
  split at h
  · obtain rfl := Option.some.inj h
    simp
  · exact length_scanDigits h

theorem length_scanFraction {cs : List Char} {d : List Char × List Char}
    (h : scanFraction cs = some d) : d.2.length ≤ cs.length := by
  unfold scanFraction at h
  split at h
  · have := length_scanDigits h
    simp only [List.length_cons]
    omega
  · obtain rfl := Option.some.inj h
    simp

theorem length_scanExponent {cs : List Char} {d : Option Int × List Char}
    (h : scanExponent cs = some d) : d.2.length ≤ cs.length := by
  unfold scanExponent at h
  split at h
  · split at h
    · split at h <;>
      · obtain ⟨e, he, rfl⟩ := Option.map_eq_some_iff.1 h
        have := length_scanDigits he
        simp only [List.length_cons]
        omega
    · obtain rfl := Option.some.inj h
      simp
  · obtain rfl := Option.some.inj h
    simp

theorem length_scanNumber {negative : Bool} {cs : List Char} {n : Numeral × List Char}
    (h : scanNumber negative cs = some n) : n.2.length < cs.length := by
  simp only [scanNumber, bind, Option.bind_eq_some_iff, pure, Option.some.injEq] at h
  obtain ⟨w, hw, f, hf, e, he, rfl⟩ := h
  have h₁ := length_scanInteger hw
  have h₂ := length_scanFraction hf
  have h₃ := length_scanExponent he
  simp only
  omega

theorem length_scan {c : Char} {r : List Char} {t : Token × List Char} (h : scan c r = some t) :
    t.2.length < r.length + 1 := by
  unfold scan at h
  split at h
  case h_10 =>
    obtain ⟨d, hd, rfl⟩ := Option.map_eq_some_iff.1 h
    have := length_scanText hd
    simp only
    omega
  case h_11 =>
    obtain ⟨d, hd, rfl⟩ := Option.map_eq_some_iff.1 h
    have := length_scanNumber hd
    simp only
    omega
  case h_12 =>
    obtain ⟨d, hd, rfl⟩ := Option.map_eq_some_iff.1 h
    simpa using length_scanNumber hd
  all_goals
    obtain rfl := Option.some.inj h
    simp only [List.length_cons]
    omega

/-- All tokens; blanks between them do not count. -/
def scanAll : List Char → Option (List Token)
  | [] => some []
  | c :: r =>
      if isBlank c then scanAll r
      else
        match _h : scan c r with
        | none => none
        | some (t, rest) => (scanAll rest).map (t :: ·)
termination_by cs => cs.length
decreasing_by
  · simp
  · simpa using length_scan _h

end Token

end MeshDecomp.Json
