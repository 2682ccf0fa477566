import MeshDecomp.Failure

/-!
Contiguous block distributions of `total` things over `pes` processing elements. Every one gets
`total / pes` of them and the last one also takes the remainder.
-/

namespace MeshDecomp

/-- The half-open range of numbers `first, …, stop - 1`. -/
structure Span where
  first : Nat
  stop : Nat
  deriving DecidableEq, Repr

namespace Span

def size (s : Span) : Nat := s.stop - s.first

def toList (s : Span) : List Nat := List.range' s.first s.size

/-- The first of `n` numbers from `i` on that `p` accepts. -/
def firstFrom? (p : Nat → Bool) (i : Nat) : (n : Nat) → Option Nat
  | 0 => none
  | n + 1 => if p i then some i else firstFrom? p (i + 1) n

/-- The first number of a span that `p` accepts; what comes after it is not looked at. -/
def find? (p : Nat → Bool) (s : Span) : Option Nat := firstFrom? p s.first s.size

instance : Membership Nat Span := ⟨fun s i => s.first ≤ i ∧ i < s.stop⟩

theorem mem_def {s : Span} {i : Nat} : i ∈ s ↔ s.first ≤ i ∧ i < s.stop := Iff.rfl

instance (i : Nat) (s : Span) : Decidable (i ∈ s) := inferInstanceAs (Decidable (_ ∧ _))

@[simp] theorem length_toList (s : Span) : s.toList.length = s.size := by simp [toList]

@[simp] theorem mem_toList {s : Span} {i : Nat} : i ∈ s.toList ↔ i ∈ s := by
  simp only [toList, size, List.mem_range'_1, mem_def]
  omega

theorem firstFrom?_eq (p : Nat → Bool) (i n : Nat) :
    firstFrom? p i n = (List.range' i n).find? p := by
  induction n generalizing i with
  | zero => rfl
  | succ n ih => cases h : p i <;> simp [firstFrom?, List.range'_succ, h, ih]

theorem find?_eq (p : Nat → Bool) (s : Span) : s.find? p = s.toList.find? p :=
  firstFrom?_eq p s.first s.size

end Span

namespace Block

/-- The width of every block but the last. -/
def width (total pes : Nat) : Nat := total / pes

/-- How many things `rank` gets. -/
def count (total pes rank : Nat) : Nat :=
  width total pes + if rank + 1 = pes then total % pes else 0

/-- The things that `rank` gets. -/
def span (total pes rank : Nat) : Span where
  first := rank * width total pes
  stop := rank * width total pes + count total pes rank

/-- The rank whose block holds `i`. Blocks of width zero leave everything to the last rank. -/
def owner (total pes i : Nat) : Nat :=
  if width total pes = 0 then pes - 1 else min (i / width total pes) (pes - 1)

@[simp] theorem size_span (total pes rank : Nat) :
    (span total pes rank).size = count total pes rank := by simp [span, Span.size]

/-- There are no blocks over no processing elements: the division has no answer. -/
def checked (pes : Nat) (answer : α) : Except Crash α :=
  if pes = 0 then .error .divisionByZero else .ok answer

theorem checked_of_pos {pes : Nat} (h : 0 < pes) (answer : α) :
    checked pes answer = .ok answer := by
  simp [checked, Nat.ne_of_gt h]

end Block

end MeshDecomp
