import MeshDecomp.IdMap
import MeshDecomp.Mesh.Point
import MeshDecomp.Wire.Utf8
import MeshDecomp.Wire.Word

/-!
The parts of a message as words: lists and maps follow their length, text follows its length in
bytes, and an optional part follows a flag. Each part has a way to words and a scanner back.
-/

namespace MeshDecomp.Wire

inductive ScanFault where
  | short
  | flag (found : Nat)
  deriving DecidableEq, Repr

/-- Takes words from the front. -/
abbrev Scanner (α : Type) := List Nat → Except ScanFault (α × List Nat)

namespace Scanner

def ret (a : α) : Scanner α := fun ws => .ok (a, ws)

def andThen (s : Scanner α) (f : α → Scanner β) : Scanner β := fun ws =>
  match s ws with
  | .ok (a, r) => f a r
  | .error e => .error e

def map (f : α → β) (s : Scanner α) : Scanner β := s.andThen fun a => ret (f a)

def word : Scanner Nat
  | [] => .error .short
  | w :: r => .ok (w, r)

/-- Whether a list has `n` members; what follows them is not looked at. -/
def reaches : (n : Nat) → List α → Bool
  | 0, _ => true
  | _ + 1, [] => false
  | n + 1, _ :: r => reaches n r

@[simp] theorem reaches_iff {n : Nat} {l : List α} : reaches n l = true ↔ n ≤ l.length := by
  induction n generalizing l with
  | zero => simp [reaches]
  | succ n ih => cases l <;> simp [reaches, ih]

/-- A length that leaves a word at least for every item. -/
def count : Scanner Nat :=
  word.andThen fun n ws => if reaches n ws then .ok (n, ws) else .error .short

def times (item : Scanner α) : (n : Nat) → Scanner (List α)
  | 0 => ret []
  | n + 1 => item.andThen fun a => (times item n).map (a :: ·)

def pair (s : Scanner α) (t : Scanner β) : Scanner (α × β) := s.andThen fun a => t.map (a, ·)

/-- Items behind their number. -/
def counted (item : Scanner α) : Scanner (List α) := count.andThen (times item)

def list : Scanner (List Nat) := counted word

/-- The last of the lists with one key stays. -/
def idMap : Scanner (IdMap (List Nat)) := (counted (pair word list)).map .ofList

def real : Scanner Binary64 := word.map fun w => ⟨.ofNat w⟩

def reals : Scanner (List Binary64) := counted real

def flag : Scanner Bool := word.andThen fun w ws =>
  if w = 0 then .ok (false, ws) else if w = 1 then .ok (true, ws) else .error (.flag w)

def text : Scanner String := word.andThen fun n ws =>
  let k := (n + 7) / 8
  if reaches k ws then .ok (textOfBytes ((bytesOfWords (ws.take k)).take n), ws.drop k)
  else .error .short

def centroids : Scanner Centroids :=
  reals.andThen fun xs => reals.andThen fun ys => reals.map fun zs => ⟨xs, ys, zs⟩

def optional (s : Scanner α) : Scanner (Option α) :=
  flag.andThen fun present => if present then s.map some else ret none

end Scanner

def wordsOfList (ids : List Nat) : List Nat := ids.length :: ids

def wordsOfMap (m : IdMap (List Nat)) : List Nat :=
  m.size :: m.entries.flatMap fun e => e.1 :: wordsOfList e.2

def wordsOfPairs (ps : List (Nat × Nat)) : List Nat :=
  ps.length :: ps.flatMap fun p => [p.1, p.2]

def wordOfReal (x : Binary64) : Nat := x.bits.toNat

def wordsOfReals (xs : List Binary64) : List Nat := wordsOfList (xs.map wordOfReal)

def wordOfFlag (b : Bool) : Nat := b.toNat

def wordsOfText (s : String) : List Nat := (utf8Bytes s).length :: pack (utf8Bytes s)

def wordsOfCentroids : Option Centroids → List Nat
  | none => [wordOfFlag false]
  | some c => wordOfFlag true :: (wordsOfReals c.xs ++ wordsOfReals c.ys ++ wordsOfReals c.zs)

end MeshDecomp.Wire
