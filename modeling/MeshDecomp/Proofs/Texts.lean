import Mathlib.Data.Nat.Digits.Defs
import MeshDecomp.Proofs.Words

/-! Texts of errors fit into messages: they are made of fixed parts, of machine words in decimal,
and of at most one text that was in memory before. -/

namespace MeshDecomp

namespace Wire

/-- A text of at most `k` bytes. -/
def Within (k : Nat) (s : String) : Prop := (utf8Bytes s).length ≤ k

variable {a b k n : Nat} {s t : String}

theorem Within.append (hs : Within a s) (ht : Within b t) : Within (a + b) (s ++ t) := by
  unfold Within utf8Bytes at *
  rw [String.toList_append, List.flatMap_append, List.length_append]
  exact Nat.add_le_add hs ht

/-- A machine word has twenty digits at most. -/
theorem within_word (h : n < 2 ^ 64) : Within 80 (toString n) := by
  have hlen : (toString n).length ≤ 20 := Nat.repr_length n 20 (by decide) (by omega)
  exact (length_utf8Bytes_le _).trans (by omega)

theorem within_fixed (h : s.length ≤ 100) : Within 400 s :=
  (length_utf8Bytes_le s).trans (by omega)

theorem Within.word (hs : Within a s) (h : n < 2 ^ 64) : Within (a + 80) (s ++ toString n) :=
  hs.append (within_word h)

theorem Within.fixed (hs : Within a s) (h : t.length ≤ 100) : Within (a + 400) (s ++ t) :=
  hs.append (within_fixed h)

/-- How much a text in memory can take. -/
def memory : Nat := 2 ^ 63

theorem inWords_abort (user : Bool) (h : Within k s) (hk : k < 2 ^ 64) :
    InWords (payload (.abort user s)) :=
  inWords_cons.2 ⟨wordOfFlag_lt user, inWords_text (h.trans_lt hk)⟩

end Wire

open Wire

namespace MeshError

variable {first stop n x : Nat}

theorem within_missingCoordinates (h : x < 2 ^ 64) :
    Within memory (missingCoordinates x).message := by
  refine ((within_fixed ?_).word h).trans ?_ <;> decide

theorem within_malformedConnectivity (h : n < 2 ^ 64) :
    Within memory (malformedConnectivity n).message := by
  refine (((within_fixed ?_).word h).fixed ?_).trans ?_ <;> decide

theorem within_rangeOutOfBounds (hfirst : first < 2 ^ 64) (hstop : stop < 2 ^ 64)
    (hn : n < 2 ^ 64) : Within memory (rangeOutOfBounds first stop n).message := by
  refine (((((((within_fixed ?_).word hfirst).fixed ?_).word hstop).fixed ?_).word hn).fixed
    ?_).trans ?_ <;> decide

end MeshError

namespace RunError

/-- A rank can tell the others of the error. -/
def Fits (e : RunError) : Prop := InWords (payload (.abort e.isUser e.message))

variable {k n pe pes units unit x : Nat} {e : RunError} {v : Violation} {name : String}

theorem fits_of_within (h : Within memory e.message) : e.Fits :=
  inWords_abort _ h (by decide)

theorem fits_stalled (h : n < 2 ^ 64) : (stalled n).Fits := by
  refine inWords_abort _ (((within_fixed ?_).word h).fixed ?_) ?_ <;> decide

theorem fits_tooFewUnits (hn : n < 2 ^ 64) (hp : pes < 2 ^ 64) : (tooFewUnits n pes).Fits := by
  refine inWords_abort _ (((((within_word hn).fixed ?_).word hp).fixed ?_).fixed ?_) ?_ <;> decide

theorem fits_load (hn : n < 2 ^ 64) (hp : pes < 2 ^ 64) : (settings (.load n pes)).Fits := by
  refine inWords_abort _ ((within_fixed ?_).append
    (((((within_fixed ?_).word hn).fixed ?_).word hp).fixed ?_)) ?_ <;> decide

theorem fits_overdecomposition (hpe : pe < 2 ^ 64) (hu : unit < 2 ^ 64) (hn : units < 2 ^ 64)
    (hp : pes < 2 ^ 64) : (overdecomposition pe unit units pes).Fits := by
  refine inWords_abort _ ((((((((((within_fixed ?_).word hpe).fixed ?_).word hu).fixed ?_).word
    hn).fixed ?_).word hp).fixed ?_).fixed ?_) ?_ <;> decide

theorem fits_internal (hpe : pe < 2 ^ 64) (h : Within k v.message) (hk : k ≤ 2 * memory - 1000) :
    (internal pe v).Fits := by
  refine inWords_abort _ ((((within_fixed ?_).word hpe).fixed ?_).append h) ?_
  · decide
  · decide
  · unfold memory at hk
    omega

theorem fits_unitOutOfRange (hpe : pe < 2 ^ 64) (hu : unit < 2 ^ 64) (hn : units < 2 ^ 64) :
    (internal pe (.unitOutOfRange unit units)).Fits := by
  refine fits_internal hpe (((((within_fixed ?_).word hu).fixed ?_).word hn).fixed ?_) ?_ <;> decide

theorem fits_assigned (hname : Within memory name) (hpe : pe < 2 ^ 64) (hn : n < 2 ^ 64)
    (hx : x < 2 ^ 64) : (internal pe (.assigned name n x)).Fits := by
  refine fits_internal hpe (((((hname.fixed ?_).word hn).fixed ?_).word hx).fixed ?_) ?_ <;> decide

end RunError
end MeshDecomp
