/-! The ways in which a computation ends without a result. -/

namespace MeshDecomp

/-- The rule of the machine that a computation broke. -/
inductive Crash where
  | divisionByZero
  | indexOutOfBounds
  /-- More was to be stored than there are addresses for. -/
  | outOfRoom
  deriving DecidableEq, Repr

/-- An error is handed to the caller; a crash ends the program. -/
inductive Failure (ε : Type u) where
  | error (cause : ε)
  | crash (cause : Crash)
  deriving DecidableEq, Repr

namespace Failure

def map (f : ε → ε') : Failure ε → Failure ε'
  | .error e => .error (f e)
  | .crash c => .crash c

@[simp] theorem map_error (f : ε → ε') (e : ε) : (Failure.error e).map f = .error (f e) := rfl

@[simp] theorem map_crash (f : ε → ε') (c : Crash) : (Failure.crash c).map f = .crash c := rfl

end Failure

end MeshDecomp
