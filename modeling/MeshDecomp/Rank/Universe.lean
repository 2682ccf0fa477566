import MeshDecomp.Rank.Basic

/-! All ranks of a run over mailboxes. Any rank that can take a turn may take the next one. -/

namespace MeshDecomp

structure Universe where
  ranks : List Progress
  mail : Mailboxes

namespace Universe

def create (size : Nat) : Except Crash Universe := do
  return ⟨List.replicate size .fresh, ← Mailboxes.create size⟩

/-- A turn of one rank, if it has one. -/
def turn (job : Job) (u : Universe) (rank : Nat) : Option Universe := do
  let p ← u.ranks[rank]?
  let (p, mail) ← p.turn job (.mailbox u.ranks.length rank) u.mail
  return ⟨u.ranks.set rank p, mail⟩

/-- Turns of some ranks, each if it has one; nothing if none has. -/
def turns (job : Job) (u : Universe) (ranks : List Nat) : Option Universe :=
  ranks.foldl (fun v rank => ((v.getD u).turn job rank).or v) none

/-- A turn of every rank that has one, in rank order. -/
def round (job : Job) (u : Universe) : Option Universe := u.turns job (List.range u.ranks.length)

def isBlocked (job : Job) (u : Universe) : Bool :=
  (List.range u.ranks.length).all fun rank => (u.turn job rank).isNone

/-- Some order of turns leads from one universe to another. -/
inductive Reaches (job : Job) (u : Universe) : Universe → Prop where
  | refl : Reaches job u u
  | turn {v w : Universe} (rank : Nat) : Reaches job u v → v.turn job rank = some w →
      Reaches job u w

/-- Turns can go on for ever. -/
def Endless (job : Job) (u : Universe) : Prop :=
  ∃ run : Nat → Universe, run 0 = u ∧ ∀ k, ∃ rank, (run k).turn job rank = some (run (k + 1))

/-- Rounds until no rank has a turn, `limit` at most. -/
def rounds (job : Job) (u : Universe) : (limit : Nat) → Universe
  | 0 => u
  | limit + 1 =>
      match u.round job with
      | some v => rounds job v limit
      | none => u

/-- More than the messages that all ranks can exchange, aborts included. -/
def limit (size : Nat) : Nat := 14 * size + 5 * size * size

def run (job : Job) (size : Nat) : Except Crash Universe :=
  (create size).map fun u => u.rounds job (limit size)

end Universe

end MeshDecomp
