import MeshDecomp.Rank.Universe

/-!
A rank that can reach nobody. It takes the same turns over any two links that look alike to it.
-/

namespace MeshDecomp

/-- Links that look alike to a rank, and over which it cannot send. -/
structure Link.Twins (l : Link σ) (a : σ) (l' : Link τ) (b : τ) : Prop where
  rank : l.rank = l'.rank
  size : l.size = l'.size
  send : ∀ receiver ≠ l.rank, ∀ bytes, ∃ cause,
    l.send a receiver bytes = .error cause ∧ l'.send b receiver bytes = .error cause

theorem Link.twins_loopback : Twins loopback [] (mailbox 1 0) (.empty 1) where
  rank := rfl
  size := rfl
  send := fun receiver hr bytes => by
    have hne : receiver ≠ 0 := hr
    have hlt : ¬ receiver < 1 := by omega
    exact ⟨.peerOutOfRange receiver 1, if_neg hne, if_neg hlt⟩

namespace Rank

/-- Results that differ only in what lies between the ranks, and this as it was before. -/
inductive Alike (a : σ) (b : τ) : Result σ α → Result τ α → Prop where
  | intro (r : Rank) (x : Except (Failure RunError) α) : Alike a b ⟨(r, a), x⟩ ⟨(r, b), x⟩

variable {l : Link σ} {a : σ} {l' : Link τ} {b : τ}

namespace Alike

theorem bind {o : Result σ α} {o' : Result τ α} {f : Rank × σ → α → Result σ β}
    {g : Rank × τ → α → Result τ β} (h : Alike a b o o')
    (hf : ∀ r x, Alike a b (f (r, a) x) (g (r, b) x)) : Alike a b (o.bind f) (o'.bind g) := by
  obtain ⟨r, x⟩ := h
  cases x with
  | ok x => exact hf r x
  | error e => exact .intro r (.error e)

variable (h : l.Twins a l' b)

include h

theorem post (r : Rank) (receiver : Nat) (e : Envelope) :
    Alike a b (post l (r, a) receiver e) (post l' (r, b) receiver e) := by
  unfold Rank.post
  rw [← h.rank]
  by_cases hr : receiver = l.rank
  · rw [if_pos hr, if_pos hr]
    exact .intro _ (.ok ())
  · obtain ⟨cause, hl, hl'⟩ := h.send receiver hr (Wire.encode l.rank e)
    rw [if_neg hr, if_neg hr, hl, hl']
    exact .intro _ (.error _)

theorem postAll (r : Rank) (ms : List (Nat × Envelope)) :
    Alike a b (postAll l (r, a) ms) (postAll l' (r, b) ms) := by
  induction ms generalizing r with
  | nil => exact .intro r (.ok ())
  | cons m ms ih => exact (post h r m.1 m.2).bind fun r _ => ih r

theorem perform (r : Rank) (as : List Action) :
    Alike a b (perform l (r, a) as) (perform l' (r, b) as) := by
  induction as generalizing r with
  | nil => exact .intro r (.ok ())
  | cons act as ih =>
    cases act with
    | send receiver m => exact (post h r receiver (.peer m)).bind fun r _ => ih r
    | contribute c => exact (post h r hostRank (.contribution c)).bind fun r _ => ih r
    | instantiate u => exact ih _
    | bounds pe s => exact ih _

theorem follow (r : Rank) (ds : List Directive) :
    Alike a b (follow l (r, a) ds) (follow l' (r, b) ds) := by
  induction ds generalizing r with
  | nil => exact .intro r (.ok ())
  | cons d ds ih =>
    cases d with
    | broadcast c =>
      unfold Rank.follow
      rw [← h.size]
      exact (postAll h r _).bind fun r _ => ih r
    | tell pe c => exact (post h r pe (.command c)).bind fun r _ => ih r
    | finished report => exact ih _

theorem onWorker (r : Rank) (call : Worker → Outcome Worker (Failure RunError) (List Action)) :
    Alike a b (onWorker l (r, a) call) (onWorker l' (r, b) call) := by
  refine Alike.bind ?_ fun r as => perform h r as
  exact .intro { r with worker := (call r.worker).state } (call r.worker).result

theorem handle (r : Rank) (sender : Nat) (e : Envelope) :
    Alike a b (handle l (r, a) sender e) (handle l' (r, b) sender e) := by
  cases e with
  | peer m => exact onWorker h r fun w => (w.handle (.peer sender m)).mapError .error
  | command c => exact onWorker h r fun w => (w.handle (.command c)).mapError .error
  | abort user reason => exact .intro r (.error _)
  | contribution c =>
    unfold Rank.handle
    rw [← h.rank]
    cases hr : r.host with
    | none => exact .intro r (.error _)
    | some g =>
      refine Alike.bind ?_ fun r ds => follow h r ds
      exact .intro { r with host := some (g.contribute sender c).state }
        (g.contribute sender c).result

end Alike

/-- Who cannot reach anybody tells nobody of an error. -/
theorem abort_eq_self (h : ∀ receiver ≠ l.rank, ∀ bytes, ∃ cause,
    l.send a receiver bytes = .error cause) (e : RunError) : abort l a e = a := by
  have hne : ∀ p ∈ (List.range l.size).filter (· ≠ l.rank), p ≠ l.rank := fun p hp => by
    simpa using (List.mem_filter.1 hp).2
  unfold abort
  generalize (List.range l.size).filter (· ≠ l.rank) = receivers at *
  induction receivers with
  | nil => rfl
  | cons p receivers ih =>
    obtain ⟨hp, hne⟩ := List.forall_mem_cons.1 hne
    obtain ⟨cause, hs⟩ := h p hp (Wire.encode l.rank (.abort e.isUser e.message))
    rw [List.foldl_cons, hs]
    exact ih hne

end Rank

namespace Progress

variable {l : Link σ} {a : σ} {l' : Link τ} {b : τ} {job : Job}

theorem giveUp_alike (h : l.Twins a l' b) (c : Collector) (e : Failure RunError) :
    ∃ p, giveUp l a c e = (p, a) ∧ giveUp l' b c e = (p, b) := by
  have hl : ∀ e, Rank.abort l a e = a := Rank.abort_eq_self fun receiver hr bytes => by
    obtain ⟨cause, hs, -⟩ := h.send receiver hr bytes
    exact ⟨cause, hs⟩
  have hl' : ∀ e, Rank.abort l' b e = b := Rank.abort_eq_self fun receiver hr bytes => by
    obtain ⟨cause, -, hs⟩ := h.send receiver (h.rank ▸ hr) bytes
    exact ⟨cause, hs⟩
  refine ⟨.returned ⟨.error e, c⟩, ?_, ?_⟩
  · unfold giveUp
    cases e with
    | crash => rfl
    | error e => cases e <;> simp only [hl]
  · unfold giveUp
    cases e with
    | crash => rfl
    | error e => cases e <;> simp only [hl']

theorem settle_alike (h : l.Twins a l' b) {o : Rank.Result σ Unit} {o' : Rank.Result τ Unit}
    (ho : Rank.Alike a b o o') : ∃ p, settle l o = (p, a) ∧ settle l' o' = (p, b) := by
  obtain ⟨r, x⟩ := ho
  cases x with
  | error e => exact giveUp_alike h r.collector e
  | ok => exact ⟨_, rfl, rfl⟩

/-- Both links give a rank that has something of its own to do the same turn. -/
theorem turn_alike (h : l.Twins a l' b) {p : Progress} (hp : ∀ r, p ≠ .returned r)
    (hown : ∀ r, p = .live r → r.own ≠ []) :
    ∃ p', p.turn job l a = some (p', a) ∧ p.turn job l' b = some (p', b) := by
  cases p with
  | returned r => exact absurd rfl (hp r)
  | fresh =>
    unfold turn
    rw [← h.rank, ← h.size]
    dsimp only
    cases Rank.create job l.rank l.size with
    | error e =>
      obtain ⟨p, hl, hl'⟩ := giveUp_alike h {} e
      exact ⟨p, congrArg some hl, congrArg some hl'⟩
    | ok r =>
      obtain ⟨p, hl, hl'⟩ := settle_alike h (Rank.Alike.onWorker h r Worker.start)
      exact ⟨p, congrArg some hl, congrArg some hl'⟩
  | live r =>
    unfold turn
    dsimp only
    cases ho : r.own with
    | nil => exact absurd ho (hown r rfl)
    | cons x own =>
      obtain ⟨p, hl, hl'⟩ := settle_alike h (Rank.Alike.handle h { r with own } x.1 x.2)
      exact ⟨p, congrArg some hl, congrArg some hl'⟩

end Progress
end MeshDecomp
