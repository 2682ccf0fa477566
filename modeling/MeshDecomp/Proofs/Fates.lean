import MeshDecomp.Proofs.NumberingCalls

/-!
What becomes of the requests that a numbering is given: each is answered once, or waits, or is lost
to a flush that fails. Such a flush takes with it the request that it cannot answer and all before
it.
-/

namespace MeshDecomp
namespace Numbering

/-- A request that is handed in by a call. -/
def Call.request? : Call → Option (Nat × List Nat)
  | .push peer nodes => some (peer, nodes)
  | _ => none

/-- The requests of some calls, in order. -/
def pushed (calls : List Call) : List (Nat × List Nat) := calls.filterMap Call.request?

/-- The answers that a call returns; none if it fails. -/
def repliesOf (n : Numbering) : Call → List (Nat × List (Nat × Nat))
  | .flush => match n.flush.result with
    | .ok replies => replies
    | .error _ => []
  | _ => []

/-- The answers of all calls, in order. -/
def replied (n : Numbering) : List Call → List (Nat × List (Nat × Nat))
  | [] => []
  | c :: calls => n.repliesOf c ++ (n.next c).replied calls

/-- A request that left the inbox, and the answer that it got. -/
structure Fate where
  request : Nat × List Nat
  answer : Option (Nat × List (Nat × Nat))

/-- The answer goes to who asked, with one pair for each node, in the order of the request. -/
def Fate.Faithful (f : Fate) : Prop :=
  ∀ reply, f.answer = some reply → reply.1 = f.request.1 ∧ reply.2.map Prod.fst = f.request.2

/-- A flush of the calls finds a request that it cannot answer, this one or one behind it. -/
def LostIn (n : Numbering) (calls : List Call) (request : Nat × List Nat) : Prop :=
  ∃ before later done bad rest, calls = before ++ .flush :: later ∧
    (n.after before).begun = true ∧ (n.after before).inbox = done ++ bad :: rest ∧
    (∀ r ∈ done, (n.after before).Serves r.2) ∧ ¬(n.after before).Serves bad.2 ∧
    request ∈ done ++ [bad]

/-- The requests that wait and those that come in, by what becomes of them. -/
structure Accounts (n : Numbering) (calls : List Call) (fates : List Fate) : Prop where
  requests : n.inbox ++ pushed calls = fates.map Fate.request ++ (n.after calls).inbox
  replies : n.replied calls = fates.filterMap Fate.answer
  faithful : ∀ f ∈ fates, f.Faithful
  lost : ∀ f ∈ fates, f.answer = none → n.LostIn calls f.request

variable {n : Numbering} {c : Call} {calls : List Call} {fates later : List Fate}

/-- A call that only adds to the inbox settles nothing. -/
theorem accounts_of_inbox (h : (n.next c).inbox = n.inbox ++ pushed [c])
    (hr : n.repliesOf c = []) : n.Accounts [c] [] where
  requests := h.symm
  replies := by simp [replied, hr]
  faithful := nofun
  lost := nofun

theorem accounts_flush (n : Numbering) : ∃ fates, n.Accounts [.flush] fates := by
  cases hb : n.begun with
  | false =>
    have hflush := flush_of_not_begun hb
    refine ⟨[], accounts_of_inbox ?_ ?_⟩
    · simp [next, hflush, pushed, Call.request?]
    · simp [repliesOf, hflush]
  | true =>
    have hflush := flush_of_begun hb
    rcases n.serves_or_not n.inbox with h | ⟨done, bad, rest, hinbox, hdone, hbad⟩
    · rw [answer_of_serves h] at hflush
      refine ⟨n.inbox.map fun r => ⟨r, some (n.answerTo r)⟩, ?_, ?_, ?_, ?_⟩
      · simp [after, next, hflush, pushed, Call.request?, Function.comp_def]
      · simp [replied, repliesOf, hflush, List.filterMap_map]
      · rintro f hf reply hreply
        obtain ⟨r, -, rfl⟩ := List.mem_map.1 hf
        obtain rfl := Option.some.inj hreply
        exact ⟨rfl, map_fst_answerTo n r⟩
      · rintro f hf hnone
        obtain ⟨r, -, rfl⟩ := List.mem_map.1 hf
        cases hnone
    · obtain ⟨x, -, -, hans⟩ := answer_of_not_serves hdone hbad rest
      rw [hinbox, hans] at hflush
      refine ⟨(done ++ [bad]).map fun r => ⟨r, none⟩, ?_, ?_, ?_, ?_⟩
      · simp [after, next, hflush, hinbox, pushed, Call.request?, Function.comp_def]
      · simp [replied, repliesOf, hflush, List.filterMap_map]
      · rintro f hf reply hreply
        obtain ⟨r, -, rfl⟩ := List.mem_map.1 hf
        cases hreply
      · rintro f hf -
        obtain ⟨r, hr, rfl⟩ := List.mem_map.1 hf
        exact ⟨[], [], done, bad, rest, rfl, hb, hinbox, hdone, hbad, hr⟩

theorem accounts_call (n : Numbering) (c : Call) : ∃ fates, n.Accounts [c] fates := by
  cases c with
  | begin rank start asked =>
    refine ⟨[], accounts_of_inbox ?_ rfl⟩
    rcases n.begin_cases rank start asked with ⟨e, h⟩ | ⟨requests, -, -, h⟩ <;>
      simp [next, h, pushed, Call.request?]
  | push peer nodes => exact ⟨[], accounts_of_inbox rfl rfl⟩
  | flush => exact n.accounts_flush
  | resolve peer pairs =>
    obtain ⟨taken, h⟩ := n.state_resolve peer pairs
    exact ⟨[], accounts_of_inbox (by simp [next, h, taking, pushed, Call.request?]) rfl⟩

theorem LostIn.cons {r : Nat × List Nat} (h : (n.next c).LostIn calls r) :
    n.LostIn (c :: calls) r := by
  obtain ⟨before, later, done, bad, rest, rfl, h⟩ := h
  exact ⟨c :: before, later, done, bad, rest, rfl, h⟩

theorem LostIn.weaken {r : Nat × List Nat} (h : n.LostIn calls r) (more : List Call) :
    n.LostIn (calls ++ more) r := by
  obtain ⟨before, later, done, bad, rest, rfl, h⟩ := h
  exact ⟨before, later ++ more, done, bad, rest, List.append_assoc _ _ _, h⟩

theorem Accounts.cons (h : n.Accounts [c] fates) (hs : (n.next c).Accounts calls later) :
    n.Accounts (c :: calls) (fates ++ later) where
  requests := by
    have hpushed : pushed (c :: calls) = pushed [c] ++ pushed calls := by
      rw [pushed, ← List.singleton_append, List.filterMap_append]
      rfl
    have hfirst : n.inbox ++ pushed [c] = fates.map Fate.request ++ (n.next c).inbox := h.requests
    have hrest : (n.next c).inbox ++ pushed calls =
        later.map Fate.request ++ (n.after (c :: calls)).inbox := hs.requests
    rw [hpushed, ← List.append_assoc, hfirst, List.append_assoc, hrest, List.map_append,
      List.append_assoc]
  replies := by
    have hfirst : n.repliesOf c ++ [] = fates.filterMap Fate.answer := h.replies
    rw [replied, hs.replies, List.filterMap_append, ← hfirst, List.append_nil]
  faithful := fun f hf => (List.mem_append.1 hf).elim (h.faithful f) (hs.faithful f)
  lost := fun f hf hnone => by
    rcases List.mem_append.1 hf with hf | hf
    · exact (h.lost f hf hnone).weaken calls
    · exact (hs.lost f hf hnone).cons

theorem accounts_calls (n : Numbering) (calls : List Call) :
    ∃ fates, n.Accounts calls fates := by
  induction calls generalizing n with
  | nil => exact ⟨[], by simp [pushed, after], rfl, nofun, nofun⟩
  | cons c calls ih =>
    obtain ⟨fates, h⟩ := n.accounts_call c
    obtain ⟨later, hs⟩ := ih (n.next c)
    exact ⟨fates ++ later, h.cons hs⟩

/-- Over all sequences of calls on a new numbering, those that fail included, every request is
answered by one flush, with one pair for each of its nodes in order, or waits, or is lost to a flush
that finds a request which it cannot answer. Such a flush fails, loses that request and all before
it, and keeps those behind it; a flush that can answer every request does so. -/
theorem requests_answered_unless_flush_fails (nodes : List Nat) (calls : List Call) :
    (∃ fates, Accounts { nodes } calls fates) ∧
    ∀ n, ({ nodes } : Numbering).after calls = n →
      (n.begun = false → n.flush = .ok n []) ∧
      (n.begun = true → (∀ r ∈ n.inbox, n.Serves r.2) →
        n.flush = .ok { n with inbox := [] } (n.inbox.map n.answerTo)) ∧
      ∀ done bad rest, n.begun = true → n.inbox = done ++ bad :: rest →
        (∀ r ∈ done, n.Serves r.2) → ¬n.Serves bad.2 → ∃ x ∈ bad.2, ¬n.Numbers x ∧
          n.flush = .fail { n with inbox := rest } (.notNumberedHere bad.1 x) := by
  refine ⟨accounts_calls _ calls, fun n _ => ⟨flush_of_not_begun, fun hb hs => ?_, ?_⟩⟩
  · rw [flush_of_begun hb, answer_of_serves hs]
  · intro done bad rest hb hinbox hdone hbad
    rw [flush_of_begun hb, hinbox]
    exact answer_of_not_serves hdone hbad rest

/-- One request is answered; of the next two the first asks for a node that nobody has. -/
theorem second_of_three_requests_lost :
    let calls : List Call := [.push 2 [2], .begin 0 0 ∅, .flush, .push 3 [9], .push 4 [1]]
    let n := ({ nodes := [1, 2] } : Numbering).after calls
    ({ nodes := [1, 2] } : Numbering).replied calls = [(2, [(2, 1)])] ∧
      n.inbox = [(3, [9]), (4, [1])] ∧ (∃ fates, Accounts { nodes := [1, 2] } calls fates) ∧
      ∃ x ∈ [9], n.flush = .fail { n with inbox := [(4, [1])] } (.notNumberedHere 3 x) := by
  intro calls n
  obtain ⟨hfates, hall⟩ := requests_answered_unless_flush_fails [1, 2] calls
  obtain ⟨-, -, hlost⟩ := hall n rfl
  have hbad : ¬n.Serves [9] := by
    intro h
    obtain ⟨y, -, hy⟩ := h 9 List.mem_cons_self
    cases (rfl : n.newId? 9 = none).symm.trans hy
  obtain ⟨x, hx, -, hflush⟩ := hlost [] (3, [9]) [(4, [1])] rfl rfl nofun hbad
  exact ⟨rfl, rfl, hfates, x, hx, hflush⟩

/-- A request that cannot be answered takes one with it that can: neither of them waits any longer,
and no flush has answered. -/
theorem flush_loses_requests :
    let calls : List Call := [.push 2 [2], .push 3 [9], .begin 0 0 ∅, .flush]
    pushed calls = [(2, [2]), (3, [9])] ∧
      (({ nodes := [1, 2] } : Numbering).after calls).inbox = [] ∧
      ({ nodes := [1, 2] } : Numbering).replied calls = [] :=
  ⟨rfl, rfl, rfl⟩

end Numbering
end MeshDecomp
