import MeshDecomp.Proofs.Logs

/-!
Messages that are answered. One is sent upon a command, waits at its receiver until that got the
same command, and then its answer travels back.
-/
namespace MeshDecomp

/-- What a rank wants of another one. -/
inductive Errand where
  /-- To take over work units. -/
  | units
  /-- To tell new ids. -/
  | ids
  deriving DecidableEq, Repr

namespace Errand

def there : Errand → Exchange
  | units => .add
  | ids => .request

def back : Errand → Exchange
  | units => .ack
  | ids => .reply

def barrier : Errand → Barrier
  | units => .partition
  | ids => .reorder

end Errand

inductive Leg where
  | outbound
  | waiting
  | returning
  | closed
  deriving DecidableEq, Repr

namespace Network

/-- The work units that are parked at a rank. -/
def parked (s : Network) (pe : Nat) : List (Nat × IdMap (List Nat)) :=
  s.ensemble.workers[pe]?.elim [] Worker.parked

def numbering? (s : Network) (pe : Nat) : Option Numbering :=
  s.ensemble.workers[pe]?.bind Worker.numbering

/-- The requests that wait at a rank. -/
def inbox (s : Network) (pe : Nat) : List (Nat × List Nat) :=
  (s.numbering? pe).elim [] Numbering.inbox

/-- Who sent what waits at a rank. -/
def waiting (s : Network) (pe : Nat) : Errand → List Nat
  | .units => (s.parked pe).map Prod.fst
  | .ids => (s.inbox pe).map Prod.fst

/-- How many messages of an errand from `p` to `q` are on a leg of their way. -/
def countAt (s : Network) (log : List Parcel) (e : Errand) (p q : Nat) : Leg → Nat
  | .outbound => s.pool.countP (Parcel.isPeer e.there p q)
  | .waiting => (s.waiting q e).count p
  | .returning => s.pool.countP (Parcel.isPeer e.back q p)
  | .closed => log.countP (Parcel.isPeer e.back q p)

end Network

namespace Scenario

variable {S : Scenario} {p q pe : Nat} {e : Errand} {l : Leg} {H fatal : List Letter}
  {n s : Network} {log : List Parcel}

theorem causes_there : S.causes (.peer e.there p q) = [.command e.barrier p] := by
  cases e <;> rfl

theorem causes_back :
    S.causes (.peer e.back q p) = [.peer e.there p q, .command e.barrier q] := by
  cases e <;> rfl

theorem occurs_back : S.Occurs (.peer e.back q p) ↔ S.Occurs (.peer e.there p q) := by
  cases e <;> rfl

/-- A rank that got the command has an errand at another one. -/
def Open (S : Scenario) (H : List Letter) (e : Errand) (p q : Nat) : Prop :=
  .command e.barrier p ∈ H ∧ S.Occurs (.peer e.there p q)

instance (H : List Letter) (e : Errand) (p q : Nat) : Decidable (S.Open H e p q) :=
  inferInstanceAs (Decidable (_ ∧ _))

/-- Where the message of an errand or its answer is. -/
def Stands (S : Scenario) (H : List Letter) (e : Errand) (p q : Nat) : Leg → Prop
  | .outbound => S.Sent H (.peer e.there p q) ∧ .peer e.there p q ∉ H
  | .waiting => .peer e.there p q ∈ H ∧ .command e.barrier q ∉ H
  | .returning => S.Sent H (.peer e.back q p) ∧ .peer e.back q p ∉ H
  | .closed => .peer e.back q p ∈ H

instance (H : List Letter) (e : Errand) (p q : Nat) : DecidablePred (S.Stands H e p q)
  | .outbound => inferInstanceAs (Decidable (S.Sent H _ ∧ _ ∉ H))
  | .waiting => inferInstanceAs (Decidable (_ ∈ H ∧ _ ∉ H))
  | .returning => inferInstanceAs (Decidable (S.Sent H _ ∧ _ ∉ H))
  | .closed => inferInstanceAs (Decidable (_ ∈ H))

/-- How far an errand has come. -/
def leg (H : List Letter) (e : Errand) (p q : Nat) : Leg :=
  if .peer e.there p q ∉ H then .outbound
  else if .command e.barrier q ∉ H then .waiting
  else if .peer e.back q p ∉ H then .returning
  else .closed

/-- The message was dealt with. -/
theorem leg_taken_iff : leg H e p q = .returning ∨ leg H e p q = .closed ↔
    .command e.barrier q ∈ H ∧ .peer e.there p q ∈ H := by
  unfold leg
  split_ifs <;> simp_all

theorem sent_there_iff : S.Sent H (.peer e.there p q) ↔ S.Open H e p q := by
  rw [Sent, causes_there, List.forall_mem_singleton]
  exact and_comm

namespace History

variable (h : S.History H)

include h

theorem open_of_there (hm : .peer e.there p q ∈ H) : S.Open H e p q :=
  sent_there_iff.1 (h.sent _ hm)

theorem lt_of_there (hm : .peer e.there p q ∈ H) : q < S.pes :=
  receiver_lt (h.sent _ hm).1 rfl

theorem senders_eq_nil (hq : ¬ q < S.pes) : Letter.senders e.there q H = [] :=
  List.eq_nil_iff_forall_not_mem.2 fun _ hp => hq (h.lt_of_there (Letter.mem_senders.1 hp))

theorem there_of_back (hm : .peer e.back q p ∈ H) : .peer e.there p q ∈ H := by
  refine (h.sent _ hm).2 _ ?_
  rw [causes_back]
  exact List.mem_cons_self

theorem command_of_back (hm : .peer e.back q p ∈ H) : .command e.barrier q ∈ H := by
  refine (h.sent _ hm).2 _ ?_
  rw [causes_back]
  exact List.mem_cons_of_mem _ List.mem_cons_self

theorem sent_back_iff : S.Sent H (.peer e.back q p) ↔
    .peer e.there p q ∈ H ∧ .command e.barrier q ∈ H := by
  rw [Sent, causes_back, List.forall_mem_cons, List.forall_mem_singleton, occurs_back]
  exact and_iff_right_of_imp fun hm => (h.open_of_there hm.1).2

theorem stands_iff : S.Stands H e p q l ↔ S.Open H e p q ∧ l = leg H e p q := by
  have hopen := @open_of_there S p q e H h
  have hthere := @there_of_back S p q e H h
  have hcommand := @command_of_back S p q e H h
  have hback := @sent_back_iff S p q e H h
  unfold leg
  cases l <;> simp only [Stands, sent_there_iff, hback] <;> split_ifs <;> simp_all

theorem closed_iff : .peer e.back q p ∈ H ↔ S.Open H e p q ∧ .closed = leg H e p q :=
  @stands_iff S p q e .closed H h

end History

namespace Follows

variable (h : S.Follows H fatal log s)

include h

theorem parked_eq : s.parked q =
    if .command .partition q ∈ H then []
    else (Letter.senders .add q H).map fun p => (p, S.cargo p q) := by
  by_cases hq : q < S.pes
  · rw [Network.parked, h.getElem?_worker hq, Option.elim_some]
    simp [stopped, worker, View.of]
  · have hnil : Letter.senders .add q H = [] := h.history.senders_eq_nil (e := .units) hq
    rw [Network.parked, h.getElem?_eq_none hq, hnil]
    split <;> rfl

theorem numbering?_eq : s.numbering? q =
    if .command .flatten q ∈ H then
      some (S.numbering q (.command .reorder q ∈ H) (Letter.senders .request q H)
        (Letter.senders .reply q H))
    else none := by
  by_cases hq : q < S.pes
  · rw [Network.numbering?, h.getElem?_worker hq, Option.bind_some]
    simp [stopped, worker, View.of]
  · rw [Network.numbering?, h.getElem?_eq_none hq, if_neg (mt h.history.lt hq)]
    rfl

theorem inbox_eq : s.inbox q =
    if .command .reorder q ∈ H then []
    else (Letter.senders .request q H).map fun p => (p, S.held p q) := by
  rw [Network.inbox, h.numbering?_eq]
  by_cases hf : .command .flatten q ∈ H
  · simp [hf, numbering]
  · have hr : .command .reorder q ∉ H := fun hr =>
      hf (h.history.flatten_of_reorder hr (h.history.lt hr))
    have hnone : Letter.senders .request q H = [] :=
      List.eq_nil_iff_forall_not_mem.2 fun p hp =>
        hf (h.history.flatten_of_request (Letter.mem_senders.1 hp))
    simp [hf, hr, hnone]

theorem waiting_eq : s.waiting q e =
    if .command e.barrier q ∈ H then [] else Letter.senders e.there q H := by
  cases e with
  | units =>
    rw [Network.waiting, h.parked_eq, Errand.barrier, Errand.there]
    split <;> simp [Function.comp_def]
  | ids =>
    rw [Network.waiting, h.inbox_eq, Errand.barrier, Errand.there]
    split <;> simp [Function.comp_def]

theorem count_waiting : (s.waiting q e).count p =
    if .peer e.there p q ∈ H ∧ .command e.barrier q ∉ H then 1 else 0 := by
  have hnd : (Letter.senders e.there q H).Nodup := Letter.nodup_senders h.history.nodup
  rw [h.waiting_eq]
  split
  · simp_all
  · simp_all [hnd.count, Letter.mem_senders]

/-- An errand is in one place only. -/
theorem countAt_eq : s.countAt log e p q l =
    if S.Open H e p q ∧ l = leg H e p q then 1 else 0 := by
  refine .trans ?_ (if_congr h.history.stands_iff rfl rfl)
  cases l with
  | outbound => exact h.countP_pool
  | waiting => exact h.count_waiting
  | returning => exact h.countP_pool
  | closed => exact h.countP_log

end Follows

end Scenario
end MeshDecomp
