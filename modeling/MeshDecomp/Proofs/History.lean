import MeshDecomp.Proofs.Causes

/-! The state of a rank, read off the letters of a run in the order of their arrival. -/
namespace MeshDecomp

namespace Letter

/-- The sender of a letter of one kind to one processing element. -/
def sender? (x : Exchange) (pe : Nat) : Letter → Option Nat
  | peer y s t => if y = x ∧ t = pe then some s else none
  | _ => none

theorem sender?_eq_some {x : Exchange} {pe s : Nat} {m : Letter} :
    m.sender? x pe = some s ↔ m = .peer x s pe := by
  cases m <;> simp [sender?, and_assoc, and_comm]

/-- Who sent letters of one kind to a processing element, in the order of arrival. -/
def senders (x : Exchange) (pe : Nat) (H : List Letter) : List Nat := H.filterMap (sender? x pe)

theorem mem_senders {x : Exchange} {pe s : Nat} {H : List Letter} :
    s ∈ senders x pe H ↔ .peer x s pe ∈ H := by
  simp only [senders, List.mem_filterMap, sender?_eq_some, exists_eq_right]

theorem senders_concat {x : Exchange} {pe : Nat} {H : List Letter} {m : Letter} :
    senders x pe (H ++ [m]) = senders x pe H ++ (m.sender? x pe).toList := by
  cases h : m.sender? x pe <;> simp [senders, h]

theorem nodup_senders {x : Exchange} {pe : Nat} {H : List Letter} (h : H.Nodup) :
    (senders x pe H).Nodup := by
  apply h.filterMap
  intro m m' s hs hs'
  rw [sender?_eq_some.1 hs, sender?_eq_some.1 hs']

end Letter

/-- What arrived at a processing element. -/
def View.of (H : List Letter) (pe : Nat) : View where
  partitioned := .command .partition pe ∈ H
  adds := Letter.senders .add pe H
  acks := Letter.senders .ack pe H
  flattened := .command .flatten pe ∈ H
  requests := Letter.senders .request pe H
  reordered := .command .reorder pe ∈ H
  replies := Letter.senders .reply pe H
  lowered :=
    match pe with
    | 0 => false
    | p + 1 => .lower p ∈ H
  closed := .command .deviation pe ∈ H

section

variable {H : List Letter} {pe s t : Nat} {x : Exchange} {m : Letter}

theorem View.of_concat_of_ne (h : m.receiver? ≠ some pe) : of (H ++ [m]) pe = of H pe := by
  have hs : ∀ x, Letter.senders x pe (H ++ [m]) = Letter.senders x pe H := by
    intro x
    have hn : m.sender? x pe = none :=
      Option.eq_none_iff_forall_ne_some.2 fun s hs => by
        rw [Letter.sender?_eq_some.1 hs] at h
        exact h rfl
    rw [Letter.senders_concat, hn, Option.toList_none, List.append_nil]
  have hc : ∀ c : Letter, c.receiver? = some pe → (c ∈ H ++ [m] ↔ c ∈ H) := by
    intro c hc
    have hne : c ≠ m := fun he => h (he ▸ hc)
    simp [hne]
  have hl : ∀ p, pe = p + 1 → (.lower p ∈ H ++ [m] ↔ .lower p ∈ H) := fun p hp =>
    hc _ (hp ▸ rfl)
  simp only [of, hs, hc (.command _ pe) rfl]
  cases pe with
  | zero => rfl
  | succ p => simp only [hl p rfl]

theorem View.of_concat_peer : of (H ++ [.peer x s pe]) pe =
    match x with
    | .add => { of H pe with adds := (of H pe).adds ++ [s] }
    | .ack => { of H pe with acks := (of H pe).acks ++ [s] }
    | .request => { of H pe with requests := (of H pe).requests ++ [s] }
    | .reply => { of H pe with replies := (of H pe).replies ++ [s] } := by
  cases pe <;> cases x <;> simp [of, Letter.senders_concat, Letter.sender?]

theorem View.of_concat_command (b : Barrier) : of (H ++ [.command b pe]) pe =
    match b with
    | .partition => { of H pe with partitioned := true }
    | .flatten => { of H pe with flattened := true }
    | .reorder => { of H pe with reordered := true }
    | .deviation => { of H pe with closed := true } := by
  cases pe <;> cases b <;> simp [of, Letter.senders_concat, Letter.sender?]

theorem View.of_concat_lower : of (H ++ [.lower s]) (s + 1) =
    { of H (s + 1) with lowered := true } := by
  simp [of, Letter.senders_concat, Letter.sender?]

end

namespace Scenario

variable {S : Scenario} {pe s t q : Nat} {b : Barrier} {k : Contribution.Kind} {m c : Letter}
  {H : List Letter}

theorem settled_iff : S.Settled pe (.of H pe) ↔ ∀ c ∈ S.settling pe, c ∈ H := by
  simp only [mem_settling, Settled, Complete, View.of, Letter.mem_senders, decide_eq_true_eq]
  constructor
  · rintro ⟨⟨hr, hall⟩, hl⟩ c (rfl | ⟨q, hq, rfl⟩ | ⟨p, rfl, rfl⟩)
    · exact hr
    · exact hall q hq
    · simpa using hl
  · intro h
    refine ⟨⟨h _ (.inl rfl), fun q hq => h _ (.inr (.inl ⟨q, hq, rfl⟩))⟩, ?_⟩
    cases pe with
    | zero => exact .inl rfl
    | succ p => exact .inr (decide_eq_true (h _ (.inr (.inr ⟨p, rfl, rfl⟩))))

/-- The letters that arrived in a run so far: each once, after its causes, and none that made its
receiver fail. -/
structure History (S : Scenario) (H : List Letter) : Prop where
  nodup : H.Nodup
  sent : ∀ m ∈ H, S.Sent H m
  answered : S.Gathered .partition H → S.Answered
  inRange : ∀ pe, .command .partition pe ∈ H → S.InRange pe
  occupied : ∀ pe, .command .flatten pe ∈ H → S.vacant? pe = none

/-- Letters that make their receivers fail: the last contribution before the partitioning without
an answer, the partitioning with a work unit that does not exist, and the look at a work unit
without elements. -/
inductive Fails (S : Scenario) (H : List Letter) : Letter → Failure RunError → Prop where
  | answer {k : Contribution.Kind} {pe : Nat} {e : Failure RunError} :
      S.Gathered .partition (H ++ [.contribution k pe]) → S.answer = .error e →
      Fails S H (.contribution k pe) e
  | unit {pe unit : Nat} : S.stray? pe = some unit →
      Fails S H (.command .partition pe) (.error (.internal pe (.unitOutOfRange unit S.units)))
  | vacant {pe unit : Nat} : S.vacant? pe = some unit →
      Fails S H (.command .flatten pe) (.error (.overdecomposition pe unit S.units S.pes))

namespace History

/-- A history goes on with what was sent and makes nobody fail. -/
theorem concat (h : S.History H) (hs : S.Sent H m) (hn : m ∉ H) (hok : ∀ e, ¬ S.Fails H m e) :
    S.History (H ++ [m]) where
  nodup := by simpa using List.Nodup.concat hn h.nodup
  sent := by
    intro c hc
    have hsent : S.Sent H c := (List.mem_append.1 hc).elim (h.sent c) fun hm =>
      List.mem_singleton.1 hm ▸ hs
    exact hsent.mono (List.subset_append_left _ _)
  answered := by
    intro hg
    cases hans : S.answer with
    | ok ids => exact answered_of_eq hans
    | error e =>
      have hH : S.Gathered .partition H := by
        intro c hc
        obtain ⟨k, -, pe, -, rfl⟩ := mem_gathering.1 hc
        apply (List.mem_append.1 (hg _ hc)).resolve_right
        intro hm
        obtain rfl := List.mem_singleton.1 hm
        exact hok e (.answer hg hans)
      have ha : S.answer = .ok S.assignment := h.answered hH
      cases ha.symm.trans hans
  inRange := by
    intro pe hc
    rcases List.mem_append.1 hc with hc | hc
    · exact h.inRange pe hc
    · obtain rfl := List.mem_singleton.1 hc
      rw [inRange_iff, Option.eq_none_iff_forall_ne_some]
      exact fun unit hr => hok _ (.unit hr)
  occupied := by
    intro pe hc
    rcases List.mem_append.1 hc with hc | hc
    · exact h.occupied pe hc
    · obtain rfl := List.mem_singleton.1 hc
      cases hv : S.vacant? pe with
      | none => rfl
      | some unit => exact absurd (.vacant hv) (hok _)

theorem lt (h : S.History H) (hm : .command b pe ∈ H) : pe < S.pes := (h.sent _ hm).1

theorem gathered (h : S.History H) (hm : .command b pe ∈ H) : S.Gathered b H := (h.sent _ hm).2

theorem contributed (h : S.History H) (hm : .command b pe ∈ H) (hk : k ∈ b.kinds) (hs : s < S.pes) :
    .contribution k s ∈ H :=
  gathered_iff.1 (h.gathered hm) k hk s hs

theorem answered_of_partition (h : S.History H) (hm : .command .partition pe ∈ H) : S.Answered :=
  h.answered (h.gathered hm)

/-- A rank has distributed its elements when all that it sent is acknowledged. -/
theorem distributed_of_gathered (h : S.History H) (hg : S.Gathered .flatten H) (hs : s < S.pes) :
    .command .partition s ∈ H ∧ ∀ q ∈ (S.exports s).keys, .peer .ack q s ∈ H := by
  have hd : .contribution .distributed s ∈ H := gathered_iff.1 hg _ (by decide) s hs
  refine ⟨(h.sent _ hd).2 _ List.mem_cons_self, fun q hq => ?_⟩
  exact (h.sent _ hd).2 _ (List.mem_cons_of_mem _ (List.mem_map_of_mem hq))

theorem partition_of_flatten (h : S.History H) (hm : .command .flatten pe ∈ H) (hs : s < S.pes) :
    .command .partition s ∈ H :=
  (h.distributed_of_gathered (h.gathered hm) hs).1

theorem flatten_of_reorder (h : S.History H) (hm : .command .reorder pe ∈ H) (hs : s < S.pes) :
    .command .flatten s ∈ H := by
  have hf : .contribution .flattened s ∈ H := h.contributed hm (by decide) hs
  exact (h.sent _ hf).2 _ List.mem_cons_self

theorem partition_of_ack (h : S.History H) (hm : .peer .ack s pe ∈ H) :
    .command .partition pe ∈ H := by
  have ha : .peer .add pe s ∈ H := (h.sent _ hm).2 _ List.mem_cons_self
  exact (h.sent _ ha).2 _ List.mem_cons_self

theorem flatten_of_request (h : S.History H) (hm : .peer .request s pe ∈ H) :
    .command .flatten pe ∈ H := by
  obtain ⟨hs, hk⟩ := (h.sent _ hm).1
  have hr : .command .reorder s ∈ H := (h.sent _ hm).2 _ List.mem_cons_self
  exact h.flatten_of_reorder hr ((lt_of_mem_keys_asked hs hk).trans hs)

theorem reorder_of_reply (h : S.History H) (hm : .peer .reply s pe ∈ H) :
    .command .reorder pe ∈ H := by
  have hr : .peer .request pe s ∈ H := (h.sent _ hm).2 _ List.mem_cons_self
  exact (h.sent _ hr).2 _ List.mem_cons_self

theorem flatten_of_lower (h : S.History H) (hm : .lower s ∈ H) : .command .flatten (s + 1) ∈ H := by
  have hr : .command .reorder s ∈ H := (h.sent _ hm).2 _ (mem_settling.2 (.inl rfl))
  exact h.flatten_of_reorder hr (h.sent _ hm).1

theorem settled_of_deviation (h : S.History H) (hm : .command .deviation pe ∈ H) :
    S.Settled pe (.of H pe) := by
  have hc : .contribution .cost pe ∈ H := h.contributed hm (by decide) (h.lt hm)
  exact settled_iff.2 (h.sent _ hc).2

theorem reorder_of_deviation (h : S.History H) (hm : .command .deviation pe ∈ H) :
    .command .reorder pe ∈ H :=
  settled_iff.1 (h.settled_of_deviation hm) _ (mem_settling.2 (.inl rfl))

/-! ### What has not arrived yet -/

theorem replies_eq_nil (h : S.History H) (hm : .command .reorder pe ∉ H) :
    (View.of H pe).replies = [] :=
  List.eq_nil_iff_forall_not_mem.2 fun _ hs =>
    hm (h.reorder_of_reply (Letter.mem_senders.1 hs))

theorem not_closed (h : S.History H) (hm : ¬ S.Settled pe (.of H pe)) :
    (View.of H pe).closed = false :=
  decide_eq_false fun hd => hm (h.settled_of_deviation hd)

theorem of_eq_of_not_flatten (h : S.History H) (hm : .command .flatten pe ∉ H) (hp : pe < S.pes) :
    View.of H pe =
      { partitioned := (View.of H pe).partitioned
        adds := (View.of H pe).adds
        acks := (View.of H pe).acks } := by
  have hr : .command .reorder pe ∉ H := fun hr => hm (h.flatten_of_reorder hr hp)
  have hflattened : (View.of H pe).flattened = false := decide_eq_false hm
  have hreordered : (View.of H pe).reordered = false := decide_eq_false hr
  have hclosed : (View.of H pe).closed = false :=
    h.not_closed (not_settled (not_complete hreordered))
  have hrequests : (View.of H pe).requests = [] :=
    List.eq_nil_iff_forall_not_mem.2 fun s hs =>
      hm (h.flatten_of_request (Letter.mem_senders.1 hs))
  have hlowered : (View.of H pe).lowered = false := by
    cases pe with
    | zero => rfl
    | succ p => exact decide_eq_false fun hl => hm (h.flatten_of_lower hl)
  have hreplies := h.replies_eq_nil hr
  generalize View.of H pe = v at *
  cases v
  simp_all

theorem of_eq_of_not_partition (h : S.History H) (hm : .command .partition pe ∉ H)
    (hp : pe < S.pes) : View.of H pe = { adds := (View.of H pe).adds } := by
  have hpartitioned : (View.of H pe).partitioned = false := decide_eq_false hm
  have hacks : (View.of H pe).acks = [] :=
    List.eq_nil_iff_forall_not_mem.2 fun s hs =>
      hm (h.partition_of_ack (Letter.mem_senders.1 hs))
  rw [h.of_eq_of_not_flatten (fun hf => hm (h.partition_of_flatten hf hp)) hp, hpartitioned, hacks]

/-! ### What has arrived -/

theorem nodup_adds (h : S.History H) : (pe :: (View.of H pe).adds).Nodup := by
  refine List.nodup_cons.2 ⟨fun hmem => ?_, Letter.nodup_senders h.nodup⟩
  obtain ⟨-, hk⟩ := (h.sent _ (Letter.mem_senders.1 hmem)).1
  exact (mem_keys_exports.1 hk).1 rfl

theorem length_acks (h : S.History H) :
    (View.of H pe).acks.length = (S.exports pe).size ↔
      ∀ q ∈ (S.exports pe).keys, .peer .ack q pe ∈ H := by
  have hsub : (View.of H pe).acks ⊆ (S.exports pe).keys := fun s hs =>
    (h.sent _ (Letter.mem_senders.1 hs)).1.2
  have hnd : (View.of H pe).acks.Nodup := Letter.nodup_senders h.nodup
  rw [← IdMap.length_keys, length_eq_iff_subset hnd (IdMap.nodup_keys _) hsub]
  constructor
  · intro hall q hq
    exact Letter.mem_senders.1 (hall hq)
  · intro hall q hq
    exact Letter.mem_senders.2 (hall q hq)

theorem length_acks_le (h : S.History H) : (View.of H pe).acks.length ≤ (S.exports pe).size := by
  rw [← IdMap.length_keys]
  refine ((Letter.nodup_senders h.nodup).subperm fun s hs => ?_).length_le
  exact (h.sent _ (Letter.mem_senders.1 hs)).1.2

/-- When the host has ranks look at their work units, nothing is on its way to them any more. -/
theorem supplied (h : S.History H) (hg : S.Gathered .flatten H) (hp : pe < S.pes) :
    S.Supplied pe (pe :: (View.of H pe).adds) where
  lt := by
    intro s hs
    rcases List.mem_cons.1 hs with rfl | hs
    · exact hp
    · exact (h.sent _ (Letter.mem_senders.1 hs)).1.1
  mem := by
    intro s hs hc
    by_cases he : s = pe
    · exact he ▸ List.mem_cons_self
    · have hk : pe ∈ (S.exports s).keys := mem_keys_exports.2 ⟨Ne.symm he, hc⟩
      have ha : .peer .ack pe s ∈ H := (h.distributed_of_gathered hg hs).2 pe hk
      have hadd : .peer .add s pe ∈ H := (h.sent _ ha).2 _ List.mem_cons_self
      exact List.mem_cons_of_mem _ (Letter.mem_senders.2 hadd)

theorem acked (h : S.History H) (hg : S.Gathered .flatten H) (hp : pe < S.pes) :
    (View.of H pe).acks.length = (S.exports pe).size :=
  h.length_acks.2 (h.distributed_of_gathered hg hp).2

theorem numbers (h : S.History H) (hm : .command .flatten pe ∈ H) : S.Numbers pe (.of H pe) where
  answered := h.answered_of_partition (h.partition_of_flatten hm (h.lt hm))
  lt := h.lt hm
  partitioned := decide_eq_true (h.partition_of_flatten hm (h.lt hm))
  flattened := decide_eq_true hm
  supplied := h.supplied (h.gathered hm) (h.lt hm)
  nodup := Letter.nodup_senders h.nodup
  ne := by
    intro hmem
    obtain ⟨hp, hk⟩ := (h.sent _ (Letter.mem_senders.1 hmem)).1
    exact Nat.lt_irrefl pe (lt_of_mem_keys_asked hp hk)
  pos := by
    intro hl
    cases pe with
    | zero => cases hl
    | succ p => exact Nat.succ_pos p

end History
end Scenario
end MeshDecomp
