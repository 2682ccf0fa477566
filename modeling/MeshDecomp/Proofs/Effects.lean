import MeshDecomp.Proofs.History

/-! What the arrival of a letter sets free. -/
namespace MeshDecomp
namespace Scenario

variable {S : Scenario} {pe s t q : Nat} {b : Barrier} {k : Contribution.Kind} {m c : Letter}
  {H : List Letter}

/-! ### Effects -/

theorem mem_causes_contribution : .contribution k pe ∈ S.causes c ↔
    ∃ b p, c = .command b p ∧ k ∈ b.kinds ∧ pe < S.pes := by
  cases c with
  | contribution k' p => cases k' <;> simp [causes, mem_settling]
  | command b p => simp [causes, mem_gathering, and_assoc]
  | peer x s t => cases x <;> simp [causes]
  | lower s => simp [causes, mem_settling]

theorem mem_causes_command : .command b pe ∈ S.causes c ↔
    match b with
    | .partition => c = .contribution .distributed pe ∨ (∃ t, c = .peer .add pe t) ∨
        ∃ t, c = .peer .ack pe t
    | .flatten => c = .contribution .flattened pe ∨ c = .contribution .nodes pe
    | .reorder => c = .contribution .cost pe ∨ c = .lower pe ∨ (∃ t, c = .peer .request pe t) ∨
        ∃ t, c = .peer .reply pe t
    | .deviation => c = .contribution .deviation pe := by
  cases c with
  | contribution k p => cases k <;> cases b <;> simp [causes, mem_settling, eq_comm]
  | command b' p => cases b <;> simp [causes, mem_gathering]
  | peer x s t => cases x <;> cases b <;> simp [causes, eq_comm]
  | lower s => cases b <;> simp [causes, mem_settling, eq_comm]

theorem mem_causes_peer {x : Exchange} : .peer x s t ∈ S.causes c ↔
    match x with
    | .add => c = .peer .ack t s
    | .ack => c = .contribution .distributed t ∧ s ∈ (S.exports t).keys
    | .request => c = .peer .reply t s
    | .reply => (c = .contribution .cost t ∨ c = .lower t) ∧ s ∈ (S.asked t).keys := by
  cases c with
  | contribution k p =>
    cases k <;> cases x <;> simp [causes, mem_settling]
    all_goals
      constructor
      · rintro ⟨h, rfl⟩
        exact ⟨rfl, h⟩
      · rintro ⟨rfl, h⟩
        exact ⟨h, rfl⟩
  | command b' p => cases x <;> simp [causes, mem_gathering]
  | peer y p q => cases y <;> cases x <;> simp [causes, and_comm, eq_comm]
  | lower p =>
    cases x <;> simp [causes, mem_settling]
    constructor
    · rintro ⟨h, rfl⟩
      exact ⟨rfl, h⟩
    · rintro ⟨rfl, h⟩
      exact ⟨h, rfl⟩

theorem mem_causes_lower : .lower s ∈ S.causes c ↔
    c = .contribution .cost (s + 1) ∨ c = .lower (s + 1) := by
  cases c with
  | contribution k p => cases k <;> simp [causes, mem_settling, eq_comm]
  | command b p => simp [causes, mem_gathering]
  | peer x s t => cases x <;> simp [causes]
  | lower s => simp [causes, mem_settling, eq_comm]

theorem mem_concat_of_ne (h : c ∈ H ++ [m]) (hne : c ≠ m) : c ∈ H :=
  (List.mem_append.1 h).resolve_right fun hm => hne (List.mem_singleton.1 hm)

/-- What a rank sends when it settles its bounds. -/
def settlement (S : Scenario) (pe : Nat) : List Letter :=
  (if pe + 1 = S.pes then [] else [.lower pe]) ++ [.contribution .cost pe]

theorem mem_settlement :
    c ∈ S.settlement pe ↔ (c = .lower pe ∧ pe + 1 ≠ S.pes) ∨ c = .contribution .cost pe := by
  unfold settlement
  split <;> simp_all

theorem nodup_settlement (pe : Nat) : (S.settlement pe).Nodup := by
  unfold settlement
  split <;> simp

/-- The letters that are sent upon the arrival of `m`. -/
structure Releases (S : Scenario) (H : List Letter) (m : Letter) (out : List Letter) : Prop where
  nodup : out.Nodup
  mem_iff : ∀ c, c ∈ out ↔ S.Sent (H ++ [m]) c ∧ m ∈ S.causes c

/-- What is sent as soon as the bounds of a rank are settled. -/
theorem mem_settlement_iff (hp : pe < S.pes) :
    c ∈ (if S.Settled pe (.of H pe) then S.settlement pe else []) ↔
      S.Sent H c ∧ (c = .contribution .cost pe ∨ c = .lower pe) := by
  constructor
  · intro h
    split at h
    · next hs =>
      rw [settled_iff] at hs
      rcases mem_settlement.1 h with ⟨rfl, hne⟩ | rfl
      · exact ⟨⟨by simp only [Occurs]; omega, hs⟩, .inr rfl⟩
      · exact ⟨⟨hp, hs⟩, .inl rfl⟩
    · cases h
  · rintro ⟨hs, rfl | rfl⟩
    · rw [if_pos (settled_iff.2 hs.2)]
      exact mem_settlement.2 (.inr rfl)
    · rw [if_pos (settled_iff.2 hs.2)]
      exact mem_settlement.2 (.inl ⟨rfl, Nat.ne_of_lt hs.1⟩)

namespace History

theorem releases_partition (h : S.History H) (hp : pe < S.pes) (hn : .command .partition pe ∉ H) :
    S.Releases H (.command .partition pe)
      ((S.exports pe).keys.map (.peer .add pe) ++ ((View.of H pe).adds.map (.peer .ack pe) ++
        if (S.exports pe).size = 0 then [.contribution .distributed pe] else [])) where
  nodup := by
    have hadds : (View.of H pe).adds.Nodup := (List.nodup_cons.1 h.nodup_adds).2
    refine List.nodup_append.2 ⟨?_, List.nodup_append.2 ⟨?_, ?_, ?_⟩, ?_⟩
    · exact (IdMap.nodup_keys _).map fun _ _ he => by simpa using he
    · exact hadds.map fun _ _ he => by simpa using he
    · split <;> simp
    · split <;> simp
    · rintro c hc _ hc' rfl
      obtain ⟨t, -, rfl⟩ := List.mem_map.1 hc
      split at hc' <;> simp at hc'
  mem_iff := by
    intro c
    rw [mem_causes_command]
    simp only [List.mem_append, List.mem_map]
    constructor
    · intro hcases
      rcases hcases with ⟨t, ht, rfl⟩ | ⟨s, hs, rfl⟩ | hc
      · exact ⟨⟨⟨hp, ht⟩, by simp [causes]⟩, .inr (.inl ⟨t, rfl⟩)⟩
      · have hadd := Letter.mem_senders.1 hs
        exact ⟨⟨(h.sent _ hadd).1, by simp [causes, hadd]⟩, .inr (.inr ⟨s, rfl⟩)⟩
      · split at hc
        · next he =>
          have hkeys : (S.exports pe).keys = [] :=
            List.length_eq_zero_iff.1 (by rwa [IdMap.length_keys])
          rw [List.mem_singleton.1 hc]
          exact ⟨⟨hp, by simp [causes, hkeys]⟩, .inl rfl⟩
        · cases hc
    · rintro ⟨hs, rfl | ⟨t, rfl⟩ | ⟨t, rfl⟩⟩
      · have hkeys : (S.exports pe).keys = [] := by
          refine List.eq_nil_iff_forall_not_mem.2 fun q hq => hn ?_
          have hack := hs.2 _ (List.mem_cons_of_mem _ (List.mem_map_of_mem hq))
          exact h.partition_of_ack (mem_concat_of_ne hack (by simp))
        have he : (S.exports pe).size = 0 := by rw [← IdMap.length_keys, hkeys]; rfl
        rw [if_pos he]
        exact .inr (.inr (List.mem_singleton.2 rfl))
      · exact .inl ⟨t, hs.1.2, rfl⟩
      · have hadd := mem_concat_of_ne (hs.2 _ List.mem_cons_self) (by simp)
        exact .inr (.inl ⟨t, Letter.mem_senders.2 hadd, rfl⟩)

theorem releases_flatten (hp : pe < S.pes) : S.Releases H (.command .flatten pe)
    [.contribution .flattened pe, .contribution .nodes pe] where
  nodup := by simp
  mem_iff := by
    intro c
    rw [mem_causes_command]
    constructor
    · intro hc
      rcases List.mem_pair.1 hc with rfl | rfl
      · exact ⟨⟨hp, by simp [causes]⟩, .inl rfl⟩
      · exact ⟨⟨hp, by simp [causes]⟩, .inr rfl⟩
    · rintro ⟨-, rfl | rfl⟩ <;> simp

theorem releases_reorder (h : S.History H) (hp : pe < S.pes) :
    S.Releases H (.command .reorder pe)
      ((S.asked pe).keys.map (.peer .request pe) ++
        (View.of H pe).requests.map (.peer .reply pe) ++
        if S.Settled pe (.of (H ++ [.command .reorder pe]) pe) then S.settlement pe else []) where
  nodup := by
    have hrequests : (View.of H pe).requests.Nodup := Letter.nodup_senders h.nodup
    refine List.nodup_append.2 ⟨List.nodup_append.2 ⟨?_, ?_, ?_⟩, ?_, ?_⟩
    · exact (IdMap.nodup_keys _).map fun _ _ he => by simpa using he
    · exact hrequests.map fun _ _ he => by simpa using he
    · simp
    · split
      · exact nodup_settlement pe
      · exact List.nodup_nil
    · rintro c hc _ hc' rfl
      split at hc'
      · rcases mem_settlement.1 hc' with ⟨rfl, -⟩ | rfl <;> simp at hc
      · cases hc'
  mem_iff := by
    intro c
    rw [mem_causes_command]
    simp only [List.mem_append, List.mem_map, mem_settlement_iff hp]
    constructor
    · intro hcases
      rcases hcases with (⟨t, ht, rfl⟩ | ⟨s, hs, rfl⟩) | ⟨hs, hc⟩
      · exact ⟨⟨⟨hp, ht⟩, by simp [causes]⟩, .inr (.inr (.inl ⟨t, rfl⟩))⟩
      · have hreq := Letter.mem_senders.1 hs
        exact ⟨⟨(h.sent _ hreq).1, by simp [causes, hreq]⟩, .inr (.inr (.inr ⟨s, rfl⟩))⟩
      · exact ⟨hs, hc.elim .inl fun hl => .inr (.inl hl)⟩
    · rintro ⟨hs, hc | hc | ⟨t, rfl⟩ | ⟨t, rfl⟩⟩
      · exact .inr ⟨hs, .inl hc⟩
      · exact .inr ⟨hs, .inr hc⟩
      · exact .inl (.inl ⟨t, hs.1.2, rfl⟩)
      · have hreq := mem_concat_of_ne (hs.2 _ List.mem_cons_self) (by simp)
        exact .inl (.inr ⟨t, Letter.mem_senders.2 hreq, rfl⟩)

theorem releases_deviation (hp : pe < S.pes) :
    S.Releases H (.command .deviation pe) [.contribution .deviation pe] where
  nodup := List.nodup_singleton _
  mem_iff := by
    intro c
    rw [mem_causes_command, List.mem_singleton]
    constructor
    · rintro rfl
      exact ⟨⟨hp, by simp [causes]⟩, rfl⟩
    · exact fun hc => hc.2

theorem releases_add (hs : S.Sent H (.peer .add s t)) : S.Releases H (.peer .add s t)
    (if .command .partition t ∈ H then [.peer .ack t s] else []) where
  nodup := by split <;> simp
  mem_iff := by
    intro c
    rw [mem_causes_peer]
    constructor
    · intro hc
      split at hc
      · next hp =>
        rw [List.mem_singleton.1 hc]
        exact ⟨⟨hs.1, by simp [causes, hp]⟩, rfl⟩
      · cases hc
    · rintro ⟨hsent, rfl⟩
      have hp : .command .partition t ∈ H :=
        mem_concat_of_ne (hsent.2 _ (List.mem_cons_of_mem _ List.mem_cons_self)) (by simp)
      rw [if_pos hp]
      exact List.mem_singleton.2 rfl

theorem releases_ack (h : S.History (H ++ [.peer .ack s t])) : S.Releases H (.peer .ack s t)
    (if (View.of H t).acks.length + 1 = (S.exports t).size then [.contribution .distributed t]
      else []) where
  nodup := by split <;> simp
  mem_iff := by
    intro c
    have hm : .peer .ack s t ∈ H ++ [.peer .ack s t] := by simp
    obtain ⟨ht, hk⟩ := (h.sent _ hm).1
    have hall := @History.length_acks S t _ h
    rw [View.of_concat_peer] at hall
    simp only [List.length_append, List.length_singleton] at hall
    rw [mem_causes_peer]
    constructor
    · intro hc
      split at hc
      · next hacks =>
        rw [List.mem_singleton.1 hc]
        refine ⟨⟨ht, fun c hc => ?_⟩, rfl, hk⟩
        rcases List.mem_cons.1 hc with rfl | hc
        · exact h.partition_of_ack hm
        · obtain ⟨q, hq, rfl⟩ := List.mem_map.1 hc
          exact hall.1 hacks q hq
      · cases hc
    · rintro ⟨hsent, rfl, -⟩
      rw [if_pos]
      · exact List.mem_singleton.2 rfl
      · exact hall.2 fun q hq => hsent.2 _ (List.mem_cons_of_mem _ (List.mem_map_of_mem hq))

theorem releases_request (hs : S.Sent H (.peer .request s t)) : S.Releases H (.peer .request s t)
    (if .command .reorder t ∈ H then [.peer .reply t s] else []) where
  nodup := by split <;> simp
  mem_iff := by
    intro c
    rw [mem_causes_peer]
    constructor
    · intro hc
      split at hc
      · next hp =>
        rw [List.mem_singleton.1 hc]
        exact ⟨⟨hs.1, by simp [causes, hp]⟩, rfl⟩
      · cases hc
    · rintro ⟨hsent, rfl⟩
      have hp : .command .reorder t ∈ H :=
        mem_concat_of_ne (hsent.2 _ (List.mem_cons_of_mem _ List.mem_cons_self)) (by simp)
      rw [if_pos hp]
      exact List.mem_singleton.2 rfl

theorem releases_reply (hs : S.Sent H (.peer .reply s t)) : S.Releases H (.peer .reply s t)
    (if S.Settled t (.of (H ++ [.peer .reply s t]) t) then S.settlement t else []) where
  nodup := by
    split
    · exact nodup_settlement t
    · exact List.nodup_nil
  mem_iff := by
    intro c
    obtain ⟨ht, hk⟩ := hs.1
    rw [mem_causes_peer, mem_settlement_iff ht]
    simp [hk]

theorem releases_lower (hs : S.Sent H (.lower s)) : S.Releases H (.lower s)
    (if S.Settled (s + 1) (.of (H ++ [.lower s]) (s + 1)) then S.settlement (s + 1) else []) where
  nodup := by
    split
    · exact nodup_settlement _
    · exact List.nodup_nil
  mem_iff := by
    intro c
    rw [mem_causes_lower, mem_settlement_iff hs.1]

end History

end Scenario
end MeshDecomp
