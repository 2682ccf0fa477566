import MeshDecomp.Proofs.Effects

/-! What a rank makes of the next letter, after any history: its state stays the one that follows
from the letters, and it sends what the letter sets free. -/
namespace MeshDecomp
namespace Scenario

variable {S : Scenario} {pe s t : Nat} {m : Letter} {H : List Letter} {as : List Action}
  {out : List Letter}

/-- The call that the arrival of a letter is for a processing element. -/
def call (S : Scenario) : Letter → Worker → Worker.Result (List Action)
  | .contribution _ _, w => .ok w []
  | .command b pe, w => w.handle (.command (S.command pe b))
  | .peer x s t, w => w.handle (.peer s (S.message s t x))
  | .lower s, w => w.handle (.peer s (.lower (S.upper s)))

/-- A collector with what a rank hands out. -/
def handOut (S : Scenario) (c : Collector) (pe : Nat) : Collector :=
  (S.outcome pe).foldl Action.collect c

/-- A rank answers a letter with some actions, as the history asks of it. -/
structure Answers (S : Scenario) (H : List Letter) (m : Letter) (pe : Nat) (as : List Action) :
    Prop where
  state : S.call m (S.worker pe (.of H pe)) = .ok (S.worker pe (.of (H ++ [m]) pe)) as
  out : ∃ out, as.filterMap (Action.parcel? pe) = out.map S.parcel ∧ S.Releases H m out
  collect : ∀ c, as.foldl Action.collect c =
    if S.Settled pe (.of (H ++ [m]) pe) ∧ ¬ S.Settled pe (.of H pe) then S.handOut c pe else c

/-- Actions that send the letters of a list, and do nothing else. -/
def Sends (S : Scenario) (pe : Nat) (as : List Action) (out : List Letter) : Prop :=
  as.map (Action.parcel? pe) = out.map fun c => some (S.parcel c)

theorem Sends.parcels (h : S.Sends pe as out) :
    as.filterMap (Action.parcel? pe) = out.map S.parcel := by
  have hid := congrArg (List.filterMap id) h
  rw [List.filterMap_map, List.filterMap_map] at hid
  rw [← List.filterMap_eq_map]
  exact hid

theorem Sends.collect (h : S.Sends pe as out) (c : Collector) : as.foldl Action.collect c = c := by
  induction as generalizing out with
  | nil => rfl
  | cons a as ih =>
    cases out with
    | nil => cases h
    | cons m out =>
      obtain ⟨ha, has⟩ := List.cons_eq_cons.1 h
      rw [List.foldl_cons]
      cases a with
      | send receiver message => exact ih has
      | contribute c => exact ih has
      | instantiate u => cases ha
      | bounds pe s => cases ha

theorem Sends.append {as' : List Action} {out' : List Letter} (h : S.Sends pe as out)
    (h' : S.Sends pe as' out') : S.Sends pe (as ++ as') (out ++ out') := by
  unfold Sends at h h' ⊢
  rw [List.map_append, List.map_append, h, h']

theorem sends_peers (x : Exchange) (l : List Nat) :
    S.Sends pe (l.map fun q => .send q (S.message pe q x)) (l.map (.peer x pe)) := by
  unfold Sends
  rw [List.map_map, List.map_map]
  rfl

theorem sends_nil : S.Sends pe [] [] := rfl

theorem sends_contribution (k : Contribution.Kind) :
    S.Sends pe [.contribute (S.contribution pe k)] [.contribution k pe] := rfl

theorem parcels_outcome :
    (S.outcome pe).filterMap (Action.parcel? pe) = (S.settlement pe).map S.parcel := by
  have hunits : ((S.unitsOf pe).map Action.instantiate).filterMap (Action.parcel? pe) = [] := by
    simp [Action.parcel?]
  unfold outcome settlement
  rw [List.filterMap_append, List.filterMap_append, List.filterMap_append, hunits]
  split <;> rfl

theorem parcels_settling {p : Prop} [Decidable p] :
    (if p then S.outcome pe else []).filterMap (Action.parcel? pe) =
      (if p then S.settlement pe else []).map S.parcel := by
  split
  · exact parcels_outcome
  · rfl

/-- A rank that sends, and does not settle its bounds. -/
theorem answers_of_sends
    (hstate : S.call m (S.worker pe (.of H pe)) = .ok (S.worker pe (.of (H ++ [m]) pe)) as)
    (hsends : S.Sends pe as out) (hrel : S.Releases H m out)
    (hset : S.Settled pe (.of (H ++ [m]) pe) → S.Settled pe (.of H pe)) :
    ∃ as, S.Answers H m pe as := by
  refine ⟨as, hstate, ⟨out, hsends.parcels, hrel⟩, fun c => ?_⟩
  rw [if_neg fun h => h.2 (hset h.1)]
  exact hsends.collect c

/-- A rank that sends, and then goes on to its bounds if it can. -/
theorem answers_of_settling
    (hstate : S.call m (S.worker pe (.of H pe)) = .ok (S.worker pe (.of (H ++ [m]) pe))
      (as ++ if S.Settled pe (.of (H ++ [m]) pe) then S.outcome pe else []))
    (hsends : S.Sends pe as out)
    (hrel : S.Releases H m
      (out ++ if S.Settled pe (.of (H ++ [m]) pe) then S.settlement pe else []))
    (hset : ¬ S.Settled pe (.of H pe)) :
    ∃ as, S.Answers H m pe as := by
  refine ⟨_, hstate, ⟨_, ?_, hrel⟩, fun c => ?_⟩
  · rw [List.filterMap_append, List.map_append, parcels_settling, hsends.parcels]
  · rw [List.foldl_append, hsends.collect c]
    by_cases h : S.Settled pe (.of (H ++ [m]) pe)
    · rw [if_pos h, if_pos ⟨h, hset⟩]
      rfl
    · rw [if_neg h, if_neg fun hs => h hs.1]
      rfl

namespace History

theorem answers_partition (h : S.History H) (hs : S.Sent H (.command .partition pe))
    (hn : .command .partition pe ∉ H) (hr : S.InRange pe) :
    ∃ as, S.Answers H (.command .partition pe) pe as := by
  have hp : pe < S.pes := hs.1
  have hall : ∀ s ∈ pe :: (View.of H pe).adds, S.InRange s := by
    intro s hmem
    rcases List.mem_cons.1 hmem with rfl | hmem
    · exact hr
    · exact h.inRange s ((h.sent _ (Letter.mem_senders.1 hmem)).2 _ List.mem_cons_self)
  have hview := h.of_eq_of_not_partition hn hp
  have hnext : View.of (H ++ [.command .partition pe]) pe =
      { partitioned := true, adds := (View.of H pe).adds } := by
    rw [View.of_concat_command]
    dsimp only
    rw [hview]
  have hstate := handle_partition (h.answered hs.2) hp hall h.nodup_adds
  rw [← hview, ← hnext] at hstate
  refine answers_of_sends hstate ?_ (h.releases_partition hp hn) fun hset => ?_
  · refine (sends_peers .add _).append ((sends_peers .ack _).append ?_)
    split <;> rfl
  · rw [hnext] at hset
    exact absurd hset (not_settled (not_complete rfl))

/-- A rank between its partitioning and its look at its work units. -/
theorem of_eq_of_partition (h : S.History H) (hpart : .command .partition pe ∈ H)
    (hn : .command .flatten pe ∉ H) :
    View.of H pe =
      { partitioned := true, adds := (View.of H pe).adds, acks := (View.of H pe).acks } := by
  have hpartitioned : (View.of H pe).partitioned = true := decide_eq_true hpart
  exact hpartitioned ▸ h.of_eq_of_not_flatten hn (h.lt hpart)

theorem answers_flatten (h : S.History H) (hs : S.Sent H (.command .flatten pe))
    (hn : .command .flatten pe ∉ H) (hv : S.vacant? pe = none) :
    ∃ as, S.Answers H (.command .flatten pe) pe as := by
  have hp : pe < S.pes := hs.1
  have hd : .contribution .distributed pe ∈ H := gathered_iff.1 hs.2 _ (by decide) pe hp
  have hpart : .command .partition pe ∈ H := (h.sent _ hd).2 _ List.mem_cons_self
  have hview := h.of_eq_of_partition hpart hn
  have hnext : View.of (H ++ [.command .flatten pe]) pe =
      { partitioned := true, adds := (View.of H pe).adds, acks := (View.of H pe).acks,
        flattened := true } := by
    rw [View.of_concat_command]
    dsimp only
    rw [hview]
  have hstate := handle_flatten (h.answered (h.gathered hpart)) hp (h.supplied hs.2 hp)
    (h.acked hs.2 hp) hv
  rw [← hview, ← hnext] at hstate
  refine answers_of_sends hstate ?_ (releases_flatten hp) fun hset => ?_
  · exact (sends_contribution .flattened).append (sends_contribution .nodes)
  · rw [hnext] at hset
    exact absurd hset (not_settled (not_complete rfl))

/-- A rank that misses the elements of a work unit fails, and changes nothing but its phase. -/
theorem call_flatten {unit : Nat} (h : S.History H) (hs : S.Sent H (.command .flatten pe))
    (hn : .command .flatten pe ∉ H) (hv : S.vacant? pe = some unit) :
    S.call (.command .flatten pe) (S.worker pe (.of H pe)) =
      .fail { S.worker pe (.of H pe) with phase := .flattening }
        (.overdecomposition pe unit S.units S.pes) := by
  have hp : pe < S.pes := hs.1
  have hd : .contribution .distributed pe ∈ H := gathered_iff.1 hs.2 _ (by decide) pe hp
  have hpart : .command .partition pe ∈ H := (h.sent _ hd).2 _ List.mem_cons_self
  have hstate := handle_flatten_error (h.answered (h.gathered hpart)) hp (h.supplied hs.2 hp)
    (h.acked hs.2 hp) hv
  rw [← h.of_eq_of_partition hpart hn] at hstate
  exact hstate

theorem answers_reorder (h : S.History H) (hs : S.Sent H (.command .reorder pe))
    (hn : .command .reorder pe ∉ H) : ∃ as, S.Answers H (.command .reorder pe) pe as := by
  have hp : pe < S.pes := hs.1
  have hf : .contribution .flattened pe ∈ H := gathered_iff.1 hs.2 _ (by decide) pe hp
  have hnum := h.numbers ((h.sent _ hf).2 _ List.mem_cons_self)
  have hr : (View.of H pe).reordered = false := decide_eq_false hn
  have hset : ¬ S.Settled pe (.of H pe) := not_settled (not_complete hr)
  have hstate := handle_reorder hnum hr (h.replies_eq_nil hn) (h.not_closed hset)
    fun s hmem => (h.sent _ (Letter.mem_senders.1 hmem)).1.1
  have hnext : View.of (H ++ [.command .reorder pe]) pe =
      { View.of H pe with reordered := true } := View.of_concat_command _
  rw [← hnext] at hstate
  exact answers_of_settling hstate ((sends_peers .request _).append (sends_peers .reply _))
    (h.releases_reorder hp) hset

theorem answers_deviation (h : S.History H) (hs : S.Sent H (.command .deviation pe))
    (hn : .command .deviation pe ∉ H) : ∃ as, S.Answers H (.command .deviation pe) pe as := by
  have hp : pe < S.pes := hs.1
  have hc : .contribution .cost pe ∈ H := gathered_iff.1 hs.2 _ (by decide) pe hp
  have hset : S.Settled pe (.of H pe) := settled_iff.2 (h.sent _ hc).2
  have hstate := handle_deviation hset (decide_eq_false hn)
  have hnext : View.of (H ++ [.command .deviation pe]) pe =
      { View.of H pe with closed := true } := View.of_concat_command _
  rw [← hnext] at hstate
  exact answers_of_sends hstate (sends_contribution .deviation) (releases_deviation hp)
    fun _ => hset

theorem answers_add (h : S.History H) (hs : S.Sent H (.peer .add s t))
    (hn : .peer .add s t ∉ H) : ∃ as, S.Answers H (.peer .add s t) t as := by
  obtain ⟨hsp, hk⟩ := hs.1
  have htp : t < S.pes := lt_of_mem_keys_exports (Nat.zero_lt_of_lt hsp) hk
  have hne : s ≠ t := (mem_keys_exports.1 hk).1.symm
  have hnext := @View.of_concat_peer H t s .add
  dsimp only at hnext
  by_cases hpart : .command .partition t ∈ H
  · have hf : .command .flatten t ∉ H := by
      intro hf
      have hd : .contribution .distributed s ∈ H := h.contributed hf (by decide) hsp
      have hack : .peer .ack t s ∈ H :=
        (h.sent _ hd).2 _ (List.mem_cons_of_mem _ (List.mem_map_of_mem hk))
      exact hn ((h.sent _ hack).2 _ List.mem_cons_self)
    have hview := h.of_eq_of_partition hpart hf
    have hnew : s ∉ t :: (View.of H t).adds := by
      intro hmem
      rcases List.mem_cons.1 hmem with he | hmem
      · exact hne he
      · exact hn (Letter.mem_senders.1 hmem)
    have hstate := handle_add (h.inRange s (hs.2 _ List.mem_cons_self)) hsp hnew h.length_acks_le
    rw [hview] at hnext
    dsimp only at hnext
    rw [← hview, ← hnext] at hstate
    have hrel := releases_add hs
    rw [if_pos hpart] at hrel
    refine answers_of_sends hstate (sends_peers .ack [s]) hrel fun hset => ?_
    rw [hnext] at hset
    exact absurd hset (not_settled (not_complete rfl))
  · have hview := h.of_eq_of_not_partition hpart htp
    have hstate := handle_add_parked (A := (View.of H t).adds) hsp hne
    rw [hview] at hnext
    dsimp only at hnext
    rw [← hview, ← hnext] at hstate
    have hrel := releases_add hs
    rw [if_neg hpart] at hrel
    refine answers_of_sends hstate sends_nil hrel fun hset => ?_
    rw [hnext] at hset
    exact absurd hset (not_settled (not_complete rfl))

theorem answers_ack (h : S.History H) (hs : S.Sent H (.peer .ack s t))
    (hn : .peer .ack s t ∉ H) : ∃ as, S.Answers H (.peer .ack s t) t as := by
  obtain ⟨htp, hk⟩ := hs.1
  have hsp : s < S.pes := lt_of_mem_keys_exports (Nat.zero_lt_of_lt htp) hk
  have hadd : .peer .add t s ∈ H := hs.2 _ List.mem_cons_self
  have hpart : .command .partition t ∈ H := (h.sent _ hadd).2 _ List.mem_cons_self
  have hf : .command .flatten t ∉ H := by
    intro hf
    have hd : .contribution .distributed t ∈ H := h.contributed hf (by decide) htp
    exact hn ((h.sent _ hd).2 _ (List.mem_cons_of_mem _ (List.mem_map_of_mem hk)))
  have hview := h.of_eq_of_partition hpart hf
  have hlt : (View.of H t).acks.length < (S.exports t).size :=
    Nat.lt_of_le_of_ne h.length_acks_le fun he => hn (h.length_acks.1 he s hk)
  have hnext := @View.of_concat_peer H t s .ack
  have hstate := handle_ack (A := (View.of H t).adds) hsp (mem_keys_exports.1 hk).1 hlt
  rw [hview] at hnext
  dsimp only at hnext
  rw [← hview, ← hnext] at hstate
  refine answers_of_sends hstate ?_ (releases_ack (h.concat hs hn fun e => nofun)) fun hset => ?_
  · split <;> rfl
  · rw [hnext] at hset
    exact absurd hset (not_settled (not_complete rfl))

theorem answers_request (h : S.History H) (hs : S.Sent H (.peer .request s t)) :
    ∃ as, S.Answers H (.peer .request s t) t as := by
  obtain ⟨hsp, hk⟩ := hs.1
  have hlt : t < s := lt_of_mem_keys_asked hsp hk
  have hf : .command .flatten t ∈ H :=
    h.flatten_of_reorder (hs.2 _ List.mem_cons_self) (hlt.trans hsp)
  have hnext := @View.of_concat_peer H t s .request
  have hstate := handle_request (h.numbers hf) hsp (Nat.ne_of_gt hlt)
  dsimp only at hnext
  rw [← hnext] at hstate
  refine answers_of_sends hstate ?_ (releases_request hs) fun hset => ?_
  · by_cases hr : .command .reorder t ∈ H
    · have hr' : (View.of H t).reordered = true := decide_eq_true hr
      rw [if_pos hr, if_pos hr']
      exact sends_peers .reply [s]
    · have hr' : ¬ (View.of H t).reordered = true := fun he => hr (of_decide_eq_true he)
      rw [if_neg hr, if_neg hr']
      rfl
  · rw [hnext] at hset
    exact hset

theorem answers_reply (h : S.History H) (hs : S.Sent H (.peer .reply s t))
    (hn : .peer .reply s t ∉ H) : ∃ as, S.Answers H (.peer .reply s t) t as := by
  obtain ⟨htp, hk⟩ := hs.1
  have hreq : .peer .request t s ∈ H := hs.2 _ List.mem_cons_self
  have hr : .command .reorder t ∈ H := (h.sent _ hreq).2 _ List.mem_cons_self
  have hnew : s ∉ (View.of H t).replies := fun hmem => hn (Letter.mem_senders.1 hmem)
  have hset : ¬ S.Settled t (.of H t) := fun hset => hnew (hset.1.2 s hk)
  have hnext := @View.of_concat_peer H t s .reply
  have hstate := handle_reply (h.numbers (h.flatten_of_reorder hr htp)) (decide_eq_true hr)
    (h.not_closed hset) hk hnew
  dsimp only at hnext
  rw [← hnext] at hstate
  apply answers_of_settling _ sends_nil (releases_reply hs) hset
  exact hstate

theorem answers_lower (h : S.History H) (hs : S.Sent H (.lower s)) (hn : .lower s ∉ H) :
    ∃ as, S.Answers H (.lower s) (s + 1) as := by
  have hr : .command .reorder s ∈ H := hs.2 _ (mem_settling.2 (.inl rfl))
  have hl : (View.of H (s + 1)).lowered = false := decide_eq_false hn
  have hset : ¬ S.Settled (s + 1) (.of H (s + 1)) := by
    rintro ⟨-, hz | hl'⟩
    · cases hz
    · rw [hl] at hl'
      cases hl'
  have hstate := handle_lower (h.numbers (h.flatten_of_reorder hr hs.1)) hl (h.not_closed hset) rfl
  rw [← View.of_concat_lower] at hstate
  apply answers_of_settling _ sends_nil (releases_lower hs) hset
  exact hstate

/-- A rank fails with the error of the letter, or the history goes on. -/
theorem answers (h : S.History H) (hs : S.Sent H m) (hn : m ∉ H) (hr : m.receiver? = some pe) :
    (∃ e, S.Fails H m (.error e) ∧ (S.call m (S.worker pe (.of H pe))).result = .error e) ∨
      (∀ e, ¬ S.Fails H m e) ∧ ∃ as, S.Answers H m pe as := by
  cases m with
  | contribution k p => cases hr
  | command b p =>
    obtain rfl : p = pe := Option.some.inj hr
    have hp : p < S.pes := hs.1
    cases b with
    | partition =>
      cases hin : S.stray? p with
      | none =>
        refine .inr ⟨fun e hf => ?_, h.answers_partition hs hn (inRange_iff.2 hin)⟩
        cases hf with
        | unit hu => cases hin.symm.trans hu
      | some unit =>
        have hu := handle_partition_error (A := (View.of H p).adds) (h.answered hs.2) hp hin
        rw [← h.of_eq_of_not_partition hn hp] at hu
        exact .inl ⟨_, .unit hin, hu⟩
    | flatten =>
      cases hv : S.vacant? p with
      | none =>
        refine .inr ⟨fun e hf => ?_, h.answers_flatten hs hn hv⟩
        cases hf with
        | vacant hu => cases hv.symm.trans hu
      | some unit =>
        have hu := congrArg Outcome.result (h.call_flatten hs hn hv)
        exact .inl ⟨_, .vacant hv, hu⟩
    | reorder => exact .inr ⟨nofun, h.answers_reorder hs hn⟩
    | deviation => exact .inr ⟨nofun, h.answers_deviation hs hn⟩
  | peer x s t =>
    obtain rfl : t = pe := Option.some.inj hr
    refine .inr ⟨nofun, ?_⟩
    cases x with
    | add => exact h.answers_add hs hn
    | ack => exact h.answers_ack hs hn
    | request => exact h.answers_request hs
    | reply => exact h.answers_reply hs hn
  | lower s =>
    obtain rfl : s + 1 = pe := Option.some.inj hr
    exact .inr ⟨nofun, h.answers_lower hs hn⟩

end History
end Scenario
end MeshDecomp
