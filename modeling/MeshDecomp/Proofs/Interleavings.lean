import Mathlib.Algebra.Order.BigOperators.Group.Finset
import MeshDecomp.Proofs.Ledgers

/-!
Every interleaving of ranks. All ranks and mailboxes follow from a sound ledger, and a turn of any
rank leads to another sound ledger.
-/

namespace MeshDecomp

open Finset in
/-- How far all ranks have come. -/
def Ledger.advanced (L : Ledger) (size : Nat) : Nat :=
  L.arrived.length + ∑ pe ∈ range size, (L.stage pe).place

theorem Ledger.advanced_lt_next {L : Ledger} {pe size : Nat} {H own : List Letter}
    {box : List Note} {sent : Nat → List Note} {s : Stage} (hpe : pe < size)
    (h : L.arrived.length < H.length ∧ (L.stage pe).place ≤ s.place ∨
      L.arrived.length ≤ H.length ∧ (L.stage pe).place < s.place) :
    L.advanced size < (L.next pe H own box sent s).advanced size := by
  have hle : ∀ q ∈ Finset.range size,
      (L.stage q).place ≤ ((L.next pe H own box sent s).stage q).place := by
    intro q _
    by_cases hq : q = pe
    · subst hq
      rw [stage_next_self]
      omega
    · rw [stage_next_of_ne hq]
  have harrived : (L.next pe H own box sent s).arrived = H := rfl
  unfold advanced
  rw [harrived]
  rcases h with ⟨hH, -⟩ | ⟨hH, hs⟩
  · exact Nat.add_lt_add_of_lt_of_le hH (Finset.sum_le_sum hle)
  · refine Nat.add_lt_add_of_le_of_lt hH (Finset.sum_lt_sum hle ⟨pe, Finset.mem_range.2 hpe, ?_⟩)
    rw [stage_next_self]
    exact hs

namespace Plan

section

variable {job : Job} {S : Scenario} (P : Plan job S)

/-- What waits in a mailbox, written out. -/
def note : Note → Nat × Bytes
  | .letter m => (P.parcel m).mail
  | .abort pe e => (pe, Wire.encode pe (.abort e.isUser e.message))

def boxes (L : Ledger) (q : Nat) : List (Nat × Bytes) := (L.box q).map P.note

def progress (L : Ledger) (pe : Nat) : Progress :=
  match L.stage pe with
  | .fresh => .fresh
  | .live => .live (P.rank L.arrived (L.own pe) pe)
  | .returned r => .returned r

/-- All ranks and mailboxes between two turns. -/
def universeOf (L : Ledger) : Universe where
  ranks := (List.range S.pes).map (P.progress L)
  mail := .of S.pes (P.boxes L)

/-- A turn of a rank, with what it leaves behind, leads to a sound ledger. -/
def GoesOn (L : Ledger) (pe : Nat) (x : Progress × Mailboxes) : Prop :=
  ∃ L', P.Sound L' ∧ L.advanced S.pes < L'.advanced S.pes ∧
    P.universeOf L' = ⟨(P.universeOf L).ranks.set pe x.1, x.2⟩

end

variable {job : Job} {S : Scenario} {P : Plan job S} {L : Ledger} {pe q : Nat}
  {H own out : List Letter} {box : List Note} {sent : Nat → List Note} {s : Stage} {m c : Letter}
  {e : RunError}

theorem filter_parcel (out : List Letter) (q : Nat) :
    (out.map P.parcel).filter (·.addressee = q) = (out.filter (·.addressee = q)).map P.parcel := by
  rw [List.filter_map]
  congr 2
  funext c
  exact congrArg (fun p => decide (p = q)) (addressee_parcel c)

theorem rank_posted (out : List Letter) : (P.rank H own pe).posted pe (out.map P.parcel) =
    P.rank H (own ++ out.filter (·.addressee = pe)) pe := by
  unfold Rank.posted
  rw [filter_parcel]
  simp only [rank, List.map_append, List.map_map]
  rfl

theorem boxes_next (q : Nat) : P.boxes (L.next pe H own box sent s) q =
    if q = pe then box.map P.note else P.boxes L q ++ (sent q).map P.note := by
  simp only [boxes, Ledger.next]
  split
  · rfl
  · exact List.map_append

/-- What a rank posts goes into the mailboxes of the others. -/
theorem boxes_posted (q : Nat) :
    Mailboxes.posted pe (out.map P.parcel)
      (fun q => if q = pe then box.map P.note else P.boxes L q) q =
    P.boxes (L.next pe H own box (fun q => (out.filter (·.addressee = q)).map .letter) s) q := by
  rw [boxes_next, Mailboxes.posted]
  by_cases hq : q = pe
  · rw [if_pos hq, if_pos hq, if_pos hq]
  · rw [if_neg hq, if_neg hq, if_neg hq, filter_parcel, List.map_map, List.map_map]
    rfl

/-- A turn of a rank changes nothing at the others. -/
theorem progress_next_of_ne (hv : P.Holds) (hq : q ≠ pe)
    (hH : H = L.arrived ∨ ∃ m, H = L.arrived ++ [m] ∧ m.addressee = pe) :
    P.progress (L.next pe H own box sent s) q = P.progress L q := by
  have hown : (L.next pe H own box sent s).own q = L.own q := if_neg hq
  have hrank : P.rank H (L.own q) q = P.rank L.arrived (L.own q) q := by
    rcases hH with rfl | ⟨m, rfl, hm⟩
    · rfl
    · have hview : View.of (L.arrived ++ [m]) q = View.of L.arrived q :=
        View.of_concat_of_ne fun hr => hq ((addressee_of_receiver hr).symm.trans hm)
      have hhost : q = Rank.hostRank → P.host (L.arrived ++ [m]) = P.host L.arrived := by
        intro hz
        cases hr : m.receiver? with
        | some p => exact hv.host_concat _ m p hr
        | none =>
          rw [Letter.addressee, hr] at hm
          exact absurd (hz.trans hm) hq
      unfold rank
      rw [hview]
      by_cases hz : q = Rank.hostRank
      · rw [if_pos hz, if_pos hz, hhost hz]
      · rw [if_neg hz, if_neg hz]
  unfold progress
  rw [Ledger.stage_next_of_ne hq, hown]
  have harrived : (L.next pe H own box sent s).arrived = H := rfl
  rw [harrived, hrank]

theorem universeOf_next (hv : P.Holds)
    (hH : H = L.arrived ∨ ∃ m, H = L.arrived ++ [m] ∧ m.addressee = pe) {p : Progress}
    (hp : P.progress (L.next pe H own box sent s) pe = p) {b : Nat → List (Nat × Bytes)}
    (hb : ∀ q < S.pes, P.boxes (L.next pe H own box sent s) q = b q) :
    P.universeOf (L.next pe H own box sent s) =
      ⟨(P.universeOf L).ranks.set pe p, .of S.pes b⟩ := by
  have hset := set_map_range (n := S.pes) (p := pe) (f := P.progress L)
    (g := P.progress (L.next pe H own box sent s)) fun q hq =>
      (progress_next_of_ne hv hq hH).symm
  rw [hp] at hset
  unfold universeOf
  rw [Mailboxes.of_congr hb, hset]

theorem turn_universeOf (hpe : pe < S.pes) : (P.universeOf L).turn job pe =
    ((P.progress L pe).turn job (.mailbox S.pes pe) (P.universeOf L).mail).map fun x =>
      ⟨(P.universeOf L).ranks.set pe x.1, x.2⟩ := by
  have hget : (P.universeOf L).ranks[pe]? = some (P.progress L pe) := by
    simp [universeOf, hpe]
  have hlen : (P.universeOf L).ranks.length = S.pes := by
    simp [universeOf]
  unfold Universe.turn
  rw [hget, hlen]
  simp only [bind, pure, Option.bind]
  cases (P.progress L pe).turn job (.mailbox S.pes pe) (P.universeOf L).mail <;> rfl

theorem lt_of_turn {u : Universe} (h : (P.universeOf L).turn job pe = some u) : pe < S.pes := by
  by_contra hpe
  have hget : (P.universeOf L).ranks[pe]? = none := by
    rw [List.getElem?_eq_none_iff]
    simpa [universeOf] using hpe
  unfold Universe.turn at h
  rw [hget] at h
  cases h

theorem mail_universeOf (L : Ledger) (pe : Nat) : (P.universeOf L).mail = .of S.pes fun q =>
    if q = pe then (L.box pe).map P.note else P.boxes L q := by
  refine Mailboxes.of_congr fun q _ => ?_
  by_cases hq : q = pe
  · rw [if_pos hq, hq]
    rfl
  · rw [if_neg hq]

/-! ### What a rank does next -/

theorem turn_of_own (hown : L.own pe = m :: own) :
    (Progress.live (P.rank L.arrived (L.own pe) pe)).turn job (.mailbox S.pes pe)
        (P.universeOf L).mail =
      some (Progress.settle (.mailbox S.pes pe) (Rank.handle (.mailbox S.pes pe)
        (P.rank L.arrived own pe, .of S.pes fun q =>
          if q = pe then (L.box pe).map P.note else P.boxes L q)
        (P.parcel m).sender (P.parcel m).content)) := by
  rw [hown, mail_universeOf L pe]
  rfl

theorem turn_of_nil (hpe : pe < S.pes) (hown : L.own pe = []) (hbox : L.box pe = []) :
    (Progress.live (P.rank L.arrived (L.own pe) pe)).turn job (.mailbox S.pes pe)
      (P.universeOf L).mail = none := by
  have htake : (Link.mailbox S.pes pe).receive (P.universeOf L).mail = .ok none := by
    refine congrArg Except.ok (Mailboxes.take_of_nil hpe ?_)
    rw [boxes, hbox]
    rfl
  unfold Progress.turn
  rw [hown, htake]
  rfl

theorem turn_of_note {note : Note} {sender : Nat} {content : Envelope} (hpe : pe < S.pes)
    (hown : L.own pe = []) (hbox : L.box pe = note :: box)
    (hd : Wire.decode (P.note note).2 = .ok (sender, content)) :
    (Progress.live (P.rank L.arrived (L.own pe) pe)).turn job (.mailbox S.pes pe)
        (P.universeOf L).mail =
      some (Progress.settle (.mailbox S.pes pe) (Rank.handle (.mailbox S.pes pe)
        (P.rank L.arrived [] pe, .of S.pes fun q =>
          if q = pe then box.map P.note else P.boxes L q) sender content)) := by
  have htake : (Link.mailbox S.pes pe).receive (P.universeOf L).mail = .ok (some (P.note note,
      .of S.pes fun q => if q = pe then box.map P.note else P.boxes L q)) := by
    refine congrArg Except.ok (Mailboxes.take_of_cons hpe ?_)
    rw [boxes, hbox]
    rfl
  unfold Progress.turn
  rw [hown, htake]
  simp only [rank, List.map_nil, hd]

/-! ### What can be read -/

/-- After the first letters nothing is sent unless all ranks have started. -/
theorem gathered_of_sent {m : Letter} (h : S.History H) (hp : 0 < S.pes) (hs : S.Sent H m)
    (hm : ∀ pe, m ∉ Scenario.firstLetters pe) : S.Gathered .partition H := by
  by_cases hb : ∃ pe, m = .command .partition pe
  · obtain ⟨pe, rfl⟩ := hb
    exact hs.2
  · -- Every other letter has a cause which is not a first letter either.
    have hcause : ∃ c ∈ S.causes m, ∀ pe, c ∉ Scenario.firstLetters pe := by
      have hcommand : ∀ b p pe, Letter.command b p ∉ Scenario.firstLetters pe := by
        intro b p pe hc
        rcases mem_firstLetters_iff.1 hc with hc | hc | hc <;> cases hc
      cases m with
      | contribution k pe =>
        cases k with
        | load | setup | elements => exact absurd (by simp [Scenario.firstLetters]) (hm pe)
        | distributed => exact ⟨_, List.mem_cons_self, hcommand _ _⟩
        | flattened | nodes | deviation => exact ⟨_, List.mem_cons_self, hcommand _ _⟩
        | cost => exact ⟨_, Scenario.mem_settling.2 (.inl rfl), hcommand _ _⟩
      | command b pe =>
        have hkind : ∀ k ∈ b.kinds, k ∉ Barrier.partition.kinds →
            ∃ c ∈ S.causes (.command b pe), ∀ pe, c ∉ Scenario.firstLetters pe := by
          intro k hk hlater
          refine ⟨.contribution k 0, Scenario.mem_gathering.2 ⟨k, hk, 0, hp, rfl⟩, fun pe hc => ?_⟩
          rcases mem_firstLetters_iff.1 hc with hc | hc | hc <;> cases hc <;>
            exact hlater (by decide)
        cases b with
        | partition => exact absurd ⟨pe, rfl⟩ hb
        | flatten => exact hkind .distributed (by decide) (by decide)
        | reorder => exact hkind .flattened (by decide) (by decide)
        | deviation => exact hkind .cost (by decide) (by decide)
      | peer x s t =>
        cases x with
        | add => exact ⟨.command .partition s, by simp [Scenario.causes], hcommand _ _⟩
        | ack => exact ⟨.command .partition s, by simp [Scenario.causes], hcommand _ _⟩
        | request => exact ⟨.command .reorder s, by simp [Scenario.causes], hcommand _ _⟩
        | reply => exact ⟨.command .reorder s, by simp [Scenario.causes], hcommand _ _⟩
      | lower s => exact ⟨_, Scenario.mem_settling.2 (.inl rfl), hcommand _ _⟩
    obtain ⟨c, hc, hfirst⟩ := hcause
    have := Scenario.depth_lt hc
    exact gathered_of_sent h hp (h.sent c (hs.2 c hc)) hfirst
termination_by S.depth m

namespace Sound

theorem begun_of_gathered (h : P.Sound L) (hg : S.Gathered .partition L.arrived)
    (hpe : pe < S.pes) : P.Begun L pe :=
  h.begun _ (Scenario.gathered_iff.1 hg .load (by decide) pe hpe) pe List.mem_cons_self

/-- A letter on its way can be read. -/
theorem decode_letter (hv : P.Holds) (h : P.Sound L) (hm : P.Posted L m) :
    Wire.decode (P.parcel m).mail.2 = .ok ((P.parcel m).sender, (P.parcel m).content) := by
  refine Wire.decode_encode_of_inWords ((sender_parcel_lt hm.1.1).trans hv.pes_lt)
    (hv.inWords m hm.1.1 (fun pe hp => (hm.2 pe hp).2) fun hfirst pe hpe => ?_)
  exact (h.begun_of_gathered (gathered_of_sent h.history hv.pes_pos hm.1 hfirst) hpe).2

/-- Errors that ranks return by themselves are those that they can come upon. -/
theorem raises (h : P.Sound L) (hpe : pe < S.pes) (hf : L.Failed pe e) : P.Raises e := by
  obtain ⟨⟨c, hc⟩, hg⟩ := hf
  generalize hr : (Returned.mk (.error (.error e)) c : Returned) = r at hc
  cases h.returned pe r hc with
  | finished hd => cases hr
  | fault hfault =>
    cases hr
    exact .inl ⟨pe, hpe, hfault⟩
  | letter hm hs hn hfail =>
    cases hr
    exact .inr ⟨_, _, hs, hfail⟩
  | aborted hq hfail =>
    cases hr
    exact absurd rfl (hg _ _ _)

theorem decode_abort (hv : P.Holds) (h : P.Sound L) (hpe : pe < S.pes) (hf : L.Failed pe e) :
    Wire.decode (P.note (.abort pe e)).2 = .ok (pe, .abort e.isUser e.message) :=
  Wire.decode_encode_of_inWords (hpe.trans hv.pes_lt) (hv.inWords_abort e (h.raises hpe hf))

/-! ### Turns -/

/-- A rank that fails by itself tells everyone. -/
theorem goesOn_of_failure {c : Collector} (hv : P.Holds) (h : P.Sound L) (hpe : pe < S.pes)
    (ha : L.Alive pe) (hf : L.stage pe = .fresh → P.fault pe ≠ none)
    (hbox : ∀ p e, .abort p e ∈ box → .abort p e ∈ L.box pe)
    (hr : P.Returns L pe ⟨.error (.error e), c⟩) (hg : P.Raises e) :
    P.GoesOn L pe (Progress.giveUp (.mailbox S.pes pe)
      (.of S.pes fun q => if q = pe then box.map P.note else P.boxes L q) c (.error e)) := by
  have hgenuine := hv.genuine e hg
  have hplace : (L.stage pe).place < (Stage.returned ⟨.error (.error e), c⟩).place := by
    cases hs : L.stage pe with
    | fresh | live => simp [Stage.place]
    | returned r => exact absurd hs (ha r)
  refine ⟨_, h.fail hpe ha hbox hr (.inl ⟨hgenuine, rfl⟩) [] hf,
    Ledger.advanced_lt_next hpe (.inr ⟨Nat.le_refl _, hplace⟩), ?_⟩
  have hgive : ∀ net, Progress.giveUp (.mailbox S.pes pe) net c (.error e) =
      (.returned ⟨.error (.error e), c⟩, Rank.abort (.mailbox S.pes pe) net e) := by
    intro net
    unfold Progress.giveUp
    cases e <;> first | rfl | exact absurd rfl (hgenuine _ _ _)
  rw [hgive, Rank.abort_eq]
  refine universeOf_next hv (.inl rfl) ?_ fun q hq => ?_
  · unfold progress
    rw [Ledger.stage_next_self]
  · rw [boxes_next]
    by_cases hqp : q = pe
    · rw [if_pos hqp, if_pos hqp, if_pos hqp]
    · rw [if_neg hqp, if_neg hqp, if_neg hqp]
      rfl

theorem isNone_host_iff (own : List Letter) :
    (P.rank H own pe).host.isNone = true ↔ pe ≠ Rank.hostRank := by
  show (if pe = Rank.hostRank then some _ else none : Option Host).isNone = true ↔ _
  split <;> simp_all

/-- When a rank starts its first letters are on their way, besides those that were. -/
theorem flight_start (hv : P.Holds) (h : P.Sound L) (hpe : pe < S.pes)
    (hfresh : L.stage pe = .fresh) (c : Letter) :
    c ∈ Scenario.firstLetters pe ∨ P.Posted L c ∧ c ∉ L.arrived ↔
      (S.Sent L.arrived c ∧ ∀ p, c ∈ Scenario.firstLetters p → p = pe ∨ P.Begun L p) ∧
        c ∉ L.arrived := by
  constructor
  · rintro (hc | ⟨hp, hn⟩)
    · have hsent := (Scenario.mem_firstLetters hv.pes_pos).1
        (List.mem_flatMap.2 ⟨pe, List.mem_range.2 hpe, hc⟩)
      refine ⟨⟨hsent.mono (List.nil_subset _), fun p hcp => .inl (eq_of_mem_firstLetters hcp hc)⟩,
        fun harr => ?_⟩
      exact not_begun_of_fresh hfresh (h.begun c harr pe hc)
    · exact ⟨⟨hp.1, fun p hcp => .inr (hp.2 p hcp)⟩, hn⟩
  · rintro ⟨⟨hs, hp⟩, hn⟩
    by_cases hc : c ∈ Scenario.firstLetters pe
    · exact .inl hc
    · refine .inr ⟨⟨hs, fun p hcp => (hp p hcp).resolve_left ?_⟩, hn⟩
      rintro rfl
      exact hc hcp

/-- A rank that starts tells the host of its elements. -/
theorem goesOn_of_start (hv : P.Holds) (h : P.Sound L) (hpe : pe < S.pes)
    (hfresh : L.stage pe = .fresh) (hf : P.fault pe = none) :
    P.GoesOn L pe (.live (P.rank L.arrived
        ([] ++ (Scenario.firstLetters pe).filter (·.addressee = pe)) pe),
      .of S.pes (Mailboxes.posted pe ((Scenario.firstLetters pe).map P.parcel)
        fun q => if q = pe then (L.box pe).map P.note else P.boxes L q)) := by
  have ha := Ledger.alive_of_fresh hfresh
  have hdone : ¬ Done S L.arrived pe := fun hd => h.received _ hd.1 hfresh
  have hold : ∀ c ∈ Scenario.firstLetters pe, ¬ (P.Posted L c ∧ c ∉ L.arrived) := fun c hc hp =>
    not_begun_of_fresh hfresh (hp.1.2 pe hc)
  have hmem := h.mem_letters pe hpe ha
  have hnd := h.nodup pe hpe ha
  unfold Ledger.letters at hmem hnd
  rw [h.own_fresh pe hfresh] at hmem hnd
  have hfirst : (Scenario.firstLetters pe).Nodup := by
    simp [Scenario.firstLetters]
  refine ⟨_, h.advance hpe ha hf (.inl rfl) h.history (fun p e => Iff.rfl) (.inl ⟨rfl, hdone⟩)
    hfirst ⟨hnd, hmem⟩ hold (h.flight_start hv hpe hfresh),
    Ledger.advanced_lt_next hpe (.inr ⟨Nat.le_refl _, ?_⟩), ?_⟩
  · rw [hfresh]
    exact Nat.zero_lt_one
  · refine universeOf_next hv (.inl rfl) ?_ fun q _ => (boxes_posted q).symm
    unfold progress
    rw [Ledger.stage_next_self]
    show Progress.live (P.rank L.arrived (if pe = pe then _ else _) pe) = _
    rw [if_pos rfl]

theorem goesOn_fresh {x : Progress × Mailboxes} (hv : P.Holds) (h : P.Sound L) (hpe : pe < S.pes)
    (hfresh : L.stage pe = .fresh)
    (ht : Progress.fresh.turn job (.mailbox S.pes pe) (P.universeOf L).mail = some x) :
    P.GoesOn L pe x := by
  have hcreate : Rank.create job (Link.mailbox S.pes pe).rank (Link.mailbox S.pes pe).size =
    .ok _ := create_eq hv hpe
  have hnot : ∀ m ∈ L.arrived, m.addressee ≠ pe := fun m hm hp =>
    h.received m hm (hp ▸ hfresh)
  unfold Progress.turn at ht
  rw [mail_universeOf L pe, hcreate] at ht
  have hx : x = Progress.settle (.mailbox S.pes pe) (Rank.onWorker (.mailbox S.pes pe)
      ({ worker := job.fresh S.pes pe
         host := if pe = Rank.hostRank then some (job.freshHost S.pes) else none },
        .of S.pes fun q => if q = pe then (L.box pe).map P.note else P.boxes L q)
      Worker.start) := (Option.some.inj ht).symm
  rw [hx]
  cases hf : P.fault pe with
  | some e =>
    obtain ⟨r, hr, hstart⟩ := start_fault_eq
      (fun q => if q = pe then (L.box pe).map P.note else P.boxes L q) hv hpe hf
      (r := { worker := job.fresh S.pes pe
              host := if pe = Rank.hostRank then some (job.freshHost S.pes) else none }) rfl
    rw [hstart]
    have ha := Ledger.alive_of_fresh hfresh
    refine h.goesOn_of_failure hv hpe ha (fun _ => ?_) (fun p e => id) (.fault hf)
      (.inl ⟨pe, hpe, hf⟩)
    rw [hf]
    exact nofun
  | none =>
    rw [start_eq hv hpe hf hnot, rank_posted]
    have hfinished : (P.rank L.arrived
        ([] ++ (Scenario.firstLetters pe).filter (·.addressee = pe)) pe).isFinished = false := by
      refine Bool.eq_false_iff.2 (mt (isFinished_iff rfl (isNone_host_iff _) ?_).1 fun hd =>
        hnot _ hd.1 rfl)
      rw [if_neg fun hd => hnot _ (hd.2 pe hpe) hd.1.symm]
      rfl
    unfold Progress.settle
    simp only [Outcome.result_ok, Outcome.state_ok, hfinished, Bool.false_eq_true, ↓reduceIte]
    exact h.goesOn_of_start hv hpe hfresh hf

/-- After a letter the ones that are on their way are those that it sets free, and the others. -/
theorem flight_concat (h : P.Sound L) (hm : P.Posted L m) (hn : m ∉ L.arrived)
    (hb : P.Begun L pe) (hrel : S.Releases L.arrived m out) (c : Letter) :
    c ∈ out ∨ P.Posted L c ∧ c ∉ L.arrived ++ [m] ↔
      (S.Sent (L.arrived ++ [m]) c ∧ ∀ p, c ∈ Scenario.firstLetters p → p = pe ∨ P.Begun L p) ∧
        c ∉ L.arrived ++ [m] := by
  rw [hrel.mem_iff]
  constructor
  · rintro (⟨hs, hmc⟩ | ⟨hp, hc⟩)
    · refine ⟨⟨hs, fun p hcp => absurd hcp (not_mem_firstLetters hmc p)⟩, fun hc => ?_⟩
      rcases List.mem_append.1 hc with hc | hc
      · exact hn ((h.history.sent c hc).2 m hmc)
      · exact hn (hm.1.2 m (List.mem_singleton.1 hc ▸ hmc))
    · exact ⟨⟨hp.1.mono (List.subset_append_left _ _), fun p hcp => .inr (hp.2 p hcp)⟩, hc⟩
  · rintro ⟨⟨hs, hp⟩, hc⟩
    by_cases hmc : m ∈ S.causes c
    · exact .inl ⟨hs, hmc⟩
    · refine .inr ⟨⟨⟨hs.1, fun c' hc' => ?_⟩, fun p hcp => ?_⟩, hc⟩
      · refine Scenario.mem_concat_of_ne (hs.2 c' hc') ?_
        rintro rfl
        exact hmc hc'
      · exact (hp p hcp).elim (fun he => he ▸ hb) id

/-- The letter that arrives at a rank is one that waited there, and the others go on waiting. -/
theorem arrives_of_perm {rest : List Letter} (h : P.Sound L) (hpe : pe < S.pes)
    (ha : L.Alive pe) (hperm : (L.letters pe).Perm (m :: rest)) :
    (m.addressee = pe ∧ P.Posted L m ∧ m ∉ L.arrived) ∧ rest.Nodup ∧
      ∀ c, c ∈ rest ↔ c.addressee = pe ∧ P.Posted L c ∧ c ∉ L.arrived ++ [m] := by
  obtain ⟨hm, hnd⟩ := List.nodup_cons.1 (hperm.nodup_iff.1 (h.nodup pe hpe ha))
  have hmem : ∀ c, c = m ∨ c ∈ rest ↔ c.addressee = pe ∧ P.Posted L c ∧ c ∉ L.arrived := by
    intro c
    rw [← h.mem_letters pe hpe ha, hperm.mem_iff, List.mem_cons]
  refine ⟨(hmem m).1 (.inl rfl), hnd, fun c => ?_⟩
  have hconcat : c ∈ L.arrived ++ [m] ↔ c ∈ L.arrived ∨ c = m := by simp
  rw [hconcat]
  constructor
  · intro hc
    obtain ⟨hca, hcp, hcn⟩ := (hmem c).1 (.inr hc)
    refine ⟨hca, hcp, not_or.2 ⟨hcn, ?_⟩⟩
    rintro rfl
    exact hm hc
  · rintro ⟨hca, hcp, hcn⟩
    exact ((hmem c).2 ⟨hca, hcp, fun hh => hcn (.inl hh)⟩).resolve_left fun he => hcn (.inr he)

section

variable (hv : P.Holds) (h : P.Sound L) (hpe : pe < S.pes) (hlive : L.stage pe = .live)
  (hperm : (L.letters pe).Perm (m :: (own ++ box.filterMap Note.letter?)))
  (hbox : ∀ p e, .abort p e ∈ box ↔ .abort p e ∈ L.box pe)

include h hpe hlive hperm hbox

theorem advance_letter (hhist : S.History (L.arrived ++ [m])) (hrel : S.Releases L.arrived m out)
    (hs : s = .live ∧ ¬ Done S (L.arrived ++ [m]) pe ∨ s = .returned
      ⟨.ok (if pe = Rank.hostRank then some S.report else none), S.handOut {} pe⟩ ∧
        Done S (L.arrived ++ [m]) pe) :
    P.Sound (L.next pe (L.arrived ++ [m]) (own ++ out.filter (·.addressee = pe)) box
      (fun q => (out.filter (·.addressee = q)).map .letter) s) ∧
    L.advanced S.pes < (L.next pe (L.arrived ++ [m]) (own ++ out.filter (·.addressee = pe)) box
      (fun q => (out.filter (·.addressee = q)).map .letter) s).advanced S.pes := by
  have ha := Ledger.alive_of_live hlive
  obtain ⟨hfault, -⟩ := h.live pe hlive
  obtain ⟨⟨hm, hposted, hn⟩, hrest⟩ := h.arrives_of_perm hpe ha hperm
  have hbegun : P.Begun L pe := ⟨by rw [hlive]; exact nofun, hfault⟩
  have hdisj : ∀ c ∈ out, ¬ (P.Posted L c ∧ c ∉ L.arrived ++ [m]) := fun c hc hp =>
    hn (hp.1.1.2 m ((hrel.mem_iff c).1 hc).2)
  constructor
  · exact h.advance hpe ha hfault (.inr ⟨m, rfl, hm, hposted⟩) hhist hbox hs hrel.nodup hrest hdisj
      (h.flight_concat hposted hn hbegun hrel)
  · refine Ledger.advanced_lt_next hpe (.inl ⟨by simp, ?_⟩)
    rw [hlive]
    rcases hs with ⟨rfl, -⟩ | ⟨rfl, -⟩
    · exact Nat.le_refl _
    · exact Nat.le_succ _

include hv

/-- A rank that handled a letter returns if it is done, and waits for the next one otherwise. -/
theorem goesOn_of_handles {o : Rank.Result Mailboxes Unit} (hm : m.addressee = pe)
    (hout : P.Handles L.arrived own m
      (fun q => if q = pe then box.map P.note else P.boxes L q) o out) :
    P.GoesOn L pe (Progress.settle (.mailbox S.pes pe) o) := by
  have hstep : L.arrived ++ [m] = L.arrived ∨
      ∃ m', L.arrived ++ [m] = L.arrived ++ [m'] ∧ m'.addressee = pe := .inr ⟨m, rfl, hm⟩
  rw [hout.eq, hm, rank_posted]
  generalize hr : ({ P.rank (L.arrived ++ [m]) (own ++ out.filter (·.addressee = pe)) pe with
    report := if pe = Rank.hostRank ∧ S.Over (L.arrived ++ [m]) then some S.report
      else none } : Rank) = r
  have hfinished : r.isFinished = true ↔ Done S (L.arrived ++ [m]) pe := by
    subst hr
    exact isFinished_iff rfl (isNone_host_iff (own ++ out.filter (·.addressee = pe))) rfl
  unfold Progress.settle
  simp only [Outcome.result_ok, Outcome.state_ok]
  by_cases hd : Done S (L.arrived ++ [m]) pe
  · obtain ⟨hsound, hlt⟩ :=
      h.advance_letter hpe hlive hperm hbox hout.history hout.releases (.inr ⟨rfl, hd⟩)
    have hreport : r.report = if pe = Rank.hostRank then some S.report else none := by
      subst hr
      by_cases hz : pe = Rank.hostRank
      · simp only [if_pos hz, if_pos (And.intro hz (hd.2 hz))]
      · simp only [if_neg hz, if_neg fun h : _ ∧ _ => hz h.1]
    have hcollector : r.collector = S.handOut {} pe := by
      subst hr
      exact if_pos (hout.history.settled_of_deviation hd.1)
    simp only [hfinished.2 hd, ↓reduceIte]
    refine ⟨_, hsound, hlt, universeOf_next hv hstep ?_ fun q _ => (boxes_posted q).symm⟩
    unfold progress
    rw [Ledger.stage_next_self, hreport, hcollector]
  · obtain ⟨hsound, hlt⟩ :=
      h.advance_letter hpe hlive hperm hbox hout.history hout.releases (.inl ⟨rfl, hd⟩)
    have hreport : ¬ (pe = Rank.hostRank ∧ S.Over (L.arrived ++ [m])) := fun hz =>
      hd ⟨hout.history.deviation_of_over hz.2 hpe, fun _ => hz.2⟩
    simp only [Bool.eq_false_iff.2 fun hf => hd (hfinished.1 hf), Bool.false_eq_true, ↓reduceIte]
    refine ⟨_, hsound, hlt, universeOf_next hv hstep ?_ fun q _ => (boxes_posted q).symm⟩
    unfold progress
    rw [Ledger.stage_next_self, ← hr, if_neg hreport]
    show Progress.live (P.rank _ (if pe = pe then _ else _) pe) = _
    rw [if_pos rfl]
    rfl

/-- A letter arrives: its rank fails upon it, or goes on as the history says. -/
theorem goesOn_letter :
    P.GoesOn L pe (Progress.settle (.mailbox S.pes pe) (Rank.handle (.mailbox S.pes pe)
      (P.rank L.arrived own pe,
        .of S.pes fun q => if q = pe then box.map P.note else P.boxes L q)
      (P.parcel m).sender (P.parcel m).content)) := by
  have ha := Ledger.alive_of_live hlive
  obtain ⟨-, hdone⟩ := h.live pe hlive
  obtain ⟨⟨hm, hposted, hn⟩, -⟩ := h.arrives_of_perm hpe ha hperm
  have hover : pe = Rank.hostRank → ¬ S.Over L.arrived := fun hz ho =>
    hdone ⟨h.history.deviation_of_over ho hpe, fun _ => ho⟩
  rcases handle_letter own (fun q => if q = pe then box.map P.note else P.boxes L q)
      hv h.history hposted.1 hn hm hover (fun hg q hq =>
        (h.begun_of_gathered_concat hposted hg hq).2) with ⟨e, r, hf, hc, he⟩ | ⟨out, hout⟩
  · rw [he]
    refine h.goesOn_of_failure hv hpe ha (fun hfresh => ?_) (fun p e => (hbox p e).1)
      (.letter hm hposted.1 hn hf) (.inr ⟨_, _, hposted.1, hf⟩)
    rw [hlive] at hfresh
    cases hfresh
  · exact h.goesOn_of_handles hv hpe hlive hperm hbox hm hout

end

/-- A rank that is told of the failure of another one returns, and tells nobody. -/
theorem goesOn_abort {p : Nat} (hv : P.Holds) (h : P.Sound L) (hpe : pe < S.pes)
    (hlive : L.stage pe = .live) (hb : L.box pe = .abort p e :: box) :
    P.GoesOn L pe (Progress.settle (.mailbox S.pes pe) (Rank.handle (.mailbox S.pes pe)
      (P.rank L.arrived own pe,
        .of S.pes fun q => if q = pe then box.map P.note else P.boxes L q)
      p (.abort e.isUser e.message))) := by
  have ha := Ledger.alive_of_live hlive
  have hmem : Note.abort p e ∈ L.box pe := hb ▸ List.mem_cons_self
  obtain ⟨hp, hfail⟩ := h.failed pe hpe p e hmem
  have hfresh : L.stage pe = .fresh → P.fault pe ≠ none := fun hfresh => by
    rw [hlive] at hfresh
    cases hfresh
  have hreturns : P.Returns L pe ⟨.error (.error (.aborted p e.isUser e.message)),
    (P.rank L.arrived own pe).collector⟩ := .aborted hp hfail
  have hsound := h.fail hpe ha (fun q e' hq => hb ▸ List.mem_cons_of_mem _ hq) hreturns
    (.inr ⟨⟨_, _, _, rfl⟩, rfl⟩) [] hfresh
  refine ⟨_, hsound, Ledger.advanced_lt_next hpe (.inr ⟨Nat.le_refl _, ?_⟩), ?_⟩
  · rw [hlive]
    exact Nat.lt_succ_self 1
  · refine universeOf_next hv (.inl rfl) ?_ fun q _ => ?_
    · unfold progress
      rw [Ledger.stage_next_self]
      rfl
    · rw [boxes_next]
      by_cases hq : q = pe
      · rw [if_pos hq, if_pos hq]
      · rw [if_neg hq, if_neg hq]
        exact List.append_nil _

theorem goesOn_live {x : Progress × Mailboxes} (hv : P.Holds) (h : P.Sound L) (hpe : pe < S.pes)
    (hlive : L.stage pe = .live)
    (ht : (Progress.live (P.rank L.arrived (L.own pe) pe)).turn job (.mailbox S.pes pe)
      (P.universeOf L).mail = some x) : P.GoesOn L pe x := by
  cases hown : L.own pe with
  | cons m own =>
    rw [turn_of_own hown] at ht
    obtain rfl := Option.some.inj ht
    refine h.goesOn_letter hv hpe hlive ?_ fun p e => Iff.rfl
    unfold Ledger.letters
    rw [hown]
    exact .refl _
  | nil =>
    cases hbox : L.box pe with
    | nil =>
      rw [turn_of_nil hpe hown hbox] at ht
      cases ht
    | cons note box =>
      cases note with
      | letter m =>
        have hm : m ∈ L.letters pe := by
          unfold Ledger.letters
          rw [hown, hbox]
          exact List.mem_cons_self
        have hposted := ((h.mem_letters pe hpe (Ledger.alive_of_live hlive) m).1 hm).2.1
        rw [turn_of_note hpe hown hbox (h.decode_letter hv hposted)] at ht
        obtain rfl := Option.some.inj ht
        refine h.goesOn_letter hv hpe hlive ?_ fun p e => ?_
        · unfold Ledger.letters
          rw [hown, hbox]
          exact .refl _
        · rw [hbox]
          simp
      | abort p e =>
        obtain ⟨hp, hfail⟩ := h.failed pe hpe p e (hbox ▸ List.mem_cons_self)
        rw [turn_of_note hpe hown hbox (h.decode_abort hv hp hfail)] at ht
        obtain rfl := Option.some.inj ht
        exact h.goesOn_abort hv hpe hlive hbox

/-- A turn of any rank leads from one sound ledger to another. -/
theorem turn {u : Universe} (hv : P.Holds) (h : P.Sound L)
    (ht : (P.universeOf L).turn job pe = some u) :
    ∃ L', P.Sound L' ∧ L.advanced S.pes < L'.advanced S.pes ∧ P.universeOf L' = u := by
  have hpe := lt_of_turn ht
  rw [turn_universeOf hpe] at ht
  obtain ⟨x, hx, rfl⟩ := Option.map_eq_some_iff.1 ht
  have hgo : P.GoesOn L pe x := by
    cases hs : L.stage pe with
    | fresh =>
      rw [progress, hs] at hx
      exact h.goesOn_fresh hv hpe hs hx
    | live =>
      rw [progress, hs] at hx
      exact h.goesOn_live hv hpe hs hx
    | returned r =>
      rw [progress, hs] at hx
      cases hx
  exact hgo

end Sound
end Plan
end MeshDecomp
