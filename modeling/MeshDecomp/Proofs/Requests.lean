import MeshDecomp.Proofs.Exports

/-!
The accounts of the numbering. Every question of a rank for new ids is on its way, waits until the
other rank can answer it, or was answered with the ids that the other rank gave.
-/
namespace MeshDecomp

namespace Network

/-- The new id of a node, as far as a rank knows it. -/
def newId? (s : Network) (pe x : Nat) : Option Nat := (s.numbering? pe).bind (·.newId? x)

/-- A rank knows the new ids of some nodes as another rank does. -/
def Stored (s : Network) (p q : Nat) (nodes : List Nat) : Prop :=
  ∀ x ∈ nodes, ∃ new, s.newId? p x = some new ∧ s.newId? q x = some new

end Network

namespace Scenario

/-- A rank is told to ask another one for the new ids of some nodes. -/
def Asks (S : Scenario) (p q : Nat) (nodes : List Nat) : Prop :=
  (S.asked p).get? q = some nodes ∧ nodes ≠ []

instance (S : Scenario) (p q : Nat) (nodes : List Nat) : Decidable (S.Asks p q nodes) :=
  inferInstanceAs (Decidable (_ ∧ _))

/-- Where the questions of every rank for new ids are. -/
structure RequestsAccounted (S : Scenario) (log : List Parcel) (s : Network) : Prop where
  ranks : s.ensemble.workers.length = S.pes
  told : ∀ c ∈ s.pool ++ log, ∀ start asked, c.content = .command (.reorder start asked) →
    ∃ p, c.target = .pe p ∧ start = S.start p ∧ asked = S.asked p
  before : ∀ p, ¬ Commanded log .reorder p → ∀ q l, s.countAt log .ids p q l = 0
  others : ∀ p q, (∀ nodes, ¬ S.Asks p q nodes) → ∀ l, s.countAt log .ids p q l = 0
  after : ∀ p q nodes, S.Asks p q nodes → Commanded log .reorder p → ∃ l,
    (∀ l', s.countAt log .ids p q l' = if l' = l then 1 else 0) ∧
    (s.Stored p q nodes ↔ l = .closed)
  requests : ∀ c ∈ s.pool, ∀ nodes, c.content = .peer (.request nodes) →
    ∃ q, c.target = .pe q ∧ S.Asks c.sender q nodes
  waiting : ∀ q, ∀ c ∈ s.inbox q, S.Asks c.1 q c.2
  replies : ∀ c ∈ s.pool ++ log, ∀ pairs, c.content = .peer (.reply pairs) →
    ∃ p n, c.target = .pe p ∧ S.Asks p c.sender (pairs.map Prod.fst) ∧
      s.numbering? c.sender = some n ∧ ∀ e ∈ pairs, n.newId? e.1 = some e.2 ∧ e.2 ∈ n.block
  begun : ∀ q n, s.numbering? q = some n →
    (n.begun = true ↔ Commanded log .reorder q) ∧ (n.begun = true → n.inbox = [])
  phase : ∀ p w, s.ensemble.workers[p]? = some w → Commanded log .reorder p →
    (w.phase = .reordering ↔ ∃ q nodes, S.Asks p q nodes ∧ ¬ s.Stored p q nodes)

variable {S : Scenario} {p q pe x : Nat} {l : Leg} {H fatal : List Letter} {ids nodes : List Nat}
  {n s : Network} {log : List Parcel}

theorem asks_iff : S.Asks p q nodes ↔ S.Occurs (.peer .request p q) ∧ nodes = S.held p q := by
  by_cases hp : p < S.pes
  · rw [Asks, get?_asked hp]
    have hocc : S.Occurs (.peer .request p q) ↔ q ≠ p ∧ S.held p q ≠ [] :=
      (and_iff_right hp).trans (mem_keys_asked hp)
    rw [hocc, ← not_or]
    split
    · next h => simp [h]
    · next h =>
      simp only [h, not_false_eq_true, true_and, Option.some.injEq]
      constructor
      · rintro ⟨rfl, -⟩
        rfl
      · rintro rfl
        exact ⟨rfl, fun hnil => h (.inr hnil)⟩
  · have hnone : S.asked p = ∅ := by
      have hsets : S.sets[p]? = none := by
        simpa [sets] using hp
      unfold asked
      rw [Sharing.ofSets, List.getElem?_mapIdx, hsets]
      rfl
    rw [Asks, hnone, IdMap.get?_empty]
    constructor
    · rintro ⟨h, -⟩
      cases h
    · rintro ⟨h, -⟩
      exact absurd h.1 hp

theorem complete_iff (hr : .command .reorder p ∈ H) :
    S.Complete p (.of H p) ↔ ∀ q ∈ (S.asked p).keys, .peer .reply q p ∈ H := by
  have hmem : ∀ q, q ∈ (View.of H p).replies ↔ .peer .reply q p ∈ H := fun q => Letter.mem_senders
  simp only [Complete, hmem]
  exact and_iff_right (decide_eq_true hr)

/-- A rank that numbers is in the phase of numbering until it has all answers. -/
theorem History.phase_eq_reordering_iff (h : S.History H) (hr : .command .reorder p ∈ H) :
    S.phase p (.of H p) = .reordering ↔ ¬ S.Complete p (.of H p) := by
  have hclosed : (View.of H p).closed = true → S.Settled p (.of H p) := fun hc =>
    h.settled_of_deviation (of_decide_eq_true hc)
  have hsettled : S.Settled p (.of H p) → S.Complete p (.of H p) := And.left
  have hreordered : (View.of H p).reordered = true := decide_eq_true hr
  unfold phase
  split_ifs <;> simp_all

namespace Follows

variable (h : S.Follows H fatal log s)

include h

theorem open_ids_iff : S.Open H .ids p q ↔
    Commanded log .reorder p ∧ ∃ nodes, S.Asks p q nodes := by
  rw [h.commanded_log (by decide)]
  refine and_congr_right fun _ => ?_
  simp only [asks_iff, exists_and_left, exists_eq, and_true]
  rfl

theorem countAt_ids_eq_zero (hn : ¬ (Commanded log .reorder p ∧ ∃ nodes, S.Asks p q nodes)) :
    s.countAt log .ids p q l = 0 := by
  rw [h.countAt_eq, if_neg fun ho => hn (h.open_ids_iff.1 ho.1)]

theorem numbering?_eq_of_reorder (hr : .command .reorder q ∈ H) : s.numbering? q =
    some (S.numbering q true (Letter.senders .request q H) (Letter.senders .reply q H)) := by
  rw [h.numbering?_eq, if_pos (h.history.flatten_of_reorder hr (h.history.lt hr)),
    decide_eq_true hr]

theorem newId?_eq : s.newId? q x =
    if .command .reorder q ∈ H ∧ x ∈ S.known q (Letter.senders .reply q H) then some (S.newId x)
    else none := by
  by_cases hr : .command .reorder q ∈ H
  · rw [Network.newId?, h.numbering?_eq_of_reorder hr, Option.bind_some, newId?_numbering]
    simp only [hr, true_and]
  · rw [if_neg fun hc => hr hc.1, Network.newId?, h.numbering?_eq]
    split
    · simp [numbering, Numbering.newId?, hr]
    · rfl

/-- The rank that numbers the nodes of a request knows their new ids. -/
theorem newId?_holder (hr : .command .reorder q ∈ H) (hp : p < S.pes) (hx : x ∈ S.held p q) :
    s.newId? q x = some (S.newId x) := by
  have hown : x ∈ S.held q q := mem_held_holder hp hx
  rw [h.newId?_eq, if_pos]
  exact ⟨hr, mem_known.2 ⟨(mem_held.1 hown).1, .inl (mem_held.1 hown).2⟩⟩

/-- New ids are stored as soon as the answer arrives, and not before. -/
theorem stored_iff (ho : S.Open H .ids p q) :
    s.Stored p q (S.held p q) ↔ .peer .reply q p ∈ H := by
  have hocc : S.Occurs (.peer .request p q) := ho.2
  obtain ⟨hne, hnil⟩ := (mem_keys_asked hocc.1).1 hocc.2
  constructor
  · intro hstored
    -- The list is not empty, and no other answer holds a new id of its nodes.
    obtain ⟨x, hx⟩ := List.exists_mem_of_ne_nil _ hnil
    obtain ⟨new, hnew, -⟩ := hstored x hx
    rw [h.newId?_eq] at hnew
    split at hnew
    · next hk =>
      rcases (mem_known.1 hk.2).2 with hown | hreply
      · exact absurd ((mem_held.1 hx).2.symm.trans hown) hne
      · rw [(mem_held.1 hx).2] at hreply
        exact Letter.mem_senders.1 hreply
    · cases hnew
  · intro hreply x hx
    have hr : .command .reorder q ∈ H := h.history.command_of_back (e := .ids) hreply
    refine ⟨S.newId x, ?_, h.newId?_holder hr hocc.1 hx⟩
    obtain ⟨hmem, hholder⟩ := mem_held.1 hx
    rw [h.newId?_eq, if_pos]
    exact ⟨ho.1, mem_known.2 ⟨hmem, .inr (hholder ▸ Letter.mem_senders.2 hreply)⟩⟩

/-- An answer holds the ids that its sender gave, for the nodes that it was asked for. -/
theorem reply_eq (hs : S.Sent H (.peer .reply q p)) :
    ∃ n, S.Asks p q ((S.replyTo p q).map Prod.fst) ∧ s.numbering? q = some n ∧
      ∀ e ∈ S.replyTo p q, n.newId? e.1 = some e.2 ∧ e.2 ∈ n.block := by
  have hback : S.Sent H (.peer Errand.ids.back q p) := hs
  obtain ⟨-, hr⟩ := h.history.sent_back_iff.1 hback
  have hocc : S.Occurs (.peer .request p q) := hs.1
  have hnum := h.numbering?_eq_of_reorder hr
  have hq : q < S.pes := h.history.lt hr
  have hcovers : Sharing.Covers S.used S.sets :=
    (h.history.numbers (h.history.flatten_of_reorder hr hq)).covers
  have hfst : (S.replyTo p q).map Prod.fst = S.held p q := by
    simp [replyTo, Function.comp_def]
  refine ⟨_, asks_iff.2 ⟨hocc, hfst⟩, hnum, fun e he => ?_⟩
  obtain ⟨x, hx, rfl⟩ := List.mem_map.1 he
  have hnew := h.newId?_holder hr hocc.1 hx
  rw [Network.newId?, hnum, Option.bind_some] at hnew
  exact ⟨hnew, newId_mem_block hq hcovers (mem_held_holder hocc.1 hx)⟩

/-- A rank goes on to its bounds as soon as no question is open. -/
theorem phase_iff {w : Worker} (hw : s.ensemble.workers[p]? = some w)
    (hr : .command .reorder p ∈ H) :
    w.phase = .reordering ↔ ∃ q nodes, S.Asks p q nodes ∧ ¬ s.Stored p q nodes := by
  obtain ⟨hp, rfl⟩ := h.worker_eq hw
  have hphase : (stopped fatal p (S.worker p (.of H p))).phase = S.phase p (.of H p) :=
    if_neg (h.flatten_not_mem hr)
  rw [hphase, h.history.phase_eq_reordering_iff hr, complete_iff hr]
  constructor
  · intro hn
    obtain ⟨q, hn⟩ := not_forall.1 hn
    obtain ⟨hk, hn⟩ := Classical.not_imp.1 hn
    have ho : S.Open H .ids p q := ⟨hr, hp, hk⟩
    exact ⟨q, S.held p q, asks_iff.2 ⟨ho.2, rfl⟩, mt (h.stored_iff ho).1 hn⟩
  · rintro ⟨q, nodes, hasks, hn⟩ hall
    obtain ⟨hocc, rfl⟩ := asks_iff.1 hasks
    exact hn ((h.stored_iff ⟨hr, hocc⟩).2 (hall q hocc.2))

end Follows

/-- In every reachable state of an honest run: a rank asks for no new ids before it was told whom
to ask. Afterwards every question is in exactly one place: on its way, waiting at the rank that
numbers the nodes, on its way back with the answer, or done, when the new ids are stored as the
other rank gave them. No question waits at a rank that has numbered its own nodes, an answer is for
the nodes that were asked for, and a rank stays in the phase of numbering until no question is
open. -/
theorem requests_accounted (ha : S.Admissible) (hh : S.Honest ids) (hl : S.launch = .ok n)
    (hr : n.Run log s) : S.RequestsAccounted log s := by
  obtain ⟨H, fatal, h⟩ := hh.follows ha hl hr
  constructor
  case ranks => exact h.length_workers
  case told =>
    intro c hc start asked hcontent
    obtain ⟨m, -, rfl⟩ := h.exists_sent hc
    cases m with
    | command b p =>
      cases b <;> cases hcontent
      exact ⟨p, rfl, rfl, rfl⟩
    | contribution k p => cases hcontent
    | peer x p q => cases hcontent
    | lower p => cases hcontent
  case before => exact fun p hc q l => h.countAt_ids_eq_zero fun ho => hc ho.1
  case others => exact fun p q hn l => h.countAt_ids_eq_zero fun ho => not_exists.2 hn ho.2
  case after =>
    intro p q nodes hasks hc
    have ho : S.Open H .ids p q := h.open_ids_iff.2 ⟨hc, nodes, hasks⟩
    obtain ⟨-, rfl⟩ := asks_iff.1 hasks
    refine ⟨leg H .ids p q, fun l => ?_, ?_⟩
    · rw [h.countAt_eq]
      simp only [ho, true_and]
    · have hclosed : .peer .reply q p ∈ H ↔ S.Open H .ids p q ∧ .closed = leg H .ids p q :=
        h.history.closed_iff (e := .ids)
      rw [h.stored_iff ho, hclosed, and_iff_right ho, eq_comm]
  case requests =>
    intro c hc nodes hcontent
    obtain ⟨m, hs, rfl⟩ := h.exists_sent (List.mem_append_left log hc)
    obtain ⟨p, q, rfl, hmessage⟩ := eq_peer_of_content hcontent rfl
    cases hmessage
    exact ⟨q, rfl, asks_iff.2 ⟨hs.1, rfl⟩⟩
  case waiting =>
    intro q c hc
    rw [h.inbox_eq] at hc
    split at hc
    · cases hc
    · obtain ⟨p, hp, rfl⟩ := List.mem_map.1 hc
      exact asks_iff.2 ⟨(h.history.sent _ (Letter.mem_senders.1 hp)).1, rfl⟩
  case replies =>
    intro c hc pairs hcontent
    obtain ⟨m, hs, rfl⟩ := h.exists_sent hc
    obtain ⟨q, p, rfl, hmessage⟩ := eq_peer_of_content hcontent rfl
    cases hmessage
    obtain ⟨n, hreply⟩ := h.reply_eq hs
    exact ⟨p, n, rfl, hreply⟩
  case begun =>
    intro q n hn
    rw [h.commanded_log (by decide)]
    rw [h.numbering?_eq] at hn
    split at hn
    · cases hn
      exact ⟨decide_eq_true_iff, fun hb => if_pos hb⟩
    · cases hn
  case phase => exact fun p w hw hc => h.phase_iff hw ((h.commanded_log (by decide)).1 hc)

theorem crossed_requests_accounted :
    crossed.Admissible ∧ crossed.Honest [1, 0] ∧ crossed.Asks 1 0 [12, 13] ∧
      ∃ n log s, crossed.launch = .ok n ∧ n.Run log s ∧ s.ending = some (.ok crossed.report) ∧
        crossed.RequestsAccounted log s := by
  obtain ⟨n, log, s, hl, hr, he⟩ := finishes_crossed.exists_run admissible_crossed
  exact ⟨admissible_crossed, honest_crossed, by decide, n, log, s, hl, hr, he,
    requests_accounted admissible_crossed honest_crossed hl hr⟩

end Scenario
end MeshDecomp
