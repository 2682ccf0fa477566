import MeshDecomp.Proofs.Acknowledgments
import MeshDecomp.Proofs.NumberingCalls

/-!
What the message of a peer does to a processing element that accepts it, told in full: every other
property of accepted messages can be read off here, without a look at the calls themselves.
-/

namespace MeshDecomp

theorem Outcome.append_eq_ok {σ ε α : Type} {o : Outcome σ ε (List α)}
    {f : σ → Outcome σ ε (List α)} {u : σ} {as : List α} (h : o.append f = .ok u as) :
    ∃ s out more, o = .ok s out ∧ f s = .ok u more ∧ as = out ++ more := by
  obtain ⟨s, e | out⟩ := o
  · cases h
  · have h : (f s).map (out ++ ·) = .ok u as := h
    generalize hf : f s = o' at h
    obtain ⟨s', e | more⟩ := o'
    · cases h
    · cases h
      exact ⟨s, out, more, rfl, hf, rfl⟩

/-- The action that answers a request. -/
def Numbering.sendAnswer (n : Numbering) (r : Nat × List Nat) : Action :=
  .send r.1 (.reply (n.answerTo r).2)

theorem Numbering.map_sendAnswer (n : Numbering) (l : List (Nat × List Nat)) :
    l.map n.sendAnswer = (l.map n.answerTo).map fun r => .send r.1 (.reply r.2) := by
  rw [List.map_map]
  rfl

namespace Worker

/-- The message `m` of peer `q` is accepted: the state that it leaves, and the actions. -/
inductive Receipt (w : Worker) (q : Nat) : PeerMessage → Worker → List Action → Prop
  | parks {incoming : IdMap (List Nat)} : w.phase ≤ .partitioning → w.units = none →
      Receipt w q (.add incoming) { w with parked := w.parked ++ [(q, incoming)] } []
  | merges {incoming : IdMap (List Nat)} : w.phase ≤ .partitioning → w.units ≠ none →
      Receipt w q (.add incoming)
        { w.withBooks w.books.checked with table := stow w.table q incoming }
        (.send q .ack :: w.books.report)
  | acknowledged : 0 < w.pendingAcks → Receipt w q .ack (w.withBooks w.books.acknowledged.checked)
      w.books.acknowledged.report
  | waits {nodes : List Nat} {n : Numbering} : w.numbering = some n → n.begun = false →
      Receipt w q (.request nodes) { w with numbering := some (n.push q nodes) } []
  | answers {nodes : List Nat} {n : Numbering} : w.numbering = some n → n.begun = true →
      (∀ r ∈ n.inbox ++ [(q, nodes)], n.Serves r.2) →
      Receipt w q (.request nodes) { w with numbering := some { n with inbox := [] } }
        ((n.inbox ++ [(q, nodes)]).map n.sendAnswer)
  | numbers {pairs : List (Nat × Nat)} {n : Numbering} {u : Worker} {as : List Action} :
      w.phase = .reordering → w.numbering = some n → n.Fresh pairs →
      (checkReordered { w with numbering := some (n.taking pairs) }).drain = .ok u as →
      Receipt w q (.reply pairs) u as
  | holds {bound : Nat} : q + 1 = w.rank → w.lower = none → w.earlyLower = none →
      w.phase < .bounding → Receipt w q (.lower bound) { w with earlyLower := some bound } []
  | settles {bound : Nat} {u : Worker} {as : List Action} : q + 1 = w.rank →
      w.lower = none → w.earlyLower = none → w.phase = .bounding →
      ((settleBounds { w with lower := some bound }).append drain) = .ok u as →
      Receipt w q (.lower bound) u as

variable {w u : Worker} {q : Nat} {as : List Action}

/-! ### Work units -/

theorem mergeAll_eq_ok {units : Nat} {incoming : List (Nat × List Nat)}
    (h : w.mergeAll q units incoming = .ok u ()) :
    u = { w with table := incoming.foldl (fun t e => record t e.1 q e.2) w.table } := by
  induction incoming generalizing w with
  | nil =>
    cases h
    rfl
  | cons e incoming ih =>
    rw [mergeAll] at h
    split at h
    · cases h
    · dsimp only at h
      split at h
      · cases h
      · exact ih h

theorem merge_eq_ok {incoming : IdMap (List Nat)} (h : w.merge q incoming = .ok u as) :
    w.units ≠ none ∧ u = { w with table := stow w.table q incoming } ∧ as = [.send q .ack] := by
  unfold merge at h
  split at h
  · cases h
  · next units hunits =>
    generalize hall : w.mergeAll q units incoming.entries = o at h
    obtain ⟨s, e | a⟩ := o
    · cases h
    · cases h
      exact ⟨hunits ▸ nofun, mergeAll_eq_ok hall, rfl⟩

theorem receipt_add {incoming : IdMap (List Nat)} (h : w.add q incoming = .ok u as) :
    w.Receipt q (.add incoming) u as := by
  unfold add at h
  split at h
  · cases h
  · next hearly =>
    have hphase : w.phase ≤ .partitioning := Nat.not_lt.1 hearly
    split at h
    · next hunits =>
      cases h
      exact .parks hphase hunits
    · obtain ⟨s, out, more, hmerge, hcheck, rfl⟩ := Outcome.append_eq_ok h
      obtain ⟨hunits, rfl, rfl⟩ := merge_eq_ok hmerge
      rw [checkDistributed_eq] at hcheck
      cases hcheck
      exact .merges hphase hunits

theorem receipt_ack (h : w.ack = .ok u as) : w.Receipt q .ack u as := by
  rcases w.ack_cases with ⟨-, hack⟩ | ⟨hpos, hack⟩
  · cases hack.symm.trans h
  · rw [hack, checkDistributed_eq] at h
    cases h
    exact .acknowledged hpos

/-! ### New ids -/

theorem receipt_request {nodes : List Nat} (h : w.request q nodes = .ok u as) :
    w.Receipt q (.request nodes) u as := by
  unfold request withNumbering at h
  split at h
  · cases h
  · next n hn =>
    change ((lift { w with numbering := some (n.push q nodes) } (n.push q nodes).flush).map
      fun replies => replies.map fun r => Action.send r.1 (.reply r.2)) = _ at h
    cases hb : n.begun with
    | false =>
      rw [Numbering.flush_of_not_begun (n := n.push q nodes) hb] at h
      cases h
      exact .waits hn hb
    | true =>
      rw [Numbering.flush_of_begun (n := n.push q nodes) hb] at h
      rcases (n.push q nodes).serves_or_not (n.inbox ++ [(q, nodes)]) with hserves | hbad
      · have hanswer : (n.push q nodes).answer (n.push q nodes).inbox =
            .ok { n with inbox := [] } ((n.inbox ++ [(q, nodes)]).map n.answerTo) :=
          Numbering.answer_of_serves hserves
        rw [hanswer] at h
        change Outcome.ok _ (((n.inbox ++ [(q, nodes)]).map n.answerTo).map _) = _ at h
        rw [← Numbering.map_sendAnswer] at h
        cases h
        exact .answers hn hb hserves
      · obtain ⟨done, bad, rest, hinbox, hdone, hbad⟩ := hbad
        obtain ⟨x, -, -, hanswer⟩ := Numbering.answer_of_not_serves hdone hbad rest
        rw [show (n.push q nodes).inbox = _ from hinbox, hanswer] at h
        cases h

theorem idle_request (hi : w.completions = []) (nodes : List Nat) :
    (w.request q nodes).state.completions = [] := by
  unfold request withNumbering
  split
  · exact hi
  · next n _ =>
    exact (quiet_flushRequests (w := { w with numbering := some (n.push q nodes) })).idle hi

theorem receipt_reply {pairs : List (Nat × Nat)}
    (h : (w.reply q pairs).append drain = .ok u as) : w.Receipt q (.reply pairs) u as := by
  obtain ⟨s, out, more, hreply, hdrain, rfl⟩ := Outcome.append_eq_ok h
  unfold reply inPhase withNumbering at hreply
  split at hreply
  · next hp =>
    split at hreply
    · cases hreply
    · next n hn =>
      change ((w.lift (n.resolve q pairs)).bind fun w _ => .ok w.checkReordered []) = _ at hreply
      cases hasked : n.asked.get? q with
      | none =>
        simp only [Numbering.resolve, hasked] at hreply
        cases hreply
      | some requested =>
        rw [Numbering.resolve_of_asked hasked] at hreply
        obtain ⟨done, hfresh, -, ⟨rfl, htake⟩ | ⟨e, -, -, -, htake⟩ | ⟨e, -, -, -, -, htake⟩⟩ :=
          n.take_cases requested q pairs
        · rw [htake] at hreply
          cases hreply
          exact .numbers hp hn hfresh hdrain
        · rw [htake] at hreply
          cases hreply
        · rw [htake] at hreply
          cases hreply
  · cases hreply

/-! ### The lower bound -/

theorem receipt_lower (hi : w.completions = []) {bound : Nat}
    (h : (w.receiveLower q bound).append drain = .ok u as) : w.Receipt q (.lower bound) u as := by
  unfold receiveLower at h
  split at h
  · cases h
  · next hrank =>
    have hrank : q + 1 = w.rank := Decidable.not_not.1 hrank
    split at h
    · cases h
    · next hnone =>
      rw [not_or, Option.not_isSome_iff_eq_none, Option.not_isSome_iff_eq_none] at hnone
      obtain ⟨hlower, hearly⟩ := hnone
      split at h
      · next hp =>
        rw [append_drain_of_idle (o := .ok { w with earlyLower := some bound } []) hi] at h
        cases h
        exact .holds hrank hlower hearly hp
      · split at h
        · next hp => exact .settles hrank hlower hearly hp h
        · cases h

/-- Whatever an accepted message does, it is one of these. -/
theorem receipt_of_handle (hi : w.completions = []) {m : PeerMessage}
    (h : w.handle (.peer q m) = .ok u as) : w.Receipt q m u as := by
  have hreceive : (w.receive q m).append drain = .ok u as := by
    unfold handle dispatch at h
    dsimp only at h
    split at h
    · cases h
    · exact h
  cases m with
  | add incoming => exact receipt_add (append_drain_of_idle (idle_add hi incoming) ▸ hreceive)
  | ack => exact receipt_ack (append_drain_of_idle (idle_ack hi) ▸ hreceive)
  | request nodes => exact receipt_request (append_drain_of_idle (idle_request hi nodes) ▸ hreceive)
  | reply pairs => exact receipt_reply hreceive
  | lower bound => exact receipt_lower hi hreceive

end Worker
end MeshDecomp
