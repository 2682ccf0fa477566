import MeshDecomp.Proofs.Distribution

/-! From the nodes of the work units to the bounds in closed form: numbering, requests and their
answers, the chain of bounds and the costs. -/
namespace MeshDecomp

namespace Worker

variable {w : Worker} {n n' : Numbering}

theorem flushRequests_eq {replies : List (Nat × List (Nat × Nat))} (hw : w.numbering = some n)
    (hf : n.flush = .ok n' replies) :
    w.flushRequests =
      .ok { w with numbering := some n' } (replies.map fun r => .send r.1 (.reply r.2)) := by
  simp only [flushRequests, withNumbering, hw, lift, hf, Outcome.mapState_ok, Outcome.mapError_ok,
    Outcome.map_ok]

theorem reorder_eq {start : Nat} {asked : IdMap (List Nat)} {n'' : Numbering}
    {requests : List (Nat × List Nat)} {replies : List (Nat × List (Nat × Nat))}
    (hp : w.phase = .flattening) (hk : ∀ q ∈ asked.keys, q < w.pes) (hw : w.numbering = some n)
    (hb : n.begin w.rank start asked = .ok n' requests) (hf : n'.flush = .ok n'' replies) :
    w.reorder start asked =
      .ok (checkReordered { w with phase := .reordering, numbering := some n'' })
        (requests.map (fun r => .send r.1 (.request r.2)) ++
          replies.map fun r => .send r.1 (.reply r.2)) := by
  have hkeys : ¬ asked.keys.any (w.pes ≤ ·) = true := by simpa using hk
  simp only [reorder, inPhase, hp, if_neg hkeys, ↓reduceIte, withNumbering, hw, lift, hb,
    Outcome.mapState_ok, Outcome.mapError_ok, Outcome.map_ok, Outcome.append_ok]
  rw [flushRequests_eq rfl hf]
  simp

theorem reply_eq {source : Nat} {pairs : List (Nat × Nat)} (hp : w.phase = .reordering)
    (hw : w.numbering = some n) (hr : n.resolve source pairs = .ok n' ()) :
    w.reply source pairs = .ok (checkReordered { w with numbering := some n' }) [] := by
  simp only [reply, inPhase, hp, ↓reduceIte, withNumbering, hw, lift, hr, Outcome.mapState_ok,
    Outcome.mapError_ok, Outcome.bind_ok]

theorem dispatch_peer {source : Nat} (m : PeerMessage) (h : source < w.pes)
    (hne : source ≠ w.rank) : w.dispatch (.peer source m) = w.receive source m := by
  rw [dispatch, if_neg]
  intro hcases
  rcases hcases with hle | he
  · exact absurd h (Nat.not_lt.2 hle)
  · exact hne he

end Worker

namespace Scenario

variable {S : Scenario} {pe s q : Nat} {v : View}

/-! ### Numbering and bounds -/

/-- A rank that knows all nodes of its work units and begins to number them. -/
structure Numbers (S : Scenario) (pe : Nat) (v : View) : Prop where
  answered : S.Answered
  lt : pe < S.pes
  partitioned : v.partitioned = true
  flattened : v.flattened = true
  supplied : S.Supplied pe (pe :: v.adds)
  nodup : v.replies.Nodup
  ne : pe ∉ v.replies
  pos : v.lowered = true → 0 < pe

namespace Numbers

theorem covers (h : S.Numbers pe v) : Sharing.Covers S.used S.sets :=
  h.answered.covers (Nat.zero_lt_of_lt h.lt)

theorem newId? (h : S.Numbers pe v) (hc : S.Complete pe v) {x : Nat} (hx : x ∈ S.nodes pe) :
    (S.numbering pe v.reordered v.requests v.replies).newId? x = some (S.newId x) := by
  rw [hc.1, newId?_numbering, if_pos]
  refine mem_known.2 ⟨hx, or_iff_not_imp_left.2 fun hne => hc.2 _ ?_⟩
  exact (mem_keys_asked h.lt).2 ⟨hne, List.ne_nil_of_mem (mem_held.2 ⟨hx, rfl⟩)⟩

end Numbers

/-- A rank whose nodes all have new ids, before it looks for its bounds. -/
def bounding (S : Scenario) (pe : Nat) (v : View) : Worker :=
  { S.worker pe v with
    phase := .bounding
    built := S.unitsOf pe
    highest := S.highest pe
    earlyLower := none
    lower := if pe = 0 ∨ v.lowered = true then some (S.lower pe) else none
    upper := none
    cost := none }

theorem settle_bounding (h : S.Numbers pe v) (hc : S.Complete pe v) (hcl : v.closed = false) :
    (Worker.settleBounds (S.bounding pe v)).append Worker.drain =
      .ok (S.worker pe v) (if S.Settled pe v then S.outcome pe else []) := by
  by_cases hl : pe = 0 ∨ v.lowered = true
  · have hs : S.Settled pe v := ⟨hc, hl⟩
    have hcost : Worker.costOf (S.numbering pe v.reordered v.requests v.replies) (S.bounds pe) =
        S.cost pe := costOf_eq rfl fun x hx => h.newId? hc hx
    have hblock : (S.numbering pe v.reordered v.requests v.replies).block = S.block pe := by
      simp [numbering, hc.1]
    have hup : (if pe + 1 = S.pes then max (max (S.highest pe + 1) (S.block pe).stop) (S.lower pe)
        else max (S.highest pe) (S.lower pe)) = S.upper pe := rfl
    have hbounds : (⟨S.lower pe, S.upper pe⟩ : Span) = S.bounds pe := rfl
    have htry : (S.bounding pe v).tryBounds =
        ({ S.worker pe v with
            phase := .bounding, built := S.unitsOf pe, completions := [.bounding] },
          if pe + 1 = S.pes then [] else [.send (pe + 1) (.lower (S.upper pe))]) := by
      simp only [Worker.tryBounds, bounding, worker, hl, hs, hc, h.flattened, hblock, ↓reduceIte,
        not_true_eq_false, and_false, hup, hbounds, hcost, List.nil_append]
    rw [Worker.settleBounds, htry, Outcome.append_ok, Worker.drain_of_cons rfl]
    simp only [Worker.complete, Worker.hand, Outcome.append_ok]
    rw [Worker.drain_of_nil rfl]
    simp only [Worker.bounds, worker, hs, hc, ↓reduceIte, Option.toList_some, List.map_cons,
      List.map_nil, Option.getD_some, phase, hcl, not_true_eq_false, and_false, Outcome.map_ok,
      outcome, List.append_nil, Bool.false_eq_true]
    rfl
  · have hs : ¬ S.Settled pe v := fun hs => hl hs.2
    have htry : (S.bounding pe v).tryBounds = (S.bounding pe v, []) := by
      simp only [Worker.tryBounds, bounding, if_neg hl]
    have hw : S.bounding pe v = S.worker pe v := by
      simp [bounding, worker, phase, hl, hs, hc, hcl]
    rw [Worker.settleBounds, htry, Outcome.append_ok, hw, Worker.drain_of_nil rfl, if_neg hs]
    rfl

/-- A rank that has begun to number, before it notices that all nodes have new ids. -/
def renumbering (S : Scenario) (pe : Nat) (v : View) : Worker :=
  { S.worker pe v with
    phase := .reordering
    built := []
    highest := 0
    earlyLower := if v.lowered = true then some (S.lower pe) else none
    lower := none
    upper := none
    cost := none }

/-- Once a rank has begun to number, it goes on as far as it can by itself. -/
theorem drain_renumbering (h : S.Numbers pe v) (hr : v.reordered = true) (hcl : v.closed = false) :
    (S.renumbering pe v).checkReordered.drain =
      .ok (S.worker pe v) (if S.Settled pe v then S.outcome pe else []) := by
  have hcomplete : (S.renumbering pe v).numbering.any Numbering.complete = true ↔
      S.Complete pe v := by
    simp only [renumbering, worker, h.flattened, ↓reduceIte, Option.any_some, hr, Complete,
      true_and]
    exact complete_numbering h.lt h.nodup h.ne
  by_cases hc : S.Complete pe v
  · have hcheck : (S.renumbering pe v).checkReordered =
        { S.renumbering pe v with completions := [.reordering] } := by
      rw [Worker.checkReordered, if_pos ⟨rfl, hcomplete.2 hc, rfl⟩]
      rfl
    rw [hcheck, Worker.drain_of_cons rfl, ← settle_bounding h hc hcl]
    have hbuild : ∀ w : Worker, w.table = S.table pe (pe :: v.adds) → w.rank = pe →
        w.pes = S.pes → w.buildUnits (S.numbering pe v.reordered v.requests v.replies) S.units =
          .ok (S.unitsOf pe) := fun w ht hrank hpes =>
      buildUnits_eq h.supplied h.answered h.lt ht hrank hpes fun x hx => h.newId? hc hx
    simp only [Worker.complete, Worker.enterBounding, renumbering, worker, h.partitioned,
      h.flattened, ↓reduceIte]
    rw [hbuild _ rfl rfl rfl]
    congr 1
    simp only [bounding, worker, h.partitioned, h.flattened, ↓reduceIte]
    by_cases h0 : pe = 0
    · subst h0
      have hl : v.lowered = false := by
        rw [Bool.eq_false_iff]
        exact fun hl => Nat.lt_irrefl 0 (h.pos hl)
      simp [hl, lower, highest]
    · cases hl : v.lowered <;> simp [h0, highest]
  · have hs : ¬ S.Settled pe v := not_settled hc
    have hcheck : (S.renumbering pe v).checkReordered = S.renumbering pe v := by
      rw [Worker.checkReordered, if_neg]
      exact fun hall => hc (hcomplete.1 hall.2.1)
    have hw : S.renumbering pe v = S.worker pe v := by
      simp [renumbering, worker, phase, hs, hc, hr, hcl]
    rw [hcheck, hw, Worker.drain_of_nil rfl, if_neg hs]

/-! ### Messages -/

theorem handle_reorder (h : S.Numbers pe v) (hr : v.reordered = false) (hp : v.replies = [])
    (hcl : v.closed = false) (hq : ∀ s ∈ v.requests, s < S.pes) :
    (S.worker pe v).handle (.command (.reorder (S.start pe) (S.asked pe))) =
      .ok (S.worker pe { v with reordered := true })
        (((S.asked pe).keys.map fun q => .send q (.request (S.held pe q))) ++
          (v.requests.map fun s => .send s (.reply (S.replyTo s pe))) ++
            if S.Settled pe { v with reordered := true } then S.outcome pe else []) := by
  have hc : ¬ S.Complete pe v := not_complete hr
  have hset : ¬ S.Settled pe v := not_settled hc
  have hphase : (S.worker pe v).phase = .flattening := by
    simp [worker, phase, hset, hc, hr, hcl, h.flattened]
  have hnum : (S.worker pe v).numbering = some (S.numbering pe false v.requests []) := by
    simp [worker, h.flattened, hr, hp]
  have hstep := Worker.reorder_eq hphase
    (fun q hq => (lt_of_mem_keys_asked h.lt hq).trans h.lt) hnum
    (begin_numbering h.lt h.covers) (@flush_numbering S pe v.requests [] h.lt h.covers hq)
  have hw : ({ S.worker pe v with
      phase := .reordering, numbering := some (S.numbering pe true [] []) } : Worker) =
      S.renumbering pe { v with reordered := true } := by
    simp only [renumbering, worker, hc, hset, h.flattened, hp, ↓reduceIte, and_true,
      not_false_eq_true]
    rfl
  have hdrain := drain_renumbering (v := { v with reordered := true }) ⟨h.answered, h.lt,
    h.partitioned, h.flattened, h.supplied, h.nodup, h.ne, h.pos⟩ rfl hcl
  rw [hw] at hstep
  rw [Worker.handle, Worker.dispatch, Worker.obey, hstep, Outcome.append_ok, hdrain,
    Outcome.map_ok, List.map_map, List.map_map]
  rfl

theorem handle_request (h : S.Numbers pe v) (hs : s < S.pes) (hne : s ≠ pe) :
    (S.worker pe v).handle (.peer s (.request (S.held s pe))) =
      .ok (S.worker pe { v with requests := v.requests ++ [s] })
        (if v.reordered then [.send s (.reply (S.replyTo s pe))] else []) := by
  have hnum : (S.worker pe v).numbering =
      some (S.numbering pe v.reordered v.requests v.replies) := by simp [worker, h.flattened]
  have hflush : ((S.numbering pe v.reordered v.requests v.replies).push s (S.held s pe)).flush =
      .ok (S.numbering pe v.reordered (v.requests ++ [s]) v.replies)
        (if v.reordered then [(s, S.replyTo s pe)] else []) := by
    cases hr : v.reordered with
    | false => simp [Numbering.push, Numbering.flush, numbering]
    | true =>
      exact @flush_numbering S pe [s] v.replies h.lt h.covers (List.forall_mem_singleton.2 hs)
  have hw : ({ S.worker pe v with
      numbering := some (S.numbering pe v.reordered (v.requests ++ [s]) v.replies) } : Worker) =
      S.worker pe { v with requests := v.requests ++ [s] } := by
    have hnew : (S.worker pe { v with requests := v.requests ++ [s] }).numbering =
        some (S.numbering pe v.reordered (v.requests ++ [s]) v.replies) := by
      simp [worker, h.flattened]
    rw [← hnew]
    rfl
  refine Worker.handle_of_dispatch ?_ rfl
  rw [Worker.dispatch_peer _ hs hne, Worker.receive, Worker.request, Worker.withNumbering, hnum]
  dsimp only
  rw [Worker.flushRequests_eq rfl hflush, ← hw]
  cases v.reordered <;> rfl

theorem handle_reply (h : S.Numbers pe v) (hr : v.reordered = true) (hcl : v.closed = false)
    (hq : q ∈ (S.asked pe).keys) (hnew : q ∉ v.replies) :
    (S.worker pe v).handle (.peer q (.reply (S.replyTo pe q))) =
      .ok (S.worker pe { v with replies := v.replies ++ [q] })
        (if S.Settled pe { v with replies := v.replies ++ [q] } then S.outcome pe else []) := by
  have hlt : q < pe := lt_of_mem_keys_asked h.lt hq
  have hc : ¬ S.Complete pe v := fun hc => hnew (hc.2 q hq)
  have hset : ¬ S.Settled pe v := not_settled hc
  have hphase : (S.worker pe v).phase = .reordering := by
    simp [worker, phase, hset, hc, hr, hcl]
  have hnum : (S.worker pe v).numbering =
      some (S.numbering pe true v.requests v.replies) := by simp [worker, h.flattened, hr]
  have hw : ({ S.worker pe v with
      numbering := some (S.numbering pe true v.requests (v.replies ++ [q])) } : Worker) =
      S.renumbering pe { v with replies := v.replies ++ [q] } := by
    simp only [renumbering, ← hphase]
    simp only [worker, hc, hset, h.flattened, hr, ↓reduceIte, and_true, not_false_eq_true]
  have hdrain := drain_renumbering (v := { v with replies := v.replies ++ [q] }) ⟨h.answered, h.lt,
    h.partitioned, h.flattened, h.supplied, by simpa using List.Nodup.concat hnew h.nodup,
    by simpa using ⟨h.ne, Nat.ne_of_gt hlt⟩, h.pos⟩ hr hcl
  rw [Worker.handle, Worker.dispatch_peer _ (hlt.trans h.lt) (Nat.ne_of_lt hlt), Worker.receive,
    Worker.reply_eq hphase hnum (resolve_numbering h.lt hq hnew), hw, Outcome.append_ok, hdrain]
  rfl

theorem handle_lower (h : S.Numbers pe v) (hl : v.lowered = false) (hcl : v.closed = false)
    (hpe : q + 1 = pe) :
    (S.worker pe v).handle (.peer q (.lower (S.upper q))) =
      .ok (S.worker pe { v with lowered := true })
        (if S.Settled pe { v with lowered := true } then S.outcome pe else []) := by
  have hne : pe ≠ 0 := by omega
  have hset : ¬ S.Settled pe v := fun hs => hs.2.elim hne fun h => by simp [hl] at h
  have hlower : S.upper q = S.lower pe := by rw [← hpe]; rfl
  have hnumbers : S.Numbers pe { v with lowered := true } := ⟨h.answered, h.lt, h.partitioned,
    h.flattened, h.supplied, h.nodup, h.ne, fun _ => Nat.pos_of_ne_zero hne⟩
  rw [Worker.handle, Worker.dispatch_peer _ (by have := h.lt; simp only [worker]; omega)
    (by simp only [worker]; omega), Worker.receive, hlower]
  by_cases hc : S.Complete pe v
  · have hreceive : (S.worker pe v).receiveLower q (S.lower pe) =
        Worker.settleBounds (S.bounding pe { v with lowered := true }) := by
      have hw : ({ S.worker pe v with lower := some (S.lower pe) } : Worker) =
          S.bounding pe { v with lowered := true } := by
        have hc' : S.Complete pe { v with lowered := true } := hc
        simp only [bounding, worker, phase, hcl, hset, hc, hl, ↓reduceIte, or_true,
          Bool.false_eq_true, false_and, and_self, not_false_eq_true]
      have hphase : (S.worker pe v).phase = .bounding := by
        simp [worker, phase, hset, hc, hcl]
      have hlt : ¬ (S.worker pe v).phase < Phase.bounding := by rw [hphase]; decide
      rw [Worker.receiveLower, if_neg (by simp [worker, hpe]), if_neg (by simp [worker, hset, hl]),
        if_neg hlt, if_pos hphase]
      exact congrArg Worker.settleBounds hw
    rw [hreceive]
    exact settle_bounding hnumbers hc hcl
  · have hset' : ¬ S.Settled pe { v with lowered := true } := not_settled hc
    have hc' : ¬ S.Complete pe { v with lowered := true } := hc
    have hphase : (S.worker pe v).phase < Phase.bounding := by
      simp only [worker, phase, hset, hc, hcl, h.flattened, ↓reduceIte, Bool.false_eq_true]
      cases v.reordered <;> decide
    have hw : ({ S.worker pe v with earlyLower := some (S.lower pe) } : Worker) =
        S.worker pe { v with lowered := true } := by
      simp only [worker, phase, hset, hset', hc, hc', ↓reduceIte]
      simp
    rw [Worker.receiveLower, if_neg (by simp [worker, hpe]), if_neg (by simp [worker, hset, hl]),
      if_pos hphase, hw, Outcome.append_ok, Worker.drain_of_nil rfl, if_neg hset']
    rfl

theorem handle_deviation (hs : S.Settled pe v) (hcl : v.closed = false) :
    (S.worker pe v).handle (.command (.deviation S.meanCost)) =
      .ok (S.worker pe { v with closed := true }) [.contribute (.deviation (S.deviation pe))] := by
  have hphase : (S.worker pe v).phase = .creating := by simp [worker, phase, hs, hcl]
  have hcost : (S.worker pe v).cost = some (S.cost pe) := by simp [worker, hs]
  have hw : ({ S.worker pe v with phase := .done } : Worker) =
      S.worker pe { v with closed := true } := by
    simp only [worker, phase, ↓reduceIte]
    rfl
  refine Worker.handle_of_dispatch ?_ rfl
  rw [Worker.dispatch, Worker.obey, Worker.deviation, Worker.inPhase, if_pos hphase, hw, hcost]
  rfl

end Scenario

end MeshDecomp
