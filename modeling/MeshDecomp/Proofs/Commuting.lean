import MeshDecomp.Proofs.Overlooked

/-!
Messages of different peers commute: a processing element that accepts two of them in either order
ends alike.
-/

namespace MeshDecomp

theorem IdMap.insert_comm {α : Type} {j k : Nat} (h : j ≠ k) (m : IdMap α) (x y : α) :
    (m.insert j x).insert k y = (m.insert k y).insert j x := by
  refine ext fun i => ?_
  simp only [get?_insert]
  by_cases hj : i = j
  · rw [if_pos hj, if_neg (hj ▸ h), if_pos hj]
  · rw [if_neg hj, if_neg hj]

/-- New ids of different nodes. -/
theorem IdMap.insertAll_comm {α : Type} {l m : List (Nat × α)}
    (h : ∀ k ∈ l.map Prod.fst, k ∉ m.map Prod.fst) (t : IdMap α) :
    (t.insertAll l).insertAll m = (t.insertAll m).insertAll l := by
  refine ext fun k => ?_
  by_cases hl : k ∈ l.map Prod.fst
  · rw [get?_insertAll_of_not_mem (h k hl), get?_insertAll, get?_insertAll,
      get?_insertAll_of_not_mem (h k hl)]
  · rw [get?_insertAll_of_not_mem (l := l) hl, get?_insertAll,
      get?_insertAll_of_not_mem (l := l) hl, get?_insertAll]

theorem Numbering.taking_comm {n : Numbering} {pairs more : List (Nat × Nat)}
    (h : (n.taking pairs).Fresh more) (hp : n.Fresh pairs) :
    (n.taking pairs).taking more = (n.taking more).taking pairs := by
  have hnew : ∀ x ∈ pairs.map Prod.fst, x ∉ more.map Prod.fst := by
    intro x hx hm
    obtain ⟨e, he, rfl⟩ := List.mem_map.1 hx
    cases (newId?_taking_of_mem hp.nodup he).symm.trans (h.unnumbered _ hm)
  exact congrArg (fun newIds => { n with newIds }) (IdMap.insertAll_comm hnew n.newIds)

/-- The requests that wait once another one has come, if it is accepted. -/
def Numbering.inboxWith (n : Numbering) (a : Nat × List Nat) : List (Nat × List Nat) :=
  if n.begun then [] else n.inbox ++ [a]

/-- The answers that another request brings about, if it is accepted. -/
def Numbering.repliesWith (n : Numbering) (a : Nat × List Nat) : List Action :=
  if n.begun then (n.inbox ++ [a]).map n.sendAnswer else []

theorem Numbering.inboxWith_swap (n : Numbering) (a b : Nat × List Nat) :
    (inboxWith { n with inbox := n.inboxWith a } b).Perm
      (inboxWith { n with inbox := n.inboxWith b } a) := by
  unfold inboxWith
  dsimp only
  split
  · exact .refl _
  · exact perm_append_swap n.inbox a b

/-- The requests that have waited are answered with the first of two. -/
theorem Numbering.repliesWith_swap (n : Numbering) (a b : Nat × List Nat) :
    (n.repliesWith a ++ repliesWith { n with inbox := n.inboxWith a } b).Perm
      (n.repliesWith b ++ repliesWith { n with inbox := n.inboxWith b } a) := by
  unfold repliesWith inboxWith
  dsimp only
  split
  · simp only [List.map_append, List.nil_append, List.map_cons, List.map_nil]
    exact perm_append_swap (n.inbox.map n.sendAnswer) (n.sendAnswer a) (n.sendAnswer b)
  · exact .refl _

/-- What can be answered is answered alike once there are more new ids. -/
theorem Numbering.repliesWith_taking {n : Numbering} {pairs : List (Nat × Nat)}
    {a : Nat × List Nat} (h : n.Fresh pairs)
    (hserves : n.begun = true → ∀ b ∈ n.inbox ++ [a], n.Serves b.2) :
    (n.taking pairs).repliesWith a = n.repliesWith a := by
  unfold repliesWith
  by_cases hb : n.begun = true
  · rw [if_pos hb, if_pos (show (n.taking pairs).begun = true from hb)]
    refine List.map_congr_left fun b hmem => ?_
    have hids : ∀ x ∈ b.2, (n.taking pairs).newId? x = n.newId? x := by
      intro x hx
      refine newId?_taking_of_not_mem fun hp => ?_
      obtain ⟨y, -, hy⟩ := hserves hb b hmem x hx
      cases hy.symm.trans (h.unnumbered x hp)
    exact congrArg (fun l => Action.send b.1 (.reply l))
      (List.map_congr_left fun x hx => by rw [hids x hx])
  · rw [if_neg hb, if_neg (show ¬(n.taking pairs).begun = true from hb)]

namespace Worker

theorem record_comm {s s' : Nat} (h : s ≠ s') (t : IdMap (IdMap (List Nat))) (u u' : Nat)
    (x y : List Nat) :
    record (record t u s x) u' s' y = record (record t u' s' y) u s x := by
  refine IdMap.ext fun k => ?_
  simp only [record, IdMap.get?_alter]
  by_cases hu : u = u'
  · subst hu
    by_cases hk : k = u
    · simp only [if_pos hk, ↓reduceIte, Option.getD_some, IdMap.insert_comm h]
    · simp only [if_neg hk]
  · rw [if_neg hu, if_neg (Ne.symm hu)]
    by_cases hk : k = u
    · rw [if_neg (hk ▸ hu), if_pos hk, if_pos hk]
    · rw [if_neg hk, if_neg hk]

/-- Work units of different sources have different places in the table. -/
theorem stow_comm {s s' : Nat} (h : s ≠ s') (t : IdMap (IdMap (List Nat)))
    (x y : IdMap (List Nat)) : stow (stow t s x) s' y = stow (stow t s' y) s x := by
  have hentry : ∀ (t : IdMap (IdMap (List Nat))) (e : Nat × List Nat),
      record (stow t s x) e.1 s' e.2 = stow (record t e.1 s' e.2) s x := fun t e =>
    (List.foldl_hom (fun t => record t e.1 s' e.2) fun t e' =>
      record_comm (Ne.symm h) t e.1 e'.1 e.2 e'.2).symm
  exact List.foldl_hom (fun t => stow t s x) hentry

/-! ### Two messages -/

variable {w u v : Worker} {as bs : List Action}

/-- The requests that wait for an answer. -/
def waiting (w : Worker) : List (Nat × List Nat) := (w.numbering.map Numbering.inbox).getD []

/-- All but the work units that are parked and the requests that wait. -/
def unqueued (w : Worker) : Worker :=
  { w with parked := [], numbering := w.numbering.map fun n => { n with inbox := [] } }

/-- The same but for the order of the work units that are parked and of the requests that wait. -/
structure Alike (u v : Worker) : Prop where
  parked : u.parked.Perm v.parked
  waiting : u.waiting.Perm v.waiting
  unqueued : u.unqueued = v.unqueued

theorem Alike.refl (u : Worker) : u.Alike u := ⟨.refl _, .refl _, rfl⟩

theorem Alike.symm (h : u.Alike v) : v.Alike u := ⟨h.parked.symm, h.waiting.symm, h.unqueued.symm⟩

theorem alike_of_inbox {n : Numbering} (hn : w.numbering = some n)
    {l m : List (Nat × List Nat)} (h : l.Perm m) :
    (w.withMail id fun _ => l).Alike (w.withMail id fun _ => m) := by
  obtain ⟨⟩ := w
  obtain rfl := hn
  exact ⟨.refl _, h, rfl⟩

/-- Both messages are accepted one after the other. -/
def Receipts (w : Worker) (q : Nat) (m : PeerMessage) (r : Nat) (k : PeerMessage) (u : Worker)
    (as : List Action) : Prop :=
  ∃ s out more, w.Receipt q m s out ∧ s.Receipt r k u more ∧ as = out ++ more

/-- In either order, two messages lead to the same. -/
def Commute (w : Worker) (q : Nat) (m : PeerMessage) (r : Nat) (k : PeerMessage) : Prop :=
  ∀ u v as bs, w.Receipts q m r k u as → w.Receipts r k q m v bs → u.Alike v ∧ as.Perm bs

theorem Commute.symm {q r : Nat} {m k : PeerMessage} (h : w.Commute q m r k) :
    w.Commute r k q m := by
  intro u v as bs hu hv
  obtain ⟨halike, hperm⟩ := h v u bs as hv hu
  exact ⟨halike.symm, hperm.symm⟩

variable {q r : Nat} {m k : PeerMessage} {x y : IdMap (List Nat)} {nodes others : List Nat}

/-! ### Each message in closed form -/

theorem Receipt.parked (h : w.Receipt q (.add x) u as) (hu : w.units = none) :
    u = { w with parked := w.parked ++ [(q, x)] } ∧ as = [] := by
  cases h with
  | parks => exact ⟨rfl, rfl⟩
  | merges _ hne => exact absurd hu hne

theorem Receipt.merged (h : w.Receipt q (.add x) u as) (hu : w.units ≠ none) :
    u = { w.withBooks w.books.checked with table := stow w.table q x } ∧
      as = .send q .ack :: w.books.report := by
  cases h with
  | parks _ hnone => exact absurd hnone hu
  | merges => exact ⟨rfl, rfl⟩

theorem Receipt.acked (h : w.Receipt q .ack u as) : 0 < w.pendingAcks ∧
    u = w.withMail (fun b => b.acknowledged.checked) id ∧ as = w.books.acknowledged.report := by
  cases h with
  | acknowledged hpos =>
    exact ⟨hpos, (withMail_id_right fun b => b.acknowledged.checked).symm, rfl⟩

theorem Receipt.early (h : w.Receipt q (.add x) u as) : w.phase ≤ .partitioning := by
  cases h <;> assumption

theorem Receipt.numbered {pairs : List (Nat × Nat)} (h : w.Receipt q (.reply pairs) u as) :
    ∃ n, w.numbering = some n ∧ n.Fresh pairs ∧
      (checkReordered { w with numbering := some (n.taking pairs) }).drain = .ok u as := by
  cases h with
  | numbers _ hn hfresh hdrain => exact ⟨_, hn, hfresh, hdrain⟩

theorem Receipt.reordering {pairs : List (Nat × Nat)} (h : w.Receipt q (.reply pairs) u as) :
    w.phase = .reordering := by
  cases h
  assumption

theorem Receipt.unbounded {bound : Nat} (h : w.Receipt q (.lower bound) u as) :
    w.lower = none ∧ w.earlyLower = none := by
  cases h <;> exact ⟨‹_›, ‹_›⟩

theorem Receipt.before {bound : Nat} (h : w.Receipt q (.lower bound) u as) : q + 1 = w.rank := by
  cases h <;> assumption

theorem Receipt.held {bound : Nat} (h : w.Receipt q (.lower bound) u as)
    (hp : w.phase ≠ .bounding) : u = { w with earlyLower := some bound } ∧ as = [] := by
  cases h with
  | holds => exact ⟨rfl, rfl⟩
  | settles _ _ _ hb => exact absurd hb hp

theorem Receipt.asked (h : w.Receipt q (.request nodes) u as) :
    ∃ n, w.numbering = some n ∧ u = w.withMail id (fun _ => n.inboxWith (q, nodes)) ∧
      as = n.repliesWith (q, nodes) ∧
      (n.begun = true → ∀ a ∈ n.inbox ++ [(q, nodes)], n.Serves a.2) := by
  cases h with
  | @waits _ n hn hb =>
    refine ⟨n, hn, ?_, ?_, fun ht => by cases hb.symm.trans ht⟩
    · rw [withMail_of_numbering hn, Numbering.inboxWith, if_neg (Bool.eq_false_iff.1 hb)]
      rfl
    · rw [Numbering.repliesWith, if_neg (Bool.eq_false_iff.1 hb)]
  | @answers _ n hn hb hserves =>
    refine ⟨n, hn, ?_, ?_, fun _ => hserves⟩
    · rw [withMail_of_numbering hn, Numbering.inboxWith, if_pos hb]
    · rw [Numbering.repliesWith, if_pos hb]

/-! ### New ids and lower bounds against acknowledgments and requests -/

theorem commute_ack_completing (hk : Completing k) : w.Commute q .ack r k := by
  rintro u v as bs ⟨s, out, more, hs, hu, rfl⟩ ⟨t, out', more', ht, hv, rfl⟩
  obtain ⟨-, rfl, rfl⟩ := hs.acked
  obtain ⟨-, rfl, rfl⟩ := hv.acked
  obtain ⟨rfl, rfl⟩ := ht.withMail_eq hk hu
  rw [ht.books_eq hk]
  exact ⟨.refl _, List.perm_append_comm⟩

theorem commute_request_completing (hk : Completing k) : w.Commute q (.request nodes) r k := by
  rintro u v as bs ⟨s, out, more, hs, hu, rfl⟩ ⟨t, out', more', ht, hv, rfl⟩
  obtain ⟨n, hn, rfl, rfl, hserves⟩ := hs.asked
  obtain ⟨rfl, rfl⟩ := ht.withMail_eq hk hu
  obtain ⟨pairs, hfresh, ht⟩ := ht.numbering_eq hk hn
  obtain ⟨n', hn', rfl, rfl, -⟩ := hv.asked
  obtain rfl := Option.some.inj (ht.symm.trans hn')
  rw [Numbering.repliesWith_taking hfresh hserves]
  exact ⟨.refl _, List.perm_append_comm⟩

/-! ### Work units, acknowledgments and requests -/

theorem Books.checked_checked (b : Books) : b.checked.checked = b.checked := by
  simp only [Books.checked, Books.mk.injEq, true_and]
  grind

theorem Books.report_checked (b : Books) : b.checked.report = [] := by
  simp only [Books.report, Books.checked]
  grind

/-- As long as an acknowledgment is outstanding, there is nothing to report. -/
theorem Books.checked_of_pending {b : Books} (h : 0 < b.pendingAcks) :
    b.checked = b ∧ b.report = [] := by
  obtain ⟨partitioned, pendingAcks, distributed⟩ := b
  simp only [Books.report, Books.checked, Books.mk.injEq, true_and]
  grind

theorem commute_add_add (h : q ≠ r) : w.Commute q (.add x) r (.add y) := by
  rintro u v as bs ⟨s, out, more, hs, hu, rfl⟩ ⟨t, out', more', ht, hv, rfl⟩
  by_cases hunits : w.units = none
  · obtain ⟨rfl, rfl⟩ := hs.parked hunits
    obtain ⟨rfl, rfl⟩ := ht.parked hunits
    obtain ⟨rfl, rfl⟩ := hu.parked hunits
    obtain ⟨rfl, rfl⟩ := hv.parked hunits
    exact ⟨⟨perm_append_swap w.parked (q, x) (r, y), .refl _, rfl⟩, .refl _⟩
  · obtain ⟨rfl, rfl⟩ := hs.merged hunits
    obtain ⟨rfl, rfl⟩ := ht.merged hunits
    obtain ⟨rfl, rfl⟩ := hu.merged hunits
    obtain ⟨rfl, rfl⟩ := hv.merged hunits
    constructor
    · change Alike { w.withBooks w.books.checked.checked with table := _ }
        { w.withBooks w.books.checked.checked with table := _ }
      rw [stow_comm h]
      exact .refl _
    · change (_ :: w.books.report ++ _ :: w.books.checked.report).Perm
        (_ :: w.books.report ++ _ :: w.books.checked.report)
      rw [Books.report_checked]
      exact perm_swap_ends _ _ _

theorem commute_add_ack : w.Commute q (.add x) r .ack := by
  rintro u v as bs ⟨s, out, more, hs, hu, rfl⟩ ⟨t, out', more', ht, hv, rfl⟩
  obtain ⟨hpos, rfl, rfl⟩ := ht.acked
  obtain ⟨-, rfl, rfl⟩ := hu.acked
  by_cases hunits : w.units = none
  · obtain ⟨rfl, rfl⟩ := hs.parked hunits
    obtain ⟨rfl, rfl⟩ := hv.parked hunits
    refine ⟨.refl _, ?_⟩
    rw [List.append_nil]
    exact .refl _
  · obtain ⟨rfl, rfl⟩ := hs.merged hunits
    obtain ⟨rfl, rfl⟩ := hv.merged hunits
    obtain ⟨hsame, hnone⟩ := Books.checked_of_pending (b := w.books) hpos
    constructor
    · change Alike (withMail _ id { w.withBooks w.books.checked with table := _ })
        { withBooks _ w.books.acknowledged.checked.checked with table := _ }
      rw [hsame, Books.checked_checked]
      exact .refl _
    · change (_ :: w.books.report ++ w.books.checked.acknowledged.report).Perm
        (w.books.acknowledged.report ++ _ :: w.books.acknowledged.checked.report)
      rw [hsame, hnone, Books.report_checked]
      exact List.perm_append_comm

theorem commute_add_request : w.Commute q (.add x) r (.request nodes) := by
  rintro u v as bs ⟨s, out, more, hs, hu, rfl⟩ ⟨t, out', more', ht, hv, rfl⟩
  obtain ⟨n, hn, rfl, rfl, -⟩ := ht.asked
  obtain ⟨n', hn', rfl, rfl, -⟩ := hu.asked
  by_cases hunits : w.units = none
  · obtain ⟨rfl, rfl⟩ := hs.parked hunits
    obtain ⟨rfl, rfl⟩ := hv.parked hunits
    obtain rfl := Option.some.inj (hn.symm.trans hn')
    exact ⟨.refl _, List.perm_append_comm⟩
  · obtain ⟨rfl, rfl⟩ := hs.merged hunits
    obtain ⟨rfl, rfl⟩ := hv.merged hunits
    obtain rfl := Option.some.inj (hn.symm.trans hn')
    exact ⟨.refl _, List.perm_append_comm⟩

/-- New ids come only when no work units do any more. -/
theorem commute_add_reply {pairs : List (Nat × Nat)} : w.Commute q (.add x) r (.reply pairs) := by
  rintro u v as bs ⟨s, out, more, hs, -, rfl⟩ ⟨t, out', more', ht, -, rfl⟩
  cases ht with
  | numbers hp => exact absurd (hp ▸ hs.early) (by decide)

theorem commute_add_lower {bound : Nat} : w.Commute q (.add x) r (.lower bound) := by
  rintro u v as bs ⟨s, out, more, hs, hu, rfl⟩ ⟨t, out', more', ht, hv, rfl⟩
  have hp : w.phase ≠ .bounding := fun hp => absurd (hp ▸ hs.early) (by decide)
  obtain ⟨rfl, rfl⟩ := ht.held hp
  by_cases hunits : w.units = none
  · obtain ⟨rfl, rfl⟩ := hs.parked hunits
    obtain ⟨rfl, rfl⟩ := hv.parked hunits
    obtain ⟨rfl, rfl⟩ := hu.held hp
    exact ⟨.refl _, .refl _⟩
  · obtain ⟨rfl, rfl⟩ := hs.merged hunits
    obtain ⟨rfl, rfl⟩ := hv.merged hunits
    obtain ⟨rfl, rfl⟩ := hu.held hp
    exact ⟨.refl _, List.perm_append_comm⟩

theorem commute_ack_ack : w.Commute q .ack r .ack := by
  rintro u v as bs ⟨s, out, more, hs, hu, rfl⟩ ⟨t, out', more', ht, hv, rfl⟩
  obtain ⟨-, rfl, rfl⟩ := hs.acked
  obtain ⟨-, rfl, rfl⟩ := ht.acked
  obtain ⟨-, rfl, rfl⟩ := hu.acked
  obtain ⟨-, rfl, rfl⟩ := hv.acked
  exact ⟨.refl _, .refl _⟩

theorem commute_ack_request : w.Commute q .ack r (.request nodes) := by
  rintro u v as bs ⟨s, out, more, hs, hu, rfl⟩ ⟨t, out', more', ht, hv, rfl⟩
  obtain ⟨-, rfl, rfl⟩ := hs.acked
  obtain ⟨-, rfl, rfl⟩ := hv.acked
  obtain ⟨n, hn, rfl, rfl, -⟩ := ht.asked
  obtain ⟨n', hn', rfl, rfl, -⟩ := hu.asked
  obtain rfl : n = n' := Option.some.inj ((congrArg (Option.map _) hn).symm.trans hn')
  rw [withMail_withMail, withMail_withMail]
  exact ⟨.refl _, List.perm_append_comm⟩

theorem commute_request_request : w.Commute q (.request nodes) r (.request others) := by
  rintro u v as bs ⟨s, out, more, hs, hu, rfl⟩ ⟨t, out', more', ht, hv, rfl⟩
  obtain ⟨n, hn, rfl, rfl, -⟩ := hs.asked
  obtain ⟨n', hn', rfl, rfl, -⟩ := ht.asked
  obtain rfl := Option.some.inj (hn.symm.trans hn')
  obtain ⟨n₁, hn₁, rfl, rfl, -⟩ := hu.asked
  obtain ⟨n₂, hn₂, rfl, rfl, -⟩ := hv.asked
  obtain rfl := Option.some.inj ((congrArg (Option.map _) hn).symm.trans hn₁)
  obtain rfl := Option.some.inj ((congrArg (Option.map _) hn).symm.trans hn₂)
  rw [withMail_withMail, withMail_withMail]
  refine ⟨alike_of_inbox hn ?_, ?_⟩
  · exact n.inboxWith_swap (q, nodes) (r, others)
  · exact n.repliesWith_swap (q, nodes) (r, others)

/-! ### New ids and lower bounds among themselves -/

/-- Every node has a new id. -/
def Finished (w : Worker) : Prop :=
  w.phase = .reordering ∧ w.numbering.any Numbering.complete = true

theorem drain_of_finished (hf : w.Finished) (hi : w.completions = []) :
    w.checkReordered.drain = w.enterBounding.append drain := by
  have hfires : w.checkReordered = { w with completions := w.completions ++ [.reordering] } :=
    if_pos ⟨hf.1, hf.2, by simp [hi]⟩
  have hc : w.checkReordered.completions = [.reordering] := by simp [hfires, hi]
  have hw : { w.checkReordered with completions := [] } = w := by
    rw [hfires]
    cases w
    cases hi
    rfl
  rw [drain_of_cons hc, hw]
  rfl

theorem drain_of_unfinished (hf : ¬w.Finished) (hi : w.completions = []) :
    w.checkReordered.drain = .ok w [] := by
  have hsame : w.checkReordered = w := if_neg fun h => hf ⟨h.1, h.2.1⟩
  rw [hsame, drain_of_nil hi]

/-- A processing element that is still in its phase waits for more new ids. -/
theorem eq_of_checkReordered (hi : w.completions = [])
    (h : w.checkReordered.drain = .ok u as) (hp : u.phase = .reordering) : u = w ∧ as = [] := by
  by_cases hf : w.Finished
  · have hphase : (w.handle (.completed .reordering)).state.phase ∈ landings .reordering :=
      handle_completed_reordering hi
    have hu : w.handle (.completed .reordering) = .ok u as := (drain_of_finished hf hi).symm.trans h
    rw [hu, Outcome.state_ok, hp] at hphase
    exact absurd hphase (by decide)
  · cases (drain_of_unfinished hf hi).symm.trans h
    exact ⟨rfl, rfl⟩

theorem commute_reply_reply (hi : w.completions = []) {pairs others : List (Nat × Nat)} :
    w.Commute q (.reply pairs) r (.reply others) := by
  rintro u v as bs ⟨s, out, more, hs, hu, rfl⟩ ⟨t, out', more', ht, hv, rfl⟩
  obtain ⟨n, hn, hfresh, hs⟩ := hs.numbered
  obtain ⟨n', hn', hfresh', ht⟩ := ht.numbered
  obtain rfl := Option.some.inj (hn.symm.trans hn')
  obtain ⟨rfl, rfl⟩ :=
    eq_of_checkReordered (w := { w with numbering := some (n.taking pairs) }) hi hs hu.reordering
  obtain ⟨rfl, rfl⟩ :=
    eq_of_checkReordered (w := { w with numbering := some (n.taking others) }) hi ht hv.reordering
  obtain ⟨n₁, hn₁, hmore, hu⟩ := hu.numbered
  obtain ⟨n₂, hn₂, -, hv⟩ := hv.numbered
  obtain rfl := Option.some.inj hn₁
  obtain rfl := Option.some.inj hn₂
  rw [Numbering.taking_comm hmore hfresh] at hu
  cases hu.symm.trans hv
  exact ⟨.refl _, .refl _⟩

theorem settleBounds_of_none (h : w.lower = none) : w.settleBounds = .ok w [] := by
  unfold settleBounds tryBounds
  rw [h]

theorem exists_of_enterBounding (h : w.enterBounding = .ok u as) : ∃ units n built,
    w.units = some units ∧ w.numbering = some n ∧ w.buildUnits n units = .ok built := by
  unfold enterBounding at h
  dsimp only at h
  split at h
  · cases h
  · cases h
  · next units n hu hn =>
    split at h
    · cases h
    · next built hb => exact ⟨units, n, built, hu, hn, hb⟩

/-- A processing element with its work units in new ids. -/
def withBuilt (w : Worker) (built : List WorkUnit) : Worker :=
  { w with
    phase := .bounding, built
    highest := (built.flatMap WorkUnit.connectivity).foldl max 0 }

/-- A processing element that looks for its bounds before it is told the lower one waits, and goes
on as if it had been told before. -/
theorem enterBounding_late (hi : w.completions = []) (hr : w.rank ≠ 0) (hl : w.lower = none)
    (he : w.earlyLower = none) (h : w.enterBounding.append drain = .ok u as) :
    as = [] ∧ u.phase = .bounding ∧ ∀ bound,
      enterBounding { w with earlyLower := some bound } =
        settleBounds { u with lower := some bound } := by
  obtain ⟨s, out, more, hs, -, -⟩ := Outcome.append_eq_ok h
  obtain ⟨units, n, built, hu, hn, hb⟩ := exists_of_enterBounding hs
  have hwaits : w.enterBounding = .ok (w.withBuilt built) [] := by
    rw [enterBounding_eq hu hn, hb]
    dsimp only
    rw [if_neg hr, if_neg (by simp [he])]
    exact settleBounds_of_none hl
  have hearly : ∀ bound, enterBounding { w with earlyLower := some bound } =
      settleBounds { w.withBuilt built with lower := some bound } := by
    intro bound
    have hb' : buildUnits { w with earlyLower := some bound } n units = .ok built := hb
    rw [enterBounding_eq (w := { w with earlyLower := some bound }) hu hn, hb']
    dsimp only [withBuilt]
    rw [if_neg hr, if_pos Option.isSome_some, he]
  rw [hwaits, append_drain_of_idle (o := .ok (w.withBuilt built) []) hi] at h
  cases h
  exact ⟨rfl, rfl, hearly⟩

theorem commute_reply_lower (hi : w.completions = []) {pairs : List (Nat × Nat)} {bound : Nat} :
    w.Commute q (.reply pairs) r (.lower bound) := by
  rintro u v as bs ⟨s, out, more, hs, hu, rfl⟩ ⟨t, out', more', ht, hv, rfl⟩
  have hp := hs.reordering
  obtain ⟨n, hn, -, hs⟩ := hs.numbered
  have hrank : w.rank ≠ 0 := fun h0 => by cases ht.before.trans h0
  obtain ⟨hl, he⟩ := ht.unbounded
  obtain ⟨rfl, rfl⟩ := ht.held (by simp [hp])
  obtain ⟨n', hn', -, hv⟩ := hv.numbered
  obtain rfl := Option.some.inj (hn.symm.trans hn')
  -- the lower bound makes no difference to whether all new ids are there
  have htold : Finished { w with numbering := some (n.taking pairs), earlyLower := some bound } ↔
      Finished { w with numbering := some (n.taking pairs) } := Iff.rfl
  by_cases hf : Finished { w with numbering := some (n.taking pairs) }
  · rw [drain_of_finished hf hi] at hs
    rw [drain_of_finished (htold.2 hf) hi] at hv
    obtain ⟨rfl, hbounding, hlate⟩ :=
      enterBounding_late (w := { w with numbering := some (n.taking pairs) }) hi hrank hl he hs
    cases hu with
    | holds _ _ _ hp' => exact absurd (hbounding ▸ hp') (by decide)
    | settles _ _ _ _ hsettle =>
      rw [← hlate] at hsettle
      cases hsettle.symm.trans hv
      exact ⟨.refl _, .refl _⟩
  · cases (drain_of_unfinished hf hi).symm.trans hs
    cases (drain_of_unfinished (mt htold.1 hf) hi).symm.trans hv
    obtain ⟨rfl, rfl⟩ := hu.held (by simp [hp])
    exact ⟨.refl _, .refl _⟩

/-- Only the rank before tells a lower bound. -/
theorem commute_lower_lower (h : q ≠ r) {bound other : Nat} :
    w.Commute q (.lower bound) r (.lower other) := by
  rintro u v as bs ⟨s, out, more, hs, -, rfl⟩ ⟨t, out', more', ht, -, rfl⟩
  exact absurd (Nat.succ.inj (hs.before.trans ht.before.symm)) h

/-! ### Whole calls -/

theorem commute_of_ne (hi : w.completions = []) (h : q ≠ r) : w.Commute q m r k := by
  cases m with
  | add x =>
    cases k with
    | add y => exact commute_add_add h
    | ack => exact commute_add_ack
    | request nodes => exact commute_add_request
    | reply pairs => exact commute_add_reply
    | lower bound => exact commute_add_lower
  | ack =>
    cases k with
    | add y => exact commute_add_ack.symm
    | ack => exact commute_ack_ack
    | request nodes => exact commute_ack_request
    | reply pairs => exact commute_ack_completing trivial
    | lower bound => exact commute_ack_completing trivial
  | request nodes =>
    cases k with
    | add y => exact commute_add_request.symm
    | ack => exact commute_ack_request.symm
    | request others => exact commute_request_request
    | reply pairs => exact commute_request_completing trivial
    | lower bound => exact commute_request_completing trivial
  | reply pairs =>
    cases k with
    | add y => exact commute_add_reply.symm
    | ack => exact (commute_ack_completing (k := .reply pairs) trivial).symm
    | request nodes => exact (commute_request_completing (k := .reply pairs) trivial).symm
    | reply others => exact commute_reply_reply hi
    | lower bound => exact commute_reply_lower hi
  | lower bound =>
    cases k with
    | add y => exact commute_add_lower.symm
    | ack => exact (commute_ack_completing (k := .lower bound) trivial).symm
    | request nodes => exact (commute_request_completing (k := .lower bound) trivial).symm
    | reply pairs => exact (commute_reply_lower hi).symm
    | lower other => exact commute_lower_lower h

/-- Handles two messages of peers, one after the other. -/
def inTurn (w : Worker) (q : Nat) (m : PeerMessage) (r : Nat) (k : PeerMessage) :
    Result (List Action) :=
  (w.handle (.peer q m)).append fun s => s.handle (.peer r k)

theorem receipts_of_inTurn (hi : w.completions = []) (h : w.inTurn q m r k = .ok u as) :
    w.Receipts q m r k u as := by
  obtain ⟨s, out, more, hs, hu, rfl⟩ := Outcome.append_eq_ok h
  have hidle : s.completions = [] :=
    (congrArg (·.state.completions) hs).symm.trans (idle_answer hi (.handle (.peer q m)))
  exact ⟨s, out, more, receipt_of_handle hi hs, receipt_of_handle hidle hu, rfl⟩

/-- Behind any calls on a new processing element, those that fail and completions that are handed in
included, messages of different peers commute: if two of them are accepted in either order, they
leave the same state, but for the order in which work units are parked and requests wait, and bring
about the same actions. -/
theorem peer_messages_commute {rank pes : Nat} {reader : Reader} {settings : Settings}
    {w₀ w : Worker} (h : create rank pes reader settings = .ok w₀) (p : Partitioner)
    (calls : List Call) (hw : (w₀.prepareFor p).after calls = w) {q r : Nat} (hqr : q ≠ r)
    {m k : PeerMessage} {u v : Worker} {as bs : List Action}
    (hu : w.inTurn q m r k = .ok u as) (hv : w.inTurn r k q m = .ok v bs) :
    u.Alike v ∧ as.Perm bs := by
  obtain ⟨-, hfresh⟩ := standing_of_create h p
  have hi₀ : (w₀.prepareFor p).completions = [] := congrArg Standing.completions hfresh
  have hi : w.completions = [] := hw ▸ idle_after hi₀ calls
  exact commute_of_ne hi hqr u v as bs (receipts_of_inTurn hi hu) (receipts_of_inTurn hi hv)

/-- The element that one of the first two of three ranks has for the last work unit. -/
def elementFor (q : Nat) : List Nat := [12 + q, 13 + q, 14 + q, 15 + q]

def shipmentOf (q : Nat) : PeerMessage := .add (.ofList [(2, elementFor q)])

/-- `lastPartitioned` with elements of other ranks, in the order in which they came. -/
def lastTaken (senders : List Nat) : Worker :=
  { lastPartitioned with
    table := .ofList [(2, .ofList (senders.map fun q => (q, elementFor q)))] }

theorem inTurn_shipments {q r : Nat} (h : q = 0 ∧ r = 1 ∨ q = 1 ∧ r = 0) :
    lastPartitioned.inTurn q (shipmentOf q) r (shipmentOf r) =
      .ok (lastTaken [q, r]) [.send q .ack, .send r .ack] := by
  have hfirst : lastPartitioned.handle (.peer q (shipmentOf q)) =
      .ok (lastTaken [q]) [.send q .ack] := by
    rcases h with ⟨rfl, rfl⟩ | ⟨rfl, rfl⟩ <;> exact handle_of_dispatch rfl rfl
  have hsecond : (lastTaken [q]).handle (.peer r (shipmentOf r)) =
      .ok (lastTaken [q, r]) [.send r .ack] := by
    rcases h with ⟨rfl, rfl⟩ | ⟨rfl, rfl⟩ <;> exact handle_of_dispatch rfl rfl
  rw [inTurn, hfirst, Outcome.append_ok, hsecond]
  rfl

/-- The last of three ranks waits for the acknowledgments of what it sent, and takes an element from
each of the others. It acknowledges both, in the order in which they come. -/
theorem adds_commute_at_last :
    create 2 3 pairMesh.reader trioSettings = .ok lastOfThree ∧
      lastOfThree.after ((lastCalls 0 1).take 2) = lastPartitioned ∧
      lastPartitioned.inTurn 0 (shipmentOf 0) 1 (shipmentOf 1) =
        .ok (lastTaken [0, 1]) [.send 0 .ack, .send 1 .ack] ∧
      lastPartitioned.inTurn 1 (shipmentOf 1) 0 (shipmentOf 0) =
        .ok (lastTaken [1, 0]) [.send 1 .ack, .send 0 .ack] ∧
      (lastTaken [0, 1]).Alike (lastTaken [1, 0]) := by
  have hcreate : create 2 3 pairMesh.reader trioSettings = .ok lastOfThree := rfl
  have hafter : lastOfThree.after ((lastCalls 0 1).take 2) = lastPartitioned := by
    change ((lastOfThree.start.state).handle (.command (.partition 3 [0, 1]))).state = _
    rw [start_lastOfThree, Outcome.state_ok, partition_lastReady, Outcome.state_ok]
  have hu := inTurn_shipments (.inl ⟨rfl, rfl⟩)
  have hv := inTurn_shipments (.inr ⟨rfl, rfl⟩)
  obtain ⟨halike, -⟩ := peer_messages_commute hcreate Algorithm.elementOrder.partitioner
    ((lastCalls 0 1).take 2) hafter (q := 0) (r := 1) (by decide) hu hv
  exact ⟨hcreate, hafter, hu, hv, halike⟩

end Worker
end MeshDecomp
