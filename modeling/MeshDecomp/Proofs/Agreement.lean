import MeshDecomp.Proofs.Interleavings

/-!
How all ranks of a run end. Turns come to an end, and where nobody has a turn any more all ranks
have returned: either all of them with what they created, or all of them with an error.
-/

namespace MeshDecomp

namespace Universe

/-- What a rank of a run returned. -/
def Ended (u : Universe) (pe : Nat) (r : Returned) : Prop := u.ranks[pe]? = some (.returned r)

/-- The program of a rank came to a sudden end. The others are not told of it. -/
def Crashed (u : Universe) (pe : Nat) (c : Crash) : Prop :=
  ∃ created, u.Ended pe ⟨.error (.crash c), created⟩

/-- An error that a rank returned, and that is not the failure of another one. -/
def Failed (u : Universe) (pe : Nat) (e : RunError) : Prop :=
  (∃ c, u.Ended pe ⟨.error (.error e), c⟩) ∧ ∀ q user reason, e ≠ .aborted q user reason

/-- All ranks returned and agree on whether the run failed, and on who is to blame. -/
structure Agreed (u : Universe) : Prop where
  returned : ∀ pe < u.ranks.length, ∃ r, u.Ended pe r
  together : (∀ pe < u.ranks.length, ∃ report c, u.Ended pe ⟨.ok report, c⟩) ∨
    ∀ pe < u.ranks.length, ∃ e c, u.Ended pe ⟨.error (.error e), c⟩
  blame : ∀ p q e e' c c', u.Ended p ⟨.error (.error e), c⟩ →
    u.Ended q ⟨.error (.error e'), c'⟩ → e.isUser = e'.isUser
  named : ∀ p q user reason c, u.Ended p ⟨.error (.error (.aborted q user reason)), c⟩ →
    ∃ e, u.Failed q e ∧ e.message = reason ∧ e.isUser = user

variable {u : Universe} {pe : Nat} {r r' : Returned} {c : Crash}

theorem Ended.unique (h : u.Ended pe r) (h' : u.Ended pe r') : r = r' := by
  cases h.symm.trans h'
  rfl

theorem Ended.lt (h : u.Ended pe r) : pe < u.ranks.length :=
  (List.getElem?_eq_some_iff.1 h).1

theorem Agreed.not_crashed (h : u.Agreed) : ¬ u.Crashed pe c := by
  rintro ⟨created, hc⟩
  rcases h.together with hall | hall
  · obtain ⟨report, created', hr⟩ := hall pe hc.lt
    cases hc.unique hr
  · obtain ⟨e, created', hr⟩ := hall pe hc.lt
    cases hc.unique hr

end Universe

/-- A rank without a turn has nothing waiting. -/
theorem Progress.waits_of_turn_live {job : Job} {l : Link σ} {net : σ} {r : Rank}
    (h : (Progress.live r).turn job l net = none) : r.own = [] ∧ l.receive net = .ok none := by
  unfold Progress.turn at h
  dsimp only at h
  cases hown : r.own with
  | cons x own =>
    rw [hown] at h
    cases h
  | nil =>
    rw [hown] at h
    refine ⟨rfl, ?_⟩
    generalize l.receive net = o at *
    obtain _ | _ | ⟨⟨sender, bytes⟩, net'⟩ := o
    · cases h
    · rfl
    · dsimp only at h
      split at h <;> cases h

namespace Plan

variable {job : Job} {S : Scenario} {P : Plan job S} {L : Ledger} {pe p q : Nat} {e e' : RunError}
  {m : Letter} {r : Returned} {u : Universe}

/-! ### Runs -/

theorem not_posted_nil (hp : 0 < S.pes) (m : Letter) : ¬ P.Posted {} m := by
  rintro ⟨hs, hb⟩
  obtain ⟨pe, -, hm⟩ := List.mem_flatMap.1 ((Scenario.mem_firstLetters hp).2 hs)
  exact (hb pe hm).1 rfl

/-- Before the first turn nothing arrived, and nothing is on its way. -/
theorem sound_nil (hv : P.Holds) : P.Sound {} where
  history := Scenario.history_nil hv.pes_pos
  begun := nofun
  received := nofun
  own_fresh := fun _ _ => rfl
  nodup := fun _ _ _ => List.nodup_nil
  mem_letters := fun _ _ _ m =>
    ⟨nofun, fun h => absurd h.2.1 (not_posted_nil hv.pes_pos m)⟩
  live := nofun
  returned := nofun
  told := fun _ _ _ h => by
    obtain ⟨⟨c, hc⟩, -⟩ := h
    cases hc
  failed := nofun

theorem create_universe (hv : P.Holds) : Universe.create S.pes = .ok (P.universeOf {}) := by
  have hroom : ¬ Mailboxes.maxSize < S.pes := by
    have := hv.pes_lt
    unfold Mailboxes.maxSize
    omega
  have hranks : List.replicate S.pes Progress.fresh = (P.universeOf {}).ranks := by
    have hfresh : P.progress {} = fun _ => .fresh := rfl
    simp [universeOf, hfresh]
  have hmail : Mailboxes.empty S.pes = (P.universeOf {}).mail := Mailboxes.empty_eq S.pes
  simp only [Universe.create, Mailboxes.create, hroom, ↓reduceIte, hranks, hmail, bind, Except.bind,
    pure, Except.pure]

/-- A rank that has no turn has returned, or waits for a message. -/
theorem waits_of_blocked (hb : (P.universeOf L).isBlocked job = true) (hpe : pe < S.pes) :
    (∃ r, L.stage pe = .returned r) ∨ L.stage pe = .live ∧ L.own pe = [] ∧ L.box pe = [] := by
  have hlen : (P.universeOf L).ranks.length = S.pes := by simp [universeOf]
  have hturn : (P.universeOf L).turn job pe = none := by
    unfold Universe.isBlocked at hb
    rw [hlen, List.all_eq_true] at hb
    exact Option.isNone_iff_eq_none.1 (hb pe (List.mem_range.2 hpe))
  rw [turn_universeOf hpe, Option.map_eq_none_iff, progress] at hturn
  cases hs : L.stage pe with
  | fresh =>
    rw [hs] at hturn
    unfold Progress.turn at hturn
    dsimp only at hturn
    split at hturn <;> cases hturn
  | returned r => exact .inl ⟨r, rfl⟩
  | live =>
    rw [hs] at hturn
    obtain ⟨hown, hreceive⟩ := Progress.waits_of_turn_live hturn
    refine .inr ⟨rfl, List.map_eq_nil_iff.1 hown, ?_⟩
    cases hbox : L.box pe with
    | nil => rfl
    | cons x box =>
      have hboxes : P.boxes L pe = P.note x :: box.map P.note := by
        rw [boxes, hbox]
        rfl
      have htake := Mailboxes.take_of_cons hpe hboxes
      cases (Except.ok.inj hreceive).symm.trans htake

theorem ended_universeOf : (P.universeOf L).Ended pe r ↔ pe < S.pes ∧ L.stage pe = .returned r := by
  unfold Universe.Ended universeOf
  by_cases hpe : pe < S.pes
  · simp only [List.getElem?_map, List.getElem?_range hpe, Option.map_some, hpe, true_and,
      Option.some.injEq, progress]
    cases L.stage pe <;> simp
  · simp [hpe]

theorem Sound.not_crashed {c : Crash} (h : P.Sound L) : ¬ (P.universeOf L).Crashed pe c := by
  rintro ⟨created, hc⟩
  obtain ⟨-, hstage⟩ := ended_universeOf.1 hc
  generalize hr : (Returned.mk (.error (.crash c)) created : Returned) = r at hstage
  cases h.returned pe r hstage <;> cases hr

theorem failed_universeOf : (P.universeOf L).Failed pe e ↔ pe < S.pes ∧ L.Failed pe e := by
  simp only [Universe.Failed, Ledger.Failed, ended_universeOf, exists_and_left, and_assoc]

namespace Sound

/-- Turns lead from sound ledgers to sound ledgers. -/
theorem reaches (hv : P.Holds) (h : P.Sound L) (hr : (P.universeOf L).Reaches job u) :
    ∃ L', P.Sound L' ∧ P.universeOf L' = u := by
  induction hr with
  | refl => exact ⟨L, h, rfl⟩
  | turn rank _ ht ih =>
    obtain ⟨L', h', rfl⟩ := ih
    obtain ⟨L'', h'', -, hu⟩ := h'.turn hv ht
    exact ⟨L'', h'', hu⟩

theorem advanced_le (h : P.Sound L) : L.advanced S.pes ≤ S.letters.length + S.pes * 2 := by
  have hplace : ∀ q ∈ Finset.range S.pes, (L.stage q).place ≤ 2 := by
    intro q _
    cases L.stage q <;> simp [Stage.place]
  have hsum := Finset.sum_le_card_nsmul _ _ 2 hplace
  rw [Finset.card_range, smul_eq_mul] at hsum
  exact Nat.add_le_add h.history.length_le hsum

/-- Every turn brings all ranks closer to the end. -/
theorem not_endless (hv : P.Holds) (h : P.Sound L) : ¬ (P.universeOf L).Endless job := by
  rintro ⟨run, h0, hstep⟩
  have hrun : ∀ k, ∃ L', P.Sound L' ∧ P.universeOf L' = run k ∧ k ≤ L'.advanced S.pes := by
    intro k
    induction k with
    | zero => exact ⟨L, h, h0.symm, Nat.zero_le _⟩
    | succ k ih =>
      obtain ⟨L', h', hu, hk⟩ := ih
      obtain ⟨rank, ht⟩ := hstep k
      rw [← hu] at ht
      obtain ⟨L'', h'', hlt, hu'⟩ := h'.turn hv ht
      exact ⟨L'', h'', hu', hk.trans_lt hlt⟩
  obtain ⟨L', h', -, hk⟩ := hrun (S.letters.length + S.pes * 2 + 1)
  exact absurd (hk.trans h'.advanced_le) (Nat.not_succ_le_self _)

/-! ### Failures -/

theorem begun_of_done (h : P.Sound L) (hd : Done S L.arrived p) (hq : q < S.pes) : P.Begun L q := by
  have hflatten := h.history.flatten_of_reorder (h.history.reorder_of_deviation hd.1)
    (h.history.lt hd.1)
  have hpartition := h.history.partition_of_flatten hflatten hq
  exact h.begun_of_gathered (h.history.gathered hpartition) hq

/-- Once a rank is done, nothing makes another one fail. -/
theorem not_fails_of_done (hv : P.Holds) (h : P.Sound L) (hd : Done S L.arrived p)
    (hs : S.Sent L.arrived m) : ¬ P.Fails L.arrived m e := by
  have hflatten : ∀ q < S.pes, .command .flatten q ∈ L.arrived := fun q hq =>
    h.history.flatten_of_reorder (h.history.reorder_of_deviation hd.1) hq
  have hpartition : ∀ q < S.pes, .command .partition q ∈ L.arrived := fun q hq =>
    h.history.partition_of_flatten (hflatten q hq) hq
  have hlt := h.history.lt hd.1
  intro hf
  cases hf with
  | refusal hg hr =>
    have hnone := hv.refusal_iff.2 (h.history.answered_of_partition (hpartition p hlt))
    cases hnone.symm.trans hr
  | letter hr hf =>
    cases hf with
    | answer => cases hr
    | unit hn =>
      have hin := h.history.inRange _ (hpartition _ hs.1)
      cases (Scenario.inRange_iff.1 hin).symm.trans hn
    | vacant hv => cases (h.history.occupied _ (hflatten _ hs.1)).symm.trans hv

/-- A rank that failed by itself could not start, or could not take a letter. -/
theorem cases_of_failed (h : P.Sound L) (hf : L.Failed pe e) : P.fault pe = some e ∨
    ∃ m, m.addressee = pe ∧ S.Sent L.arrived m ∧ m ∉ L.arrived ∧ P.Fails L.arrived m e := by
  obtain ⟨⟨c, hc⟩, hg⟩ := hf
  generalize hr : (Returned.mk (.error (.error e)) c : Returned) = r at hc
  cases h.returned pe r hc with
  | finished => cases hr
  | fault hfault =>
    cases hr
    exact .inl hfault
  | letter hm hs hn hfail =>
    cases hr
    exact .inr ⟨_, hm, hs, hn, hfail⟩
  | aborted =>
    cases hr
    exact absurd rfl (hg _ _ _)

theorem not_failed_of_done (hv : P.Holds) (h : P.Sound L) (hd : Done S L.arrived p)
    (hq : q < S.pes) : ¬ L.Failed q e := by
  intro hf
  rcases h.cases_of_failed hf with hfault | ⟨m, -, hs, -, hfail⟩
  · cases (h.begun_of_done hd hq).2.symm.trans hfault
  · exact h.not_fails_of_done hv hd hs hfail

/-- What a rank returns is what it created, or an error for which a rank failed by itself. -/
theorem cases_of_returned (hv : P.Holds) (h : P.Sound L) (hpe : pe < S.pes)
    (hr : L.stage pe = .returned r) :
    (Done S L.arrived pe ∧
      r = ⟨.ok (if pe = Rank.hostRank then some S.report else none), S.handOut {} pe⟩) ∨
    ∃ e c, r = ⟨.error (.error e), c⟩ ∧ ∃ q < S.pes, ∃ e', L.Failed q e' ∧ e.isUser = e'.isUser ∧
      (e = e' ∧ q = pe ∨ e = .aborted q e'.isUser e'.message) := by
  cases h.returned pe r hr with
  | finished hd => exact .inl ⟨hd, rfl⟩
  | @fault e c hfault =>
    have hg := hv.genuine e (.inl ⟨pe, hpe, hfault⟩)
    exact .inr ⟨e, c, rfl, pe, hpe, e, ⟨⟨c, hr⟩, hg⟩, rfl, .inl ⟨rfl, rfl⟩⟩
  | @letter m e c hm hs hn hfail =>
    have hg := hv.genuine e (.inr ⟨_, _, hs, hfail⟩)
    exact .inr ⟨e, c, rfl, pe, hpe, e, ⟨⟨c, hr⟩, hg⟩, rfl, .inl ⟨rfl, rfl⟩⟩
  | @aborted q e c hq hf => exact .inr ⟨_, c, rfl, q, hq, e, hf, rfl, .inr rfl⟩

/-- The host fails before the partitioning, a rank with a work unit that does not exist upon it, and
a rank without elements for a work unit after it. -/
theorem cases_of_fails (hv : P.Holds) (h : P.Sound L) (hf : P.Fails L.arrived m e) :
    (∃ k p, m = .contribution k p ∧ S.Gathered .partition (L.arrived ++ [m]) ∧
      ¬ S.Gathered .partition L.arrived ∧ P.refusal = some e) ∨
    (∃ p, m = .command .partition p ∧ e.isUser = false) ∨
    ∃ p, m = .command .flatten p ∧ e.isUser = true := by
  cases hf with
  | @refusal k p _ hg hr =>
    refine .inl ⟨k, p, rfl, hg, fun hgathered => ?_, hr⟩
    cases (hv.refusal_iff.2 (h.history.answered hgathered)).symm.trans hr
  | letter hr hf =>
    cases hf with
    | answer => cases hr
    | unit => exact .inr (.inl ⟨_, rfl, rfl⟩)
    | vacant => exact .inr (.inr ⟨_, rfl, rfl⟩)

/-- All ranks have started before one of them can fail of a letter. -/
theorem begun_of_fails (hv : P.Holds) (h : P.Sound L) (hs : S.Sent L.arrived m)
    (hf : P.Fails L.arrived m e) (hpe : pe < S.pes) : P.Begun L pe := by
  rcases h.cases_of_fails hv hf with ⟨k, p, rfl, hg, -, -⟩ | ⟨p, rfl, -⟩ | ⟨p, rfl, -⟩
  · -- Of the first letters of the rank only one can be on its way.
    have hbegun : ∀ k' ∈ Barrier.partition.kinds, k' ≠ k → P.Begun L pe := by
      intro k' hk' hne
      have harrived : .contribution k' pe ∈ L.arrived := by
        refine Scenario.mem_concat_of_ne (Scenario.gathered_iff.1 hg k' hk' pe hpe) ?_
        rintro ⟨⟩
        exact hne rfl
      refine h.begun _ harrived pe (mem_firstLetters_iff.2 ?_)
      simpa [Barrier.kinds] using hk'
    by_cases hk : k = .load
    · exact hbegun .setup (by decide) (by simp [hk])
    · exact hbegun .load (by decide) (Ne.symm hk)
  · exact h.begun_of_gathered hs.2 hpe
  · have hpartition := (h.history.distributed_of_gathered hs.2 hpe).1
    exact h.begun_of_gathered (h.history.gathered hpartition) hpe

/-- Letters of which ranks fail at the same time blame the same. -/
theorem isUser_of_fails {m' : Letter} (hv : P.Holds) (h : P.Sound L) (hs : S.Sent L.arrived m)
    (hn : m ∉ L.arrived) (hf : P.Fails L.arrived m e) (hs' : S.Sent L.arrived m')
    (hn' : m' ∉ L.arrived) (hf' : P.Fails L.arrived m' e') : e.isUser = e'.isUser := by
  have hflatten : ∀ p q, S.Sent L.arrived (.command .flatten q) → p < S.pes →
      .command .partition p ∈ L.arrived := fun p q hs hp =>
    (h.history.distributed_of_gathered hs.2 hp).1
  have hgathered : ∀ q, S.Sent L.arrived (.command .flatten q) →
      S.Gathered .partition L.arrived := fun q hs =>
    h.history.gathered (hflatten q q hs hs.1)
  rcases h.cases_of_fails hv hf with ⟨_, _, rfl, -, hg, hr⟩ | ⟨p, rfl, hu⟩ | ⟨p, rfl, hu⟩
  · rcases h.cases_of_fails hv hf' with ⟨_, _, rfl, -, -, hr'⟩ | ⟨q, rfl, -⟩ | ⟨q, rfl, -⟩
    · rw [Option.some.inj (hr.symm.trans hr')]
    · exact absurd hs'.2 hg
    · exact absurd (hgathered q hs') hg
  · rcases h.cases_of_fails hv hf' with ⟨_, _, rfl, -, hg, -⟩ | ⟨q, rfl, hu'⟩ | ⟨q, rfl, -⟩
    · exact absurd hs.2 hg
    · rw [hu, hu']
    · exact absurd (hflatten p q hs' hs.1) hn
  · rcases h.cases_of_fails hv hf' with ⟨_, _, rfl, -, hg, -⟩ | ⟨q, rfl, -⟩ | ⟨q, rfl, hu'⟩
    · exact absurd (hgathered p hs) hg
    · exact absurd (hflatten q p hs hs'.1) hn'
    · rw [hu, hu']

/-- Ranks that fail by themselves blame the same, if those do that cannot start. -/
theorem isUser_of_failed (hv : P.Holds) (h : P.Sound L)
    (hfault : ∀ pe < S.pes, ∀ e, P.fault pe = some e → e.isUser = false) (hp : p < S.pes)
    (hq : q < S.pes) (hf : L.Failed p e) (hf' : L.Failed q e') : e.isUser = e'.isUser := by
  rcases h.cases_of_failed hf with hpf | ⟨m, -, hs, hn, hfail⟩
  · rcases h.cases_of_failed hf' with hqf | ⟨m', -, hs', -, hfail'⟩
    · rw [hfault p hp e hpf, hfault q hq e' hqf]
    · cases (h.begun_of_fails hv hs' hfail' hp).2.symm.trans hpf
  · rcases h.cases_of_failed hf' with hqf | ⟨m', -, hs', hn', hfail'⟩
    · cases (h.begun_of_fails hv hs hfail hq).2.symm.trans hqf
    · exact h.isUser_of_fails hv hs hn hfail hs' hn' hfail'

/-! ### The end -/

section

variable (hv : P.Holds) (h : P.Sound L) (hb : (P.universeOf L).isBlocked job = true)

include hv h hb

section

variable (hnone : ∀ q < S.pes, ∀ e, ¬ L.Failed q e)

include hnone

theorem done_of_not_live (hq : q < S.pes) (hl : L.stage q ≠ .live) : Done S L.arrived q := by
  obtain ⟨r, hr⟩ := (waits_of_blocked hb hq).resolve_right fun hw => hl hw.1
  rcases h.cases_of_returned hv hq hr with ⟨hd, -⟩ | ⟨-, -, -, p, hp, e', hf, -⟩
  · exact hd
  · exact absurd hf (hnone p hp e')

theorem begun_of_blocked (hq : q < S.pes) : P.Begun L q := by
  by_cases hl : L.stage q = .live
  · exact ⟨by rw [hl]; exact nofun, (h.live q hl).1⟩
  · exact h.begun_of_done (h.done_of_not_live hv hb hnone hq hl) hq

/-- If nobody failed nothing is left to arrive: a letter to a rank that waits would be waiting
there, and one to a rank that is done has arrived. -/
theorem mem_of_blocked (hm : S.Sent L.arrived m) : m ∈ L.arrived := by
  have hq := addressee_lt hv.pes_pos hm.1
  have hposted : P.Posted L m := by
    refine ⟨hm, fun p hp => h.begun_of_blocked hv hb hnone ?_⟩
    rcases mem_firstLetters_iff.1 hp with rfl | rfl | rfl <;> exact hm.1
  by_contra hn
  by_cases hl : L.stage m.addressee = .live
  · have ha := Ledger.alive_of_live hl
    have hmem := (h.mem_letters _ hq ha m).2 ⟨rfl, hposted, hn⟩
    obtain ⟨-, hown, hbox⟩ := (waits_of_blocked hb hq).resolve_left fun ⟨r, hr⟩ => ha r hr
    rw [Ledger.letters, hown, hbox] at hmem
    cases hmem
  · have hd := h.done_of_not_live hv hb hnone hq hl
    cases hr : m.receiver? with
    | some p =>
      rw [addressee_of_receiver hr] at hd
      exact hn (h.history.mem_of_receiver hd.1 hm.1 hr)
    | none =>
      have hz : m.addressee = Rank.hostRank := by
        rw [Letter.addressee, hr]
        rfl
      exact hn (h.history.mem_of_over (hd.2 hz) hv.pes_pos hm.1)

end

/-- A rank that waits for ever would not have been told of a failure, and so nobody failed; but then
nothing is left to wait for. -/
theorem returned_of_blocked (hpe : pe < S.pes) : ∃ r, L.stage pe = .returned r := by
  rcases waits_of_blocked hb hpe with hr | ⟨hlive, -, hbox⟩
  · exact hr
  · have hnone : ∀ q < S.pes, ∀ e, ¬ L.Failed q e := by
      intro q hq e hf
      have htold := h.told q hq e hf pe hpe (Ledger.alive_of_live hlive)
      rw [hbox] at htold
      cases htold
    have hall := Scenario.mem_of_occurs fun m hm => h.mem_of_blocked hv hb hnone hm
    exact absurd ⟨hall _ hpe, fun _ q hq => hall _ hq⟩ (h.live pe hlive).2

end

/-- Ranks agree at the end. -/
theorem agreed (hv : P.Holds) (h : P.Sound L)
    (hfault : ∀ pe < S.pes, ∀ e, P.fault pe = some e → e.isUser = false)
    (hb : (P.universeOf L).isBlocked job = true) : (P.universeOf L).Agreed := by
  have hlen : (P.universeOf L).ranks.length = S.pes := by simp [universeOf]
  have hcause : ∀ {p e c}, p < S.pes → L.stage p = .returned ⟨.error (.error e), c⟩ →
      ∃ q < S.pes, ∃ e', L.Failed q e' ∧ e.isUser = e'.isUser ∧
        (e = e' ∧ q = p ∨ e = .aborted q e'.isUser e'.message) := by
    intro p e c hp hr
    rcases h.cases_of_returned hv hp hr with ⟨-, hr'⟩ | ⟨e₁, c₁, hr', hq⟩
    · cases hr'
    · cases hr'
      exact hq
  refine ⟨?_, ?_, ?_, ?_⟩
  · intro pe hpe
    rw [hlen] at hpe
    obtain ⟨r, hr⟩ := h.returned_of_blocked hv hb hpe
    exact ⟨r, ended_universeOf.2 ⟨hpe, hr⟩⟩
  · rw [hlen]
    by_cases hd : ∃ p < S.pes, Done S L.arrived p
    · obtain ⟨p, -, hd⟩ := hd
      refine .inl fun pe hpe => ?_
      obtain ⟨r, hr⟩ := h.returned_of_blocked hv hb hpe
      rcases h.cases_of_returned hv hpe hr with ⟨-, rfl⟩ | ⟨-, -, -, q, hq, e', hf, -⟩
      · exact ⟨_, _, ended_universeOf.2 ⟨hpe, hr⟩⟩
      · exact absurd hf (h.not_failed_of_done hv hd hq)
    · refine .inr fun pe hpe => ?_
      obtain ⟨r, hr⟩ := h.returned_of_blocked hv hb hpe
      rcases h.cases_of_returned hv hpe hr with ⟨hd', -⟩ | ⟨e, c, rfl, -⟩
      · exact absurd ⟨pe, hpe, hd'⟩ hd
      · exact ⟨e, c, ended_universeOf.2 ⟨hpe, hr⟩⟩
  · intro p q e e' c c' hp hq
    obtain ⟨hp, hr⟩ := ended_universeOf.1 hp
    obtain ⟨hq, hr'⟩ := ended_universeOf.1 hq
    obtain ⟨p', hp', e₁, hf, hu, -⟩ := hcause hp hr
    obtain ⟨q', hq', e₂, hf', hu', -⟩ := hcause hq hr'
    rw [hu, hu']
    exact h.isUser_of_failed hv hfault hp' hq' hf hf'
  · intro p q user reason c hp
    obtain ⟨hp, hr⟩ := ended_universeOf.1 hp
    obtain ⟨q', hq', e', hf, -, he⟩ := hcause hp hr
    rcases he with ⟨rfl, -⟩ | he
    · exact absurd rfl (hf.2 q user reason)
    · cases he
      exact ⟨e', failed_universeOf.2 ⟨hq', hf⟩, rfl, rfl⟩

end Sound
end Plan
end MeshDecomp
