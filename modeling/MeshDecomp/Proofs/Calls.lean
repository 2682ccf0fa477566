import MeshDecomp.Proofs.Cargo
import MeshDecomp.Proofs.Standings

/-!
What the calls on a processing element do to its standing. The actions of a call are those of a
chain of moves, or none if it fails; only a completion that is handed in leaves the chain.
-/

namespace MeshDecomp
namespace Worker

open Standing

/-! ### The parts of a call -/

/-- What a call gives. A call that fails leaves no completion behind. -/
def Gives {ε : Type} (o : Outcome Worker ε (List Action)) (as : List Action) : Prop :=
  match o.result with
  | .ok out => out = as
  | .error _ => o.state.completions = []

/-- A chain of moves leads to the state that a call leaves, with the actions of the call. -/
def Performs {ε : Type} (w : Worker) (o : Outcome Worker ε (List Action)) : Prop :=
  ∃ as, Moves w.standing as o.state.standing ∧ Gives o as

/-- A call that gives answers at most. -/
structure Quiet (w : Worker) (o : Result (List Action)) : Prop where
  standing : o.state.standing = w.standing
  answers : ∀ out, o.result = .ok out → ∀ a ∈ out, a.slot? = none

section Performs

variable {ε ε' : Type} {w w' : Worker} {o : Result (List Action)} {as : List Action}

theorem Gives.map {o : Outcome Worker ε (List Action)} (h : Gives o as) (out : List Action) :
    Gives (o.map (out ++ ·)) (out ++ as) := by
  obtain ⟨s, e | more⟩ := o
  · exact h
  · exact congrArg (out ++ ·) h

theorem Gives.mapError {o : Outcome Worker ε (List Action)} (h : Gives o as) (f : ε → ε') :
    Gives (o.mapError f) as := by
  obtain ⟨s, e | out⟩ := o <;> exact h

theorem Quiet.idle (h : w.Quiet o) (hi : w.completions = []) : o.state.completions = [] :=
  (congrArg Standing.completions h.standing).trans hi

theorem performs_same {e : ε} (hi : w.completions = []) : w.Performs (.fail w e) :=
  ⟨[], .refl _, hi⟩

theorem performs_fail {e : ε} (hi : w.completions = [])
    (hm : w.standing.Move [] w'.standing) (hi' : w'.completions = []) : w.Performs (.fail w' e) :=
  ⟨[], .single hi hm, hi'⟩

theorem performs_ok (hi : w.completions = []) (hm : w.standing.Move as w'.standing) :
    w.Performs (.ok w' as : Result (List Action)) :=
  ⟨as, .single hi hm, rfl⟩

theorem Quiet.performs (h : w.Quiet o) (hi : w.completions = []) : w.Performs o := by
  have hi' := h.idle hi
  obtain ⟨s, e | out⟩ := o
  · refine ⟨[], ?_, hi'⟩
    rw [show s.standing = w.standing from h.standing]
    exact .refl _
  · refine ⟨out, ?_, rfl⟩
    rw [show s.standing = w.standing from h.standing]
    exact .single hi (.answers (h.answers out rfl))

theorem Performs.append {f : Worker → Result (List Action)} (ho : w.Performs o)
    (hf : o.state.Performs (f o.state)) : w.Performs (o.append f) := by
  obtain ⟨as, hm, hout⟩ := ho
  obtain ⟨bs, hm', hout'⟩ := hf
  obtain ⟨s, e | out⟩ := o
  · exact ⟨as, hm, hout⟩
  · obtain rfl : out = as := hout
    exact ⟨out ++ bs, hm.trans hm', hout'.map out⟩

/-- A move without actions may come first. -/
theorem Performs.behind (h : w'.Performs o) (hi : w.completions = [])
    (hm : w.standing.Move [] w'.standing) : w.Performs o :=
  h.imp fun _ h => ⟨.move hi hm h.1, h.2⟩

theorem performs_work {p : Phase} (hi : w.completions = []) (hp : w.phase = p)
    (hread : p ≠ .reading) :
    w.Performs (.ok { w with completions := w.completions ++ [p] } [] : Result (List Action)) := by
  refine performs_ok hi ?_
  have hm : w.standing.Move [] { w.standing with completions := [p] } :=
    .work hp fun h => absurd h hread
  simpa only [standing, hi, List.nil_append] using hm

theorem performs_nil (w : Worker) : w.Performs (.ok w [] : Result (List Action)) :=
  ⟨[], .refl _, rfl⟩

theorem performs_inPhase {expected : Phase} {what : String} (hi : w.completions = [])
    (h : w.phase = expected → w.Performs o) : w.Performs (w.inPhase expected what o) := by
  unfold inPhase
  split
  · next hp => exact h hp
  · exact performs_same hi

theorem performs_withNumbering {go : Numbering → Result (List Action)} (hi : w.completions = [])
    (h : ∀ n, w.Performs (go n)) : w.Performs (w.withNumbering go) := by
  unfold withNumbering
  split
  · exact performs_same hi
  · exact h _

end Performs

variable {w : Worker} {source units : Nat}

theorem performs_checkDistributed (hi : w.completions = []) : w.Performs w.checkDistributed := by
  unfold checkDistributed
  split
  · next h => exact performs_ok hi (.distributed h.2.2)
  · exact performs_nil w

theorem Quiet.append_checkDistributed {o : Result (List Action)} (h : w.Quiet o)
    (hi : w.completions = []) : w.Performs (o.append checkDistributed) :=
  (h.performs hi).append (performs_checkDistributed (h.idle hi))

theorem standing_mergeAll (incoming : List (Nat × List Nat)) :
    (w.mergeAll source units incoming).state.standing = w.standing := by
  induction incoming generalizing w with
  | nil => rfl
  | cons e incoming ih =>
    simp only [mergeAll]
    split
    · rfl
    · split
      · rfl
      · exact ih (w := { w with table := record w.table e.1 source e.2 })

theorem quiet_merge (incoming : IdMap (List Nat)) : w.Quiet (w.merge source incoming) := by
  unfold merge
  split
  · exact ⟨rfl, nofun⟩
  · next units _ =>
    have hs : (w.mergeAll source units incoming.entries).state.standing = w.standing :=
      standing_mergeAll incoming.entries
    generalize w.mergeAll source units incoming.entries = o at hs ⊢
    obtain ⟨s, e | a⟩ := o
    · exact ⟨hs, nofun⟩
    · refine ⟨hs, ?_⟩
      rintro out ⟨⟩ a ha
      obtain rfl := List.mem_singleton.1 ha
      rfl

theorem Quiet.append {o : Result (List Action)} {f : Worker → Result (List Action)}
    (ho : w.Quiet o) (hf : ∀ s : Worker, s.Quiet (f s)) : w.Quiet (o.append f) := by
  obtain ⟨s, e | out⟩ := o
  · exact ⟨ho.standing, nofun⟩
  · refine ⟨(hf s).standing.trans ho.standing, fun l hl a ha => ?_⟩
    change ((f s).map (out ++ ·)).result = .ok l at hl
    rw [Outcome.result_map] at hl
    cases hr : (f s).result with
    | error e =>
      rw [hr] at hl
      cases hl
    | ok more =>
      rw [hr] at hl
      cases hl
      rcases List.mem_append.1 ha with ha | ha
      · exact ho.answers out rfl a ha
      · exact (hf s).answers more hr a ha

theorem quiet_mergeParked (parked : List (Nat × IdMap (List Nat))) :
    w.Quiet (w.mergeParked parked) := by
  induction parked generalizing w with
  | nil =>
    refine ⟨rfl, ?_⟩
    rintro out ⟨⟩ a ha
    cases ha
  | cons e parked ih => exact (quiet_merge e.2).append fun s => ih

/-- What is exported goes to the owners of the units, but not to the rank itself. -/
theorem owner_of_mem_exports {rank pes units q : Nat} {buckets : IdMap (List Nat)}
    (h : q ∈ (exports rank pes units buckets).keys) :
    q ≠ rank ∧ ∃ unit, Block.owner units pes unit = q := by
  obtain ⟨v, hv⟩ := IdMap.mem_keys_iff.1 h
  have hget := (get?_foldl_addExport rank pes units buckets.entries ∅ q).symm.trans hv
  rw [IdMap.get?_empty] at hget
  generalize hl : (buckets.entries.filter fun e => q ≠ rank ∧ Block.owner units pes e.1 = q) = l
    at hget
  cases l with
  | nil => cases hget
  | cons e l =>
    have he : e ∈ e :: l := List.mem_cons_self
    rw [← hl, List.mem_filter, decide_eq_true_eq] at he
    exact ⟨he.2.1, e.1, he.2.2⟩

/-! ### Commands and messages -/

theorem performs_partition (hi : w.completions = []) (assignment : List Nat) :
    w.Performs (w.partition units assignment) := by
  refine performs_inPhase hi fun hp => ?_
  have hnone : ∀ q ∈ (∅ : IdMap (IdMap (List Nat))).keys,
      q ≠ w.rank ∧ ∃ unit, Block.owner units w.pes unit = q := by simp
  have hset : w.standing.Move
      ((∅ : IdMap (IdMap (List Nat))).entries.map fun e => .send e.1 (.add e.2))
      { w.standing with phase := .partitioning, units := some units } := .partition units hp hnone
  have hfail : ∀ v, w.Performs
      (refuse { w with units := some units, phase := .partitioning } v : Result (List Action)) :=
    fun v => performs_fail hi hset hi
  split
  · exact performs_same hi
  · dsimp only
    split
    · exact hfail _
    · split
      · exact hfail _
      · next buckets _ =>
        refine Performs.append (performs_ok hi
          (.partition units hp fun q => owner_of_mem_exports)) ?_
        exact (quiet_mergeParked w.parked).append_checkDistributed hi

theorem performs_add (hi : w.completions = []) (incoming : IdMap (List Nat)) :
    w.Performs (w.add source incoming) := by
  unfold add
  split
  · exact performs_same hi
  · split
    · exact performs_ok hi (.answers nofun)
    · exact (quiet_merge incoming).append_checkDistributed hi

theorem performs_ack (hi : w.completions = []) : w.Performs w.ack := by
  unfold ack
  split
  · exact performs_same hi
  · exact performs_checkDistributed (w := { w with pendingAcks := w.pendingAcks - 1 }) hi

theorem performs_flatten (hi : w.completions = []) : w.Performs w.flatten := by
  refine performs_inPhase hi fun hp => ?_
  split
  · exact performs_same hi
  · split
    · exact performs_same hi
    · dsimp only
      split
      · exact performs_fail hi (.flatten hp (.inl rfl)) hi
      · exact performs_ok hi (.flatten hp (.inr ⟨_, rfl⟩))

theorem quiet_lift {β : Type} (o : Outcome Numbering NumberingFault β) {g : β → List Action}
    (hg : ∀ b, ∀ a ∈ g b, a.slot? = none) : w.Quiet ((w.lift o).map g) := by
  obtain ⟨n, e | b⟩ := o
  · exact ⟨rfl, nofun⟩
  · refine ⟨rfl, ?_⟩
    rintro _ ⟨⟩
    exact hg b

theorem quiet_flushRequests : w.Quiet w.flushRequests := by
  unfold flushRequests withNumbering
  split
  · exact ⟨rfl, nofun⟩
  · refine quiet_lift _ fun replies a ha => ?_
    obtain ⟨r, -, rfl⟩ := List.mem_map.1 ha
    rfl

theorem performs_checkReordered (hi : w.completions = []) :
    w.Performs (.ok w.checkReordered [] : Result (List Action)) := by
  unfold checkReordered
  split
  · next h => exact performs_work hi h.1 nofun
  · exact performs_nil w

theorem performs_reorder (hi : w.completions = []) (start : Nat) (asked : IdMap (List Nat)) :
    w.Performs (w.reorder start asked) := by
  refine performs_inPhase hi fun hp => ?_
  split
  · exact performs_same hi
  · have hm : w.standing.Move [] ({ w with phase := .reordering } : Worker).standing := .reorder hp
    refine Performs.behind ?_ hi hm
    refine performs_withNumbering hi fun n => ?_
    have hbegin := quiet_lift (w := { w with phase := .reordering })
      (n.begin w.rank start asked) (g := fun requests =>
        requests.map fun r => Action.send r.1 (.request r.2)) fun requests a ha => by
        obtain ⟨r, -, rfl⟩ := List.mem_map.1 ha
        rfl
    refine (hbegin.performs hi).append ?_
    have hi' := hbegin.idle hi
    exact (quiet_flushRequests.performs hi').append
      (performs_checkReordered (quiet_flushRequests.idle hi'))

theorem performs_request (hi : w.completions = []) (nodes : List Nat) :
    w.Performs (w.request source nodes) := by
  refine performs_withNumbering hi fun n => ?_
  exact (quiet_flushRequests (w := { w with numbering := some (n.push source nodes) })).performs hi

theorem performs_reply (hi : w.completions = []) (pairs : List (Nat × Nat)) :
    w.Performs (w.reply source pairs) := by
  refine performs_inPhase hi fun hp => performs_withNumbering hi fun n => ?_
  generalize n.resolve source pairs = o
  obtain ⟨n', e | u⟩ := o
  · exact performs_same (w := { w with numbering := some n' }) hi
  · exact performs_checkReordered (w := { w with numbering := some n' }) hi

theorem performs_settleBounds (hi : w.completions = []) : w.Performs w.settleBounds := by
  unfold settleBounds tryBounds
  split
  · next l n hl hu _ =>
    split
    · next hp =>
      dsimp only
      generalize hupper : (if w.rank + 1 = w.pes then _ else _) = upper
      have hle : l ≤ upper := by
        rw [← hupper]
        split <;> exact Nat.le_max_right _ _
      refine performs_ok hi ?_
      have hm : w.standing.Move (if w.rank + 1 = w.pes then [] else
          [.send (w.rank + 1) (.lower upper)])
          { w.standing with upper := some upper, completions := [.bounding] } :=
        .settle hp hl hu hle (by split <;> simp [standing])
      simpa only [standing, hi, List.nil_append] using hm
    · exact performs_nil w
  · exact performs_nil w

theorem performs_receiveLower (hi : w.completions = []) (bound : Nat) :
    w.Performs (w.receiveLower source bound) := by
  unfold receiveLower
  split
  · exact performs_same hi
  · split
    · exact performs_same hi
    · next hnone =>
      split
      · exact performs_ok hi (.answers nofun)
      · split
        · next hp =>
          have hl : w.lower = none := by
            rw [not_or, Option.not_isSome_iff_eq_none] at hnone
            exact hnone.1
          exact (performs_settleBounds (w := { w with lower := some bound }) hi).behind hi
            (.lower bound hp hl)
        · exact performs_same hi

theorem performs_deviation (hi : w.completions = []) (mean : Binary64) :
    w.Performs (w.deviation mean) :=
  performs_inPhase hi fun hp => performs_ok hi (.deviation _ hp)

/-- Commands and messages of peers, in whatever state they come. -/
theorem performs_dispatch (hi : w.completions = []) {e : Event} (he : ∀ p, e ≠ .completed p) :
    w.Performs (w.dispatch e) := by
  cases e with
  | command c =>
    cases c with
    | partition units assignment => exact performs_partition hi assignment
    | flatten => exact performs_flatten hi
    | reorder start asked => exact performs_reorder hi start asked
    | deviation mean => exact performs_deviation hi mean
  | peer source m =>
    unfold dispatch
    dsimp only
    split
    · exact performs_same hi
    · cases m with
      | add incoming => exact performs_add hi incoming
      | ack => exact performs_ack hi
      | request nodes => exact performs_request hi nodes
      | reply pairs => exact performs_reply hi pairs
      | lower bound => exact performs_receiveLower hi bound
  | completed p => exact absurd rfl (he p)

/-! ### Completions -/

/-- The completion of a phase leads somewhere, and a chain of moves goes on from there. -/
def Leads (s : Standing) (p : Phase) (o : Result (List Action)) : Prop :=
  ∃ t as bs, s.Completes p as t ∧ Moves t bs o.state.standing ∧ Gives o (as ++ bs)

section Leads

variable {s : Standing} {w : Worker} {p : Phase} {o : Result (List Action)}

theorem leads_ok {as : List Action} (h : s.Completes p as w.standing) : Leads s p (.ok w as) :=
  ⟨_, as, [], h, .refl _, (List.append_nil as).symm⟩

theorem leads_fail {e : RunError} (h : s.Completes p [] w.standing) (hi : w.completions = []) :
    Leads s p (.fail w e) :=
  ⟨_, [], [], h, .refl _, hi⟩

theorem Performs.leads (h : w.Performs o) (hc : s.Completes p [] w.standing) : Leads s p o := by
  obtain ⟨bs, hm, hout⟩ := h
  exact ⟨_, [], bs, hc, hm, hout⟩

end Leads

theorem leads_findCentroids (hi : w.completions = []) :
    Leads w.standing .reading w.findCentroids := by
  unfold findCentroids
  dsimp only
  split
  · exact leads_fail .centroids hi
  · next c _ =>
    exact (performs_work (w := { w with phase := .centroids, centroids := some c }) hi rfl
      nofun).leads .centroids

theorem ids_buildUnits {n : Numbering} {us : List WorkUnit} (h : w.buildUnits n units = .ok us) :
    us.map WorkUnit.id = (Block.span units w.pes w.rank).toList ∧ ∀ u ∈ us, u.pe = w.rank := by
  unfold buildUnits at h
  dsimp only at h
  split at h
  · cases h
  · cases h
    constructor
    · rw [List.map_map]
      exact List.map_id _
    · intro u hu
      obtain ⟨unit, -, rfl⟩ := List.mem_map.1 hu
      rfl

theorem leads_enterBounding (hi : w.completions = []) :
    Leads w.standing .reordering w.enterBounding := by
  unfold enterBounding
  dsimp only
  split
  · exact leads_fail .unnumbered hi
  · exact leads_fail .unnumbered hi
  · next units n hu _ =>
    split
    · exact leads_fail .unnumbered hi
    · next us hus =>
      obtain ⟨hids, hpe⟩ := ids_buildUnits hus
      refine (performs_settleBounds ?_).leads (?_ : w.standing.Completes _ _ _)
      · split
        · exact hi
        · split <;> exact hi
      · split
        · exact .numbered (some 0) hu hids hpe
        · split
          · exact .numbered w.earlyLower hu hids hpe
          · exact .numbered w.lower hu hids hpe

theorem leads_complete (hi : w.completions = []) (p : Phase) :
    Leads w.standing p (w.complete p) := by
  cases p with
  | reading =>
    unfold complete
    dsimp only
    split
    · exact leads_findCentroids hi
    · exact leads_ok (.ready _ (.inl rfl))
  | centroids => exact leads_ok (.ready _ (.inr rfl))
  | reordering => exact leads_enterBounding hi
  | bounding => exact leads_ok (.created _)
  | _ => exact leads_fail (.refused (by decide)) hi

/-! ### Whole calls -/

/-- The call performs its part, and leaves no completion behind. -/
def Settles {ε : Type} (w : Worker) (o : Outcome Worker ε (List Action)) : Prop :=
  w.Performs o ∧ o.state.completions = []

theorem Settles.mapError {ε ε' : Type} {o : Outcome Worker ε (List Action)} (h : w.Settles o)
    (f : ε → ε') : w.Settles (o.mapError f) := by
  obtain ⟨⟨as, hm, hout⟩, hidle⟩ := h
  exact ⟨⟨as, hm, hout.mapError f⟩, hidle⟩

theorem Performs.settles {o : Result (List Action)} (h : w.Performs o)
    (hd : Settles o.state o.state.drain) : w.Settles (o.append drain) := by
  refine ⟨h.append hd.1, ?_⟩
  obtain ⟨as, -, hout⟩ := h
  obtain ⟨s, e | out⟩ := o
  · exact hout
  · exact hd.2

/-- As for `Performs.settles`, behind the completion of a phase. -/
theorem Leads.settles {s : Standing} {p : Phase} {o : Result (List Action)} (h : Leads s p o)
    (hd : Settles o.state o.state.drain) :
    Leads s p (o.append drain) ∧ (o.append drain).state.completions = [] := by
  obtain ⟨t, as, bs, hp, hm, hout⟩ := h
  obtain ⟨⟨cs, hm', hout'⟩, hidle⟩ := hd
  obtain ⟨s, e | out⟩ := o
  · exact ⟨⟨t, as, bs, hp, hm, hout⟩, hout⟩
  · obtain rfl : out = as ++ bs := hout
    refine ⟨⟨t, as, bs ++ cs, hp, hm.trans hm', ?_⟩, hidle⟩
    rw [← List.append_assoc]
    exact hout'.map (as ++ bs)

theorem Performs.pending {o : Result (List Action)} (h : w.Performs o) (hi : w.completions = []) :
    o.state.standing.Pending := by
  obtain ⟨as, hm, -⟩ := h
  exact hm.pending (.inl hi)

theorem Leads.pending {s : Standing} {p : Phase} {o : Result (List Action)} (h : Leads s p o)
    (hs : s.completions = []) : o.state.standing.Pending := by
  obtain ⟨t, as, bs, hp, hm, -⟩ := h
  exact hm.pending (.inl (hp.idle.trans hs))

theorem Leads.performs {o : Result (List Action)} (hc : w.standing.completions = [w.phase])
    (h : Leads { w.standing with completions := [] } w.phase o) : w.Performs o := by
  obtain ⟨t, as, bs, hp, hm, hout⟩ := h
  exact ⟨as ++ bs, .complete hc hp hm, hout⟩

theorem settles_nil (hi : w.completions = []) : w.Settles w.drain := by
  rw [drain_of_nil hi]
  exact ⟨performs_nil w, hi⟩

/-- Dealing with all completions, from one that waits on. -/
theorem leads_drain {w : Worker} {p : Phase} (hc : w.completions = [p]) :
    Leads { w.standing with completions := [] } p w.drain ∧ w.drain.state.completions = [] := by
  have hload := load_complete { w with completions := [] } p
  have hlead := leads_complete (w := { w with completions := [] }) rfl p
  rw [drain_of_cons hc]
  generalize complete { w with completions := [] } p = o at *
  have hlt : load o.state.completions < load w.completions := by
    simpa [hc, load] using hload
  refine hlead.settles ?_
  rcases hlead.pending rfl with hidle | hnext
  · exact settles_nil hidle
  · obtain ⟨hl, hidle⟩ := leads_drain hnext
    exact ⟨hl.performs hnext, hidle⟩
termination_by load w.completions

theorem settles_drain (h : w.standing.Pending) : w.Settles w.drain := by
  rcases h with hi | hc
  · exact settles_nil hi
  · obtain ⟨hl, hidle⟩ := leads_drain hc
    exact ⟨hl.performs hc, hidle⟩

theorem settles_handle (hi : w.completions = []) {e : Event} (he : ∀ p, e ≠ .completed p) :
    w.Settles (w.handle e) := by
  have hd := performs_dispatch hi he
  exact hd.settles (settles_drain (hd.pending hi))

/-- A completion that is handed in counts in every phase. -/
theorem leads_handle (hi : w.completions = []) (p : Phase) :
    Leads w.standing p (w.handle (.completed p)) ∧
      (w.handle (.completed p)).state.completions = [] := by
  have hlead := leads_complete hi p
  exact hlead.settles (settles_drain (hlead.pending hi))

theorem read_cases (w : Worker) :
    (∃ w' e, w.read = .fail w' e ∧ w'.standing = w.standing) ∨
      ∃ w' n, w.read = .ok w' [.contribute (.load n)] ∧
        w'.standing = { w.standing with completions := w.completions ++ [.reading] } := by
  unfold read
  split
  · exact .inl ⟨_, _, rfl, rfl⟩
  · dsimp only
    split
    · exact .inl ⟨_, _, rfl, rfl⟩
    · exact .inr ⟨_, _, rfl, rfl⟩

/-- What `start` does the first time. The completion of reading counts in every phase. -/
theorem start_cases (hi : w.completions = []) (hs : w.started = false) :
    (∃ w' e, w.start = .fail w' e ∧ w'.standing = { w.standing with started := true }) ∨
      ∃ (w' : Worker) (n : Nat),
        w.start = ((w'.handle (.completed .reading)).mapError .error).map
          ([.contribute (.load n)] ++ ·) ∧
        w'.standing = { w.standing with started := true } := by
  unfold start
  rw [if_neg (by simp [hs])]
  rcases read_cases { w with started := true } with ⟨w', e, hr, hw⟩ | ⟨w', n, hr, hw⟩
  · rw [hr]
    exact .inl ⟨w', e, rfl, hw⟩
  · have hc : w'.completions = [.reading] := by
      have h := congrArg Standing.completions hw
      rwa [show w.completions ++ [.reading] = [.reading] by simp [hi]] at h
    refine .inr ⟨{ w' with completions := [] }, n, ?_, ?_⟩
    · rw [hr, Outcome.append_ok, drain_of_cons hc]
      rfl
    · have hidle := congrArg (fun s : Standing => { s with completions := [] }) hw
      simpa [standing, hi] using hidle

theorem start_again (hs : w.started = true) :
    w.start = (w.refuse .startedTwice).mapError .error :=
  if_pos hs

/-- Without centroids, what is read goes to the host at once. -/
theorem start_of_read {w r : Worker} {as : List Action} (hs : w.started = false)
    (hr : read { w with started := true } = .ok { r with completions := [.reading] } as)
    (hi : r.completions = []) (hg : r.geometric = false) :
    w.start = (r.ready.mapError .error).map (as ++ ·) := by
  have hidle : { r with completions := [] } = r := by
    cases r
    cases hi
    rfl
  have hcomplete : r.complete .reading = r.ready := if_neg (by simp [hg])
  have hdrain : r.ready.append drain = r.ready :=
    (congrArg (·.append drain) hcomplete).symm.trans
      (handle_of_dispatch (e := .completed .reading) hcomplete hi)
  unfold start
  rw [if_neg (by simp [hs]), hr, Outcome.append_ok, drain_of_cons rfl]
  change ((Outcome.append (complete { r with completions := [] } .reading) drain).mapError
    Failure.error).map _ = _
  rw [hidle, hcomplete, hdrain]

theorem settles_start (hi : w.completions = []) (hp : w.started = false → w.phase = .reading) :
    w.Settles w.start := by
  cases hs : w.started with
  | true =>
    rw [start_again hs]
    exact ⟨performs_same hi, hi⟩
  | false =>
    rcases start_cases hi hs with ⟨w', e, hr, hw⟩ | ⟨w', n, hr, hw⟩
    · have hi' : w'.completions = [] := (congrArg Standing.completions hw).trans hi
      rw [hr]
      exact ⟨performs_fail hi (hw ▸ .start hs (.inl rfl)) hi', hi'⟩
    · have hi' : w'.completions = [] := (congrArg Standing.completions hw).trans hi
      obtain ⟨⟨t, as, bs, ht, hm, hout⟩, hidle⟩ := leads_handle hi' .reading
      rw [hr]
      refine ⟨?_, hidle⟩
      have hstart : w.standing.Move [.contribute (.load n)] { w.standing with started := true } :=
        .start hs (.inr ⟨n, rfl⟩)
      have hwork : Move { w.standing with started := true } []
          { w.standing with started := true, completions := [w.phase] } := .work rfl fun _ => rfl
      have hread :
          Completes { w.standing with started := true, completions := [] } w.phase as t := by
        rw [hw, ← hp hs] at ht
        simpa [standing, hi] using ht
      exact ⟨_, .move hi hstart (.move hi hwork (.complete rfl hread hm)),
        (hout.mapError _).map _⟩

/-- A call from outside, once the completion of reading has a single place. -/
theorem settles_answer (hi : w.completions = []) (hp : w.started = false → w.phase = .reading)
    {c : Call} (hc : c.FromOutside) : w.Settles (w.answer c) := by
  cases c with
  | start => exact settles_start hi hp
  | handle e =>
    have hsettles : w.Settles (w.handle e) := by
      refine settles_handle hi ?_
      rintro p rfl
      exact hc
    exact hsettles.mapError Failure.error

/-! ### Sequences of calls -/

theorem idle_answer (hi : w.completions = []) (c : Call) : (w.answer c).state.completions = [] := by
  cases c with
  | start =>
    change w.start.state.completions = []
    cases hs : w.started with
    | true =>
      rw [start_again hs]
      exact hi
    | false =>
      rcases start_cases hi hs with ⟨w', e, hr, hw⟩ | ⟨w', n, hr, hw⟩
      · rw [hr]
        exact (congrArg Standing.completions hw).trans hi
      · rw [hr]
        exact (leads_handle ((congrArg Standing.completions hw).trans hi) .reading).2
  | handle e =>
    by_cases he : ∃ p, e = .completed p
    · obtain ⟨p, rfl⟩ := he
      exact (leads_handle hi p).2
    · exact (settles_handle hi fun p h => he ⟨p, h⟩).2

theorem idle_after (hi : w.completions = []) (calls : List Call) :
    (w.after calls).completions = [] := by
  induction calls generalizing w with
  | nil => exact hi
  | cons c calls ih => exact ih (idle_answer hi c)

theorem Gives.told_sublist {ε : Type} {o : Outcome Worker ε (List Action)} {as : List Action}
    (h : Gives o as) : (told o).Sublist as := by
  obtain ⟨s, e | out⟩ := o
  · exact List.nil_sublist as
  · obtain rfl : out = as := h
    exact List.Sublist.refl out

/-- Calls from outside are a chain of moves, with the actions of the chain at most. -/
theorem moves_after (hi : w.completions = []) (hs : w.standing.StartsReading) {calls : List Call}
    (h : ∀ c ∈ calls, c.FromOutside) :
    ∃ as, Moves w.standing as (w.after calls).standing ∧ (w.emitted calls).Sublist as := by
  induction calls generalizing w with
  | nil => exact ⟨[], .refl _, List.nil_sublist _⟩
  | cons c calls ih =>
    obtain ⟨hc, hcalls⟩ := List.forall_mem_cons.1 h
    obtain ⟨⟨as, hm, hout⟩, hidle⟩ := settles_answer hi (fun h => (hs h).1) hc
    obtain ⟨bs, hms, hsub⟩ := ih hidle (hm.startsReading hs) hcalls
    exact ⟨as ++ bs, hm.trans hms, hout.told_sublist.append hsub⟩

/-- Before the first call. -/
def Standing.fresh (rank pes : Nat) : Standing where
  rank
  pes
  phase := .reading
  started := false
  completions := []
  units := none
  distributed := false
  built := []
  lower := none
  upper := none

theorem worker_of_create {rank pes : Nat} {reader : Reader} {settings : Settings} {w₀ : Worker}
    (h : create rank pes reader settings = .ok w₀) :
    rank < pes ∧ w₀ = { rank, pes, reader, geometric := settings.algorithm.geometric } := by
  unfold create at h
  cases hv : settings.validate with
  | error e => simp [hv, Except.mapError, bind, Except.bind] at h
  | ok u =>
    simp only [hv, Except.mapError, bind, Except.bind] at h
    split at h
    · next hr =>
      cases h
      exact ⟨hr, rfl⟩
    · cases h

theorem standing_of_create {rank pes : Nat} {reader : Reader} {settings : Settings} {w₀ : Worker}
    (h : create rank pes reader settings = .ok w₀) (p : Partitioner) :
    rank < pes ∧ (w₀.prepareFor p).standing = .fresh rank pes := by
  obtain ⟨hr, rfl⟩ := worker_of_create h
  exact ⟨hr, rfl⟩

theorem Standing.startsReading_fresh (rank pes : Nat) : (fresh rank pes).StartsReading :=
  fun _ => ⟨rfl, rfl⟩

/-! ### One rank with one element -/

def loneMesh : TetMesh where
  tets := [⟨10, 11, 12, 13⟩]
  coordinates := .ofList ((List.range' 10 4).map fun x => (x, .origin))

def loneSettings : Settings := { algorithm := .elementOrder, units := some 1 }

def lone : Worker where
  rank := 0
  pes := 1
  reader := loneMesh.reader
  geometric := false

/-- What `lone` reads. -/
def loneReady : Worker :=
  { lone with
    started := true
    total := 1
    portion := ⟨[10, 11, 12, 13], [0]⟩
    phase := .ready }

theorem start_lone :
    lone.start = .ok loneReady
      [.contribute (.load 1), .contribute .setup,
        .contribute (.elements ⟨0, [10, 11, 12, 13], none⟩)] := by
  have hread : read { lone with started := true } =
      .ok { loneReady with phase := .reading, completions := [.reading] }
        [.contribute (.load 1)] := rfl
  exact start_of_read (r := { loneReady with phase := .reading }) rfl hread rfl rfl

/-- Its only element goes into the only work unit. -/
def lonePartitioned : Worker :=
  { loneReady with
    phase := .partitioning
    units := some 1
    table := .ofList [(0, .ofList [(0, [10, 11, 12, 13])])]
    partitioned := true
    distributed := true }

def loneCalls : List Call := [.start, .handle (.command (.partition 1 [0]))]

theorem partition_lone :
    loneReady.handle (.command (.partition 1 [0])) =
      .ok lonePartitioned [.contribute .distributed] :=
  handle_of_dispatch rfl rfl

theorem after_loneCalls : lone.after loneCalls = lonePartitioned := by
  change ((lone.start.state).handle (.command (.partition 1 [0]))).state = _
  rw [start_lone, Outcome.state_ok, partition_lone, Outcome.state_ok]

/-! ### The first of two ranks, with one element each -/

def pairMesh : TetMesh where
  tets := [⟨10, 11, 12, 13⟩, ⟨11, 12, 13, 14⟩]
  coordinates := .ofList ((List.range' 10 5).map fun x => (x, .origin))

def pairSettings : Settings := { algorithm := .elementOrder, units := some 2 }

/-- The first of two ranks, before it reads its element. -/
def first : Worker where
  rank := 0
  pes := 2
  reader := pairMesh.reader
  geometric := false

def firstReady : Worker :=
  { first with
    started := true
    total := 2
    portion := ⟨[10, 11, 12, 13], [0]⟩
    phase := .ready }

/-- Its element goes to the other rank. -/
def firstPartitioned : Worker :=
  { firstReady with
    phase := .partitioning
    units := some 2
    pendingAcks := 1
    partitioned := true }

/-- The element of the other rank has come. -/
def firstMerged : Worker :=
  { firstPartitioned with table := .ofList [(0, .ofList [(1, [11, 12, 13, 14])])] }

def firstDistributed : Worker := { firstMerged with pendingAcks := 0, distributed := true }

def firstFlattened : Worker :=
  { firstDistributed with
    phase := .flattening
    numbering := some { nodes := [11, 12, 13, 14] } }

def firstNumbering : Numbering where
  nodes := [11, 12, 13, 14]
  newIds := .ofList [(11, 0), (12, 1), (13, 2), (14, 3)]
  block := ⟨0, 4⟩
  begun := true

def firstUnit : WorkUnit :=
  ⟨0, 0, [0, 1, 2, 3], .ofList [(0, 11), (1, 12), (2, 13), (3, 14)]⟩

/-- It has numbered all its nodes. -/
def firstNumbered : Worker :=
  { firstFlattened with phase := .reordering, numbering := some firstNumbering }

def firstBounded : Worker :=
  { firstNumbered with
    phase := .bounding
    built := [firstUnit]
    highest := 3
    lower := some 0
    upper := some 3
    cost := some (costOf firstNumbering ⟨0, 3⟩) }

def firstCreated : Worker := { firstBounded with phase := .creating, built := [] }

/-- It exports its element, takes that of the other rank, and goes on until its unit is out. -/
def firstCalls : List Call :=
  [.start, .handle (.command (.partition 2 [1])),
    .handle (.peer 1 (.add (.ofList [(0, [11, 12, 13, 14])]))), .handle (.peer 1 .ack),
    .handle (.command .flatten), .handle (.command (.reorder 0 ∅))]

theorem start_first :
    first.start = .ok firstReady
      [.contribute (.load 1), .contribute .setup,
        .contribute (.elements ⟨0, [10, 11, 12, 13], none⟩)] := by
  have hread : read { first with started := true } =
      .ok { firstReady with phase := .reading, completions := [.reading] }
        [.contribute (.load 1)] := rfl
  exact start_of_read (r := { firstReady with phase := .reading }) rfl hread rfl rfl

theorem partition_first :
    firstReady.handle (.command (.partition 2 [1])) =
      .ok firstPartitioned [.send 1 (.add (.ofList [(1, [10, 11, 12, 13])]))] :=
  handle_of_dispatch rfl rfl

theorem add_first :
    firstPartitioned.handle (.peer 1 (.add (.ofList [(0, [11, 12, 13, 14])]))) =
      .ok firstMerged [.send 1 .ack] :=
  handle_of_dispatch rfl rfl

theorem ack_first :
    firstMerged.handle (.peer 1 .ack) = .ok firstDistributed [.contribute .distributed] :=
  handle_of_dispatch rfl rfl

theorem flatten_first :
    firstDistributed.handle (.command .flatten) =
      .ok firstFlattened [.contribute .flattened, .contribute (.nodes [11, 12, 13, 14])] :=
  handle_of_dispatch rfl rfl

theorem reorder_first :
    firstFlattened.handle (.command (.reorder 0 ∅)) =
      .ok firstCreated [.send 1 (.lower 3), .instantiate firstUnit, .bounds 0 ⟨0, 3⟩,
        .contribute (.cost (costOf firstNumbering ⟨0, 3⟩))] := by
  have hreorder : firstFlattened.dispatch (.command (.reorder 0 ∅)) =
      .ok { firstNumbered with completions := [.reordering] } [] := rfl
  have hbounding : firstNumbered.complete .reordering =
      .ok { firstBounded with completions := [.bounding] } [.send 1 (.lower 3)] := rfl
  have hhand : firstBounded.complete .bounding =
      .ok firstCreated [.instantiate firstUnit, .bounds 0 ⟨0, 3⟩,
        .contribute (.cost (costOf firstNumbering ⟨0, 3⟩))] := rfl
  have hdrain : drain { firstBounded with completions := [.bounding] } =
      .ok firstCreated [.instantiate firstUnit, .bounds 0 ⟨0, 3⟩,
        .contribute (.cost (costOf firstNumbering ⟨0, 3⟩))] := by
    rw [drain_of_cons rfl]
    change (firstBounded.complete .bounding).append drain = _
    rw [hhand, Outcome.append_ok, drain_of_nil rfl]
    rfl
  rw [handle, hreorder, Outcome.append_ok, drain_of_cons rfl]
  change ((firstNumbered.complete .reordering).append drain).map _ = _
  rw [hbounding, Outcome.append_ok, hdrain]
  rfl

theorem after_firstCalls : first.after firstCalls = firstCreated := by
  simp only [firstCalls, after, List.foldl_cons, List.foldl_nil, answer, Outcome.state_mapError,
    start_first, partition_first, add_first, ack_first, flatten_first, reorder_first,
    Outcome.state_ok]

theorem emitted_firstCalls :
    first.emitted firstCalls =
      [.contribute (.load 1), .contribute .setup,
        .contribute (.elements ⟨0, [10, 11, 12, 13], none⟩),
        .send 1 (.add (.ofList [(1, [10, 11, 12, 13])])), .send 1 .ack, .contribute .distributed,
        .contribute .flattened, .contribute (.nodes [11, 12, 13, 14]), .send 1 (.lower 3),
        .instantiate firstUnit, .bounds 0 ⟨0, 3⟩,
        .contribute (.cost (costOf firstNumbering ⟨0, 3⟩))] := by
  simp only [firstCalls, emitted, answer, start_first, partition_first, add_first, ack_first,
    flatten_first, reorder_first, Outcome.mapError_ok, Outcome.state_ok]
  rfl

theorem firstCalls_fromOutside : ∀ c ∈ firstCalls, c.FromOutside := by
  simp [firstCalls, Call.FromOutside]

end Worker
end MeshDecomp
