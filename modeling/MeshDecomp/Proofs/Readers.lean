import MeshDecomp.Worker.Step

/-! Once a processing element has read its elements, it does not look at its reader any more. -/

namespace MeshDecomp

namespace Outcome

variable {σ τ ε ε' α β : Type}

theorem mapState_bind {g : σ → τ} {o : Outcome σ ε α} {f : σ → α → Outcome σ ε β}
    {f' : τ → α → Outcome τ ε β} (h : ∀ s a, f' (g s) a = (f s a).mapState g) :
    (o.mapState g).bind f' = (o.bind f).mapState g := by
  obtain ⟨s, _ | a⟩ := o
  · rfl
  · exact h s a

theorem mapState_append {g : σ → τ} {o : Outcome σ ε (List α)}
    {f : σ → Outcome σ ε (List α)} {f' : τ → Outcome τ ε (List α)}
    (h : ∀ s, f' (g s) = (f s).mapState g) :
    (o.mapState g).append f' = (o.append f).mapState g := by
  refine mapState_bind fun s as => ?_
  rw [h]
  rfl

end Outcome

namespace Worker

/-- A processing element with another reader. -/
def withReader (r : Reader) (w : Worker) : Worker := { w with reader := r }

variable {w : Worker} {r : Reader} {units source : Nat}

theorem inPhase_withReader {expected : Phase} {what : String} {go go' : Result α}
    (h : go' = go.mapState (withReader r)) :
    (w.withReader r).inPhase expected what go' =
      (w.inPhase expected what go).mapState (withReader r) := by
  unfold inPhase
  rw [apply_ite (Outcome.mapState _), h]
  rfl

/-! ### Distribution -/

theorem checkDistributed_withReader :
    (w.withReader r).checkDistributed = w.checkDistributed.mapState (withReader r) := by
  unfold checkDistributed
  rw [apply_ite (Outcome.mapState _)]
  rfl

theorem mergeAll_withReader (incoming : List (Nat × List Nat)) :
    (w.withReader r).mergeAll source units incoming =
      (w.mergeAll source units incoming).mapState (withReader r) := by
  induction incoming generalizing w with
  | nil => rfl
  | cons e incoming ih =>
    obtain ⟨unit, nodes⟩ := e
    simp only [mergeAll]
    rw [apply_ite (Outcome.mapState _), apply_ite (Outcome.mapState _), ← ih]
    rfl

theorem merge_withReader (incoming : IdMap (List Nat)) :
    (w.withReader r).merge source incoming =
      (w.merge source incoming).mapState (withReader r) := by
  unfold merge
  have hunits : (w.withReader r).units = w.units := rfl
  rw [hunits]
  cases w.units with
  | none => rfl
  | some units =>
    dsimp only
    rw [mergeAll_withReader]
    rfl

theorem mergeParked_withReader (parked : List (Nat × IdMap (List Nat))) :
    (w.withReader r).mergeParked parked =
      (w.mergeParked parked).mapState (withReader r) := by
  induction parked generalizing w with
  | nil => rfl
  | cons e parked ih =>
    obtain ⟨source, incoming⟩ := e
    simp only [mergeParked]
    rw [merge_withReader]
    exact Outcome.mapState_append fun w => ih

/-- What was parked is merged, and the distribution may be done. -/
theorem mergeParked_append_withReader (w : Worker) (parked : List (Nat × IdMap (List Nat))) :
    ((w.withReader r).mergeParked parked).append checkDistributed =
      ((w.mergeParked parked).append checkDistributed).mapState (withReader r) := by
  rw [mergeParked_withReader]
  exact Outcome.mapState_append fun w => checkDistributed_withReader

theorem partition_withReader (assignment : List Nat) :
    (w.withReader r).partition units assignment =
      (w.partition units assignment).mapState (withReader r) := by
  refine inPhase_withReader ?_
  rw [apply_ite (Outcome.mapState _)]
  dsimp only
  rw [apply_ite (Outcome.mapState _)]
  congr 2
  have hportion : (w.withReader r).portion = w.portion := rfl
  rw [hportion]
  cases bucket units ((Tet.ofFlat w.portion.connectivity).zip assignment) with
  | error v => rfl
  | ok buckets =>
    let v := distribute { w with units := some units, phase := .partitioning } units buckets
    exact congrArg (Outcome.map (v.2 ++ ·))
      (mergeParked_append_withReader { v.1 with partitioned := true, parked := [] } v.1.parked)

theorem add_withReader (incoming : IdMap (List Nat)) :
    (w.withReader r).add source incoming = (w.add source incoming).mapState (withReader r) := by
  unfold add
  rw [apply_ite (Outcome.mapState _), apply_ite (Outcome.mapState _)]
  congr 2
  rw [merge_withReader]
  exact Outcome.mapState_append fun w => checkDistributed_withReader

theorem ack_withReader : (w.withReader r).ack = w.ack.mapState (withReader r) := by
  unfold ack
  rw [apply_ite (Outcome.mapState _), ← checkDistributed_withReader]
  rfl

theorem flatten_withReader : (w.withReader r).flatten = w.flatten.mapState (withReader r) := by
  refine inPhase_withReader ?_
  rw [apply_ite (Outcome.mapState _)]
  congr 1
  obtain ⟨⟩ := w
  dsimp only [withReader, nodesOf]
  split
  · rfl
  · split <;> rfl

/-! ### Renumbering -/

theorem withNumbering_withReader {go go' : Numbering → Result α}
    (h : ∀ n, go' n = (go n).mapState (withReader r)) :
    (w.withReader r).withNumbering go' = (w.withNumbering go).mapState (withReader r) := by
  unfold withNumbering
  have hnumbering : (w.withReader r).numbering = w.numbering := rfl
  rw [hnumbering]
  cases w.numbering with
  | none => rfl
  | some n => exact h n

theorem flushRequests_withReader :
    (w.withReader r).flushRequests = w.flushRequests.mapState (withReader r) :=
  withNumbering_withReader fun _ => rfl

theorem checkReordered_withReader :
    (w.withReader r).checkReordered = w.checkReordered.withReader r := by
  unfold checkReordered
  rw [apply_ite (withReader r)]
  rfl

theorem reorder_withReader (start : Nat) (asked : IdMap (List Nat)) :
    (w.withReader r).reorder start asked = (w.reorder start asked).mapState (withReader r) := by
  refine inPhase_withReader ?_
  rw [apply_ite (Outcome.mapState _)]
  congr 1
  refine withNumbering_withReader (w := { w with phase := .reordering }) fun n => ?_
  refine Outcome.mapState_append (g := withReader r) (o := (lift { w with phase := .reordering }
    (n.begin w.rank start asked)).map fun requests =>
      requests.map fun r => Action.send r.1 (.request r.2))
    (f := fun w => w.flushRequests.append fun w => .ok w.checkReordered []) fun w => ?_
  rw [flushRequests_withReader]
  refine Outcome.mapState_append fun w => ?_
  rw [checkReordered_withReader]
  rfl

theorem request_withReader (nodes : List Nat) :
    (w.withReader r).request source nodes =
      (w.request source nodes).mapState (withReader r) :=
  withNumbering_withReader fun n =>
    flushRequests_withReader (w := { w with numbering := some (n.push source nodes) })

theorem reply_withReader (pairs : List (Nat × Nat)) :
    (w.withReader r).reply source pairs = (w.reply source pairs).mapState (withReader r) := by
  refine inPhase_withReader (withNumbering_withReader fun n => ?_)
  refine Outcome.mapState_bind (g := withReader r) (o := w.lift (n.resolve source pairs))
    fun w _ => ?_
  rw [checkReordered_withReader]
  rfl

/-! ### Bounds -/

theorem tryBounds_withReader :
    (w.withReader r).tryBounds = (w.tryBounds.1.withReader r, w.tryBounds.2) := by
  obtain ⟨⟩ := w
  dsimp only [withReader, tryBounds]
  split
  · split <;> rfl
  · rfl

theorem settleBounds_withReader :
    (w.withReader r).settleBounds = w.settleBounds.mapState (withReader r) := by
  unfold settleBounds
  rw [tryBounds_withReader]
  rfl

/-- The work units are built, and the bounds are looked for from the lower bound that is known. -/
theorem enterBounding_eq {n : Numbering} (hu : w.units = some units) (hn : w.numbering = some n) :
    w.enterBounding =
      match w.buildUnits n units with
      | .error v => refuse { w with phase := .bounding } v
      | .ok built =>
          let w := { w with
            phase := .bounding, built
            highest := (built.flatMap WorkUnit.connectivity).foldl max 0 }
          settleBounds <|
            if w.rank = 0 then { w with lower := some 0 }
            else if w.earlyLower.isSome then { w with lower := w.earlyLower, earlyLower := none }
            else w := by
  obtain ⟨⟩ := w
  obtain rfl := hu
  obtain rfl := hn
  rfl

theorem enterBounding_withReader :
    (w.withReader r).enterBounding = w.enterBounding.mapState (withReader r) := by
  cases hu : w.units with
  | none =>
    obtain ⟨⟩ := w
    obtain rfl := hu
    rfl
  | some units =>
    cases hn : w.numbering with
    | none =>
      obtain ⟨⟩ := w
      obtain rfl := hu
      obtain rfl := hn
      rfl
    | some n =>
      have hbuilt : (w.withReader r).buildUnits n units = w.buildUnits n units := rfl
      rw [enterBounding_eq hu hn, enterBounding_eq (w := w.withReader r) hu hn, hbuilt]
      cases w.buildUnits n units with
      | error v => rfl
      | ok built =>
        dsimp only
        rw [← settleBounds_withReader, apply_ite (withReader r), apply_ite (withReader r)]
        rfl

theorem receiveLower_withReader (bound : Nat) :
    (w.withReader r).receiveLower source bound =
      (w.receiveLower source bound).mapState (withReader r) := by
  unfold receiveLower
  rw [apply_ite (Outcome.mapState _), apply_ite (Outcome.mapState _),
    apply_ite (Outcome.mapState _), apply_ite (Outcome.mapState _), ← settleBounds_withReader]
  rfl

theorem deviation_withReader (mean : Binary64) :
    (w.withReader r).deviation mean = (w.deviation mean).mapState (withReader r) :=
  inPhase_withReader rfl

/-! ### Calls -/

/-- Nothing is to be read any more. -/
def HasRead (w : Worker) : Prop := .reading ∉ w.completions

theorem complete_withReader {p : Phase} (hp : p ≠ .reading) :
    (w.withReader r).complete p = (w.complete p).mapState (withReader r) := by
  cases p with
  | reading => exact absurd rfl hp
  | reordering => exact enterBounding_withReader
  | _ => rfl

theorem hasRead_tryBounds (h : w.HasRead) : w.tryBounds.1.HasRead := by
  unfold tryBounds
  split
  · split
    · simpa [HasRead] using h
    · exact h
  · exact h

theorem hasRead_complete {p : Phase} (hp : p ≠ .reading) (h : w.HasRead) :
    (w.complete p).state.HasRead := by
  cases p with
  | reading => exact absurd rfl hp
  | reordering =>
    unfold complete enterBounding
    dsimp only
    split
    · exact h
    · exact h
    · split
      · exact h
      · refine hasRead_tryBounds ?_
        split
        · exact h
        · split <;> exact h
  | _ => exact h

/-- A change of the state that every completion carries through, in whatever states come up, is
carried through all of them. -/
theorem drain_mapState {g : Worker → Worker} {I : Worker → Prop}
    (hcompletions : ∀ w, (g w).completions = w.completions)
    (hstep : ∀ w p rest, I w → w.completions = p :: rest →
      complete { g w with completions := rest } p =
          (complete { w with completions := rest } p).mapState g ∧
        I (complete { w with completions := rest } p).state)
    {w : Worker} (h : I w) : (g w).drain = w.drain.mapState g := by
  revert h
  refine drain_induction (motive := fun w o => I w → (g w).drain = o.mapState g) ?_ ?_ w
  · intro w hc _
    exact drain_of_nil ((hcompletions w).trans hc)
  · intro w p rest hc ih hw
    obtain ⟨hcomplete, hstate⟩ := hstep w p rest hw hc
    have ih := ih hstate
    rw [drain_of_cons ((hcompletions w).trans hc), hcomplete]
    generalize complete { w with completions := rest } p = o at *
    obtain ⟨s, _ | as⟩ := o
    · rfl
    · exact congrArg (Outcome.map _) ih

theorem drain_withReader {w : Worker} (h : w.HasRead) :
    (w.withReader r).drain = w.drain.mapState (withReader r) := by
  refine drain_mapState (g := withReader r) (I := HasRead) (fun _ => rfl) ?_ h
  intro w p rest hw hc
  have hmem : ∀ q ∈ p :: rest, q ≠ .reading := fun q hq he => hw (hc ▸ he ▸ hq)
  have hrest : HasRead { w with completions := rest } := fun hr =>
    hmem _ (List.mem_cons_of_mem _ hr) rfl
  exact ⟨complete_withReader (w := { w with completions := rest }) (hmem p List.mem_cons_self),
    hasRead_complete (hmem p List.mem_cons_self) hrest⟩

theorem hasRead_checkReordered (h : w.HasRead) : w.checkReordered.HasRead := by
  unfold checkReordered
  split
  · simpa [HasRead] using h
  · exact h

section Bind

variable {o : Result α} {go : Result β}

theorem hasRead_bind {f : Worker → α → Result β} (ho : o.state.HasRead)
    (hf : ∀ w a, w.HasRead → (f w a).state.HasRead) : (o.bind f).state.HasRead := by
  obtain ⟨s, _ | a⟩ := o
  · exact ho
  · exact hf s a ho

theorem hasRead_append {o : Result (List α)} {f : Worker → Result (List α)}
    (ho : o.state.HasRead) (hf : ∀ w, w.HasRead → (f w).state.HasRead) :
    (o.append f).state.HasRead :=
  hasRead_bind ho fun w _ hw => hf w hw

theorem hasRead_inPhase {expected : Phase} {what : String} (h : w.HasRead)
    (hgo : go.state.HasRead) : (w.inPhase expected what go).state.HasRead := by
  unfold inPhase
  split
  · exact hgo
  · exact h

theorem hasRead_withNumbering {go : Numbering → Result β} (h : w.HasRead)
    (hgo : ∀ n, (go n).state.HasRead) : (w.withNumbering go).state.HasRead := by
  unfold withNumbering
  split
  · exact h
  · exact hgo _

end Bind

theorem hasRead_flushRequests (h : w.HasRead) : w.flushRequests.state.HasRead :=
  hasRead_withNumbering h fun _ => h

theorem hasRead_checkDistributed (h : w.HasRead) : w.checkDistributed.state.HasRead := by
  unfold checkDistributed
  split <;> exact h

theorem hasRead_mergeAll {incoming : List (Nat × List Nat)} (h : w.HasRead) :
    (w.mergeAll source units incoming).state.HasRead := by
  induction incoming generalizing w with
  | nil => exact h
  | cons e incoming ih =>
    simp only [mergeAll]
    split
    · exact h
    · split
      · exact h
      · exact ih (w := { w with table := record w.table e.1 source e.2 }) h

theorem hasRead_merge {incoming : IdMap (List Nat)} (h : w.HasRead) :
    (w.merge source incoming).state.HasRead := by
  unfold merge
  split
  · exact h
  · exact hasRead_mergeAll h

theorem hasRead_mergeParked {parked : List (Nat × IdMap (List Nat))} (h : w.HasRead) :
    (w.mergeParked parked).state.HasRead := by
  induction parked generalizing w with
  | nil => exact h
  | cons e parked ih => exact hasRead_append (hasRead_merge h) fun w hw => ih hw

theorem hasRead_obey {c : Command} (h : w.HasRead) : (w.obey c).state.HasRead := by
  cases c with
  | partition units assignment =>
    refine hasRead_inPhase h ?_
    split
    · exact h
    · dsimp only
      split
      · exact h
      · split
        · exact h
        · refine hasRead_append h fun w hw => ?_
          exact hasRead_append (hasRead_mergeParked hw) fun w => hasRead_checkDistributed
  | flatten =>
    refine hasRead_inPhase h ?_
    split
    · exact h
    · split
      · exact h
      · dsimp only
        split <;> exact h
  | reorder start asked =>
    refine hasRead_inPhase h ?_
    split
    · exact h
    · refine hasRead_withNumbering h fun n => hasRead_append h fun w hw => ?_
      exact hasRead_append (hasRead_flushRequests hw) fun w => hasRead_checkReordered
  | deviation mean => exact hasRead_inPhase h h

theorem hasRead_receive {m : PeerMessage} (h : w.HasRead) : (w.receive source m).state.HasRead := by
  cases m with
  | add incoming =>
    unfold receive add
    dsimp only
    split
    · exact h
    · split
      · exact h
      · exact hasRead_append (hasRead_merge h) fun w => hasRead_checkDistributed
  | ack =>
    unfold receive ack
    dsimp only
    split
    · exact h
    · exact hasRead_checkDistributed (w := { w with pendingAcks := w.pendingAcks - 1 }) h
  | request nodes =>
    exact hasRead_withNumbering h fun n =>
      hasRead_flushRequests (w := { w with numbering := some (n.push source nodes) }) h
  | reply pairs =>
    refine hasRead_inPhase h (hasRead_withNumbering h fun n => ?_)
    exact hasRead_bind h fun w _ => hasRead_checkReordered
  | lower bound =>
    unfold receive receiveLower
    dsimp only
    split
    · exact h
    · split
      · exact h
      · split
        · exact h
        · split
          · exact hasRead_tryBounds (w := { w with lower := some bound }) h
          · exact h

/-- Commands and messages of peers do not make a processing element read again. -/
theorem hasRead_dispatch {e : Event} (he : ∀ p, e ≠ .completed p) (h : w.HasRead) :
    (w.dispatch e).state.HasRead := by
  cases e with
  | command c => exact hasRead_obey h
  | peer source m =>
    unfold dispatch
    dsimp only
    split
    · exact h
    · exact hasRead_receive h
  | completed p => exact absurd rfl (he p)

theorem dispatch_withReader {e : Event} (he : ∀ p, e ≠ .completed p) :
    (w.withReader r).dispatch e = (w.dispatch e).mapState (withReader r) := by
  cases e with
  | command c =>
    cases c with
    | partition units assignment => exact partition_withReader assignment
    | flatten => exact flatten_withReader
    | reorder start asked => exact reorder_withReader start asked
    | deviation mean => exact deviation_withReader mean
  | peer source m =>
    have hreceive : (w.withReader r).receive source m =
        (w.receive source m).mapState (withReader r) := by
      cases m with
      | add incoming => exact add_withReader incoming
      | ack => exact ack_withReader
      | request nodes => exact request_withReader nodes
      | reply pairs => exact reply_withReader pairs
      | lower bound => exact receiveLower_withReader bound
    unfold dispatch
    dsimp only
    rw [apply_ite (Outcome.mapState _), hreceive]
    rfl
  | completed p => exact absurd rfl (he p)

/-- A processing element that has read its elements handles commands and messages of its peers
whatever its reader is. -/
theorem handle_withReader {e : Event} (he : ∀ p, e ≠ .completed p) (h : w.HasRead) :
    (w.withReader r).handle e = (w.handle e).mapState (withReader r) := by
  have hstate := hasRead_dispatch he h
  unfold handle
  rw [dispatch_withReader he]
  generalize w.dispatch e = o at *
  obtain ⟨s, _ | as⟩ := o
  · rfl
  · exact congrArg (Outcome.map _) (drain_withReader hstate)

end Worker
end MeshDecomp
