import MeshDecomp.Proofs.Codec
import MeshDecomp.Proofs.Posting
import MeshDecomp.Proofs.Quiescence
import MeshDecomp.Proofs.Readers

/-!
Ranks on their own, in closed form. They go through a scenario whatever their reader and their
partitioner are; a plan tells what this leaves open: whether a rank can start, what it tells the
host of its elements, and whether the host can share them out.
-/

namespace MeshDecomp

/-- The rank that handles a letter; the host is with rank zero. -/
def Letter.addressee (m : Letter) : Nat := m.receiver?.getD Rank.hostRank

/-- A processing element before its first call. -/
def Job.fresh (job : Job) (size rank : Nat) : Worker where
  rank := rank
  pes := size
  reader := job.reader
  geometric := job.partitioner.geometric

/-- The host before its first call. -/
def Job.freshHost (job : Job) (size : Nat) : Host where
  pes := size
  settings := job.settings
  partitioner := job.partitioner
  loads := .empty size
  setups := .empty size
  slices := .empty size
  distributions := .empty size
  flattenings := .empty size
  nodeSets := .empty size
  costs := .empty size
  deviations := .empty size

/-- With valid settings every rank of some can be created. -/
theorem Job.create_eq {job : Job} {size pe : Nat} (hv : job.settings.validate = .ok ())
    (hpe : pe < size) (hs : size < 2 ^ 32) : Rank.create job pe size =
    .ok { worker := job.fresh size pe
          host := if pe = Rank.hostRank then some (job.freshHost size) else none } := by
  have hne : size ≠ 0 := Nat.ne_of_gt (Nat.zero_lt_of_lt hpe)
  have hroom : ¬ Tally.maxPes < size := by
    unfold Tally.maxPes
    omega
  simp only [Rank.create, Worker.create, Host.create, hv, hpe, hne, hroom, Except.mapError,
    ↓reduceIte, bind, Except.bind, pure, Except.pure, Except.map]
  split <;> rfl

structure Plan (job : Job) (S : Scenario) where
  /-- What a rank tells the host of the elements that it read. -/
  slice : Nat → ElementSlice
  /-- The host after a history. -/
  host : List Letter → Host
  /-- Why a rank cannot start, if it cannot. -/
  fault : Nat → Option RunError
  /-- Why the host cannot share out the elements, if it cannot. -/
  refusal : Option RunError

namespace Plan

section

variable {job : Job} {S : Scenario} (P : Plan job S)

def contribution (pe : Nat) : Contribution.Kind → Contribution
  | .elements => .elements (P.slice pe)
  | k => S.contribution pe k

def parcel : Letter → Parcel
  | .contribution k pe => ⟨.host, pe, .contribution (P.contribution pe k)⟩
  | m => S.parcel m

/-- A rank after a history, with letters to itself. -/
def rank (H own : List Letter) (pe : Nat) : Rank where
  worker := (S.worker pe (.of H pe)).withReader job.reader
  host := if pe = Rank.hostRank then some (P.host H) else none
  own := own.map fun m => (P.parcel m).entry
  collector := if S.Settled pe (.of H pe) then S.handOut {} pe else {}

/-- Letters that make the rank fail that handles them. -/
inductive Fails (H : List Letter) : Letter → RunError → Prop where
  | refusal {k : Contribution.Kind} {pe : Nat} {e : RunError} :
      S.Gathered .partition (H ++ [.contribution k pe]) → P.refusal = some e →
      Fails H (.contribution k pe) e
  | letter {m : Letter} {pe : Nat} {e : RunError} : m.receiver? = some pe →
      S.Fails H m (.error e) → Fails H m e

/-- Errors that ranks can come upon. -/
def Raises (e : RunError) : Prop :=
  (∃ pe < S.pes, P.fault pe = some e) ∨ ∃ H m, S.Sent H m ∧ P.Fails H m e

/-- Ranks do as planned. -/
structure Holds : Prop where
  pes_pos : 0 < S.pes
  pes_lt : S.pes < 2 ^ 32
  valid : job.settings.validate = .ok ()
  start : ∀ pe < S.pes, P.fault pe = none →
    (job.fresh S.pes pe).start = .ok ((S.worker pe {}).withReader job.reader)
      [.contribute (.load (S.span pe).size), .contribute .setup,
        .contribute (.elements (P.slice pe))]
  start_fault : ∀ pe < S.pes, ∀ e, P.fault pe = some e →
    (job.fresh S.pes pe).start.result = .error (.error e)
  host_nil : P.host [] = job.freshHost S.pes
  host_concat : ∀ H m pe, m.receiver? = some pe → P.host (H ++ [m]) = P.host H
  contribute : ∀ H k pe, S.History H → S.Sent H (.contribution k pe) →
    .contribution k pe ∉ H →
    (S.Gathered .partition (H ++ [.contribution k pe]) → P.refusal = none) →
    (P.host H).contribute pe (P.contribution pe k) =
      .ok (P.host (H ++ [.contribution k pe])) (S.upon (H ++ [.contribution k pe]) k)
  contribute_refusal : ∀ H k pe e, S.History H → S.Sent H (.contribution k pe) →
    .contribution k pe ∉ H → S.Gathered .partition (H ++ [.contribution k pe]) →
    (∀ q < S.pes, P.fault q = none) → P.refusal = some e →
    ((P.host H).contribute pe (P.contribution pe k)).result = .error (.error e)
  refusal_iff : P.refusal = none ↔ S.Answered
  /-- The first letters of ranks that can start can be written out, and all others if all ranks
  can start. -/
  inWords : ∀ m, S.Occurs m → (∀ pe, m ∈ Scenario.firstLetters pe → P.fault pe = none) →
    ((∀ pe, m ∉ Scenario.firstLetters pe) → ∀ pe < S.pes, P.fault pe = none) →
    Wire.InWords (Wire.payload (P.parcel m).content)
  inWords_abort : ∀ e, P.Raises e → Wire.InWords (Wire.payload (.abort e.isUser e.message))
  /-- No rank comes upon the failure of another one by itself. -/
  genuine : ∀ e, P.Raises e → ∀ pe user reason, e ≠ .aborted pe user reason

end

variable {job : Job} {S : Scenario} {P : Plan job S} {H own out : List Letter} {m c : Letter}
  {pe : Nat} {e : RunError} {box : Nat → List (Nat × Bytes)}

/-! ### Letters and parcels -/

theorem addressee_parcel (m : Letter) : (P.parcel m).addressee = m.addressee := by
  cases m <;> rfl

theorem addressee_of_receiver (h : m.receiver? = some pe) : m.addressee = pe := by
  rw [Letter.addressee, h]
  rfl

theorem addressee_lt (hp : 0 < S.pes) (hm : S.Occurs m) : m.addressee < S.pes := by
  cases hr : m.receiver? with
  | none =>
    rw [Letter.addressee, hr]
    exact hp
  | some pe => exact addressee_of_receiver hr ▸ Scenario.receiver_lt hm hr

theorem sender_parcel_lt (hm : S.Occurs m) : (P.parcel m).sender < S.pes := by
  cases m with
  | contribution k pe => exact hm
  | command b pe => exact Nat.zero_lt_of_lt hm
  | lower s => exact Nat.lt_of_succ_lt hm
  | peer x s t =>
    cases x with
    | add | request => exact hm.1
    | ack => exact Scenario.lt_of_mem_keys_exports (Nat.zero_lt_of_lt hm.1) hm.2
    | reply => exact (Scenario.lt_of_mem_keys_asked hm.1 hm.2).trans hm.1

/-- What is sent upon a letter does not depend on what ranks tell of their elements. -/
theorem map_parcel (h : ∀ c ∈ out, m ∈ S.causes c) : out.map S.parcel = out.map P.parcel := by
  apply List.map_congr_left
  intro c hc
  have hm := h c hc
  cases c with
  | contribution k pe =>
    cases k with
    | elements => cases hm
    | _ => rfl
  | _ => rfl

theorem addressee_parcels_lt (hp : 0 < S.pes) (hout : ∀ c ∈ out, S.Occurs c) :
    ∀ p ∈ out.map P.parcel, p.addressee < S.pes := by
  intro p hmem
  obtain ⟨c, hc, rfl⟩ := List.mem_map.1 hmem
  rw [addressee_parcel]
  exact addressee_lt hp (hout c hc)

/-! ### Before the first letter -/

theorem of_eq_of_not_received (h : ∀ m ∈ H, m.receiver? ≠ some pe) : View.of H pe = {} := by
  induction H using List.reverseRecOn with
  | nil => exact View.of_nil pe
  | append_singleton H m ih =>
    rw [View.of_concat_of_ne (h m (by simp))]
    exact ih fun c hc => h c (List.mem_append_left _ hc)

theorem host_eq_of_not_received (hv : P.Holds) (h : ∀ m ∈ H, m.receiver? ≠ none) :
    P.host H = job.freshHost S.pes := by
  induction H using List.reverseRecOn with
  | nil => exact hv.host_nil
  | append_singleton H m ih =>
    obtain ⟨pe, hr⟩ := Option.ne_none_iff_exists'.1 (h m (by simp))
    rw [hv.host_concat H m pe hr]
    exact ih fun c hc => h c (List.mem_append_left _ hc)

theorem create_eq (hv : P.Holds) (hp : pe < S.pes) : Rank.create job pe S.pes =
    .ok { worker := job.fresh S.pes pe
          host := if pe = Rank.hostRank then some (job.freshHost S.pes) else none } :=
  Job.create_eq hv.valid hp hv.pes_lt

/-- A rank that can start tells the host of its elements. -/
theorem start_eq (hv : P.Holds) (hp : pe < S.pes) (hf : P.fault pe = none)
    (h : ∀ m ∈ H, m.addressee ≠ pe) :
    Rank.onWorker (.mailbox S.pes pe)
        ({ worker := job.fresh S.pes pe
           host := if pe = Rank.hostRank then some (job.freshHost S.pes) else none },
          .of S.pes box) Worker.start =
      .ok ((P.rank H [] pe).posted pe ((Scenario.firstLetters pe).map P.parcel),
        .of S.pes (Mailboxes.posted pe ((Scenario.firstLetters pe).map P.parcel) box)) () := by
  have hview : View.of H pe = {} := of_eq_of_not_received fun m hm hr =>
    h m hm (addressee_of_receiver hr)
  have hhost : pe = Rank.hostRank → P.host H = job.freshHost S.pes := by
    intro hz
    refine host_eq_of_not_received hv fun m hm hr => h m hm ?_
    rw [Letter.addressee, hr]
    exact hz.symm
  have hrank : P.rank H [] pe =
      { worker := (S.worker pe {}).withReader job.reader
        host := if pe = Rank.hostRank then some (job.freshHost S.pes) else none } := by
    have hset : ¬ S.Settled pe {} := Scenario.not_settled (Scenario.not_complete rfl)
    unfold rank
    rw [hview, if_neg hset]
    by_cases hz : pe = Rank.hostRank
    · rw [if_pos hz, if_pos hz, hhost hz]
      rfl
    · rw [if_neg hz, if_neg hz]
      rfl
  have hlt : ∀ p ∈ (Scenario.firstLetters pe).map P.parcel, p.addressee < S.pes := by
    intro p hmem
    obtain ⟨c, hc, rfl⟩ := List.mem_map.1 hmem
    have hocc := ((Scenario.mem_firstLetters hv.pes_pos).1
      (List.mem_flatMap.2 ⟨pe, List.mem_range.2 hp, hc⟩)).1
    exact addressee_parcel (P := P) c ▸ addressee_lt hv.pes_pos hocc
  unfold Rank.onWorker
  dsimp only
  rw [hv.start pe hp hf, Outcome.mapState_ok, Outcome.bind_ok, hrank]
  exact Rank.perform_eq rfl hlt

theorem start_fault_eq (box : Nat → List (Nat × Bytes)) (hv : P.Holds) (hp : pe < S.pes)
    (hf : P.fault pe = some e) {r : Rank} (hw : r.worker = job.fresh S.pes pe) :
    ∃ r', r'.collector = r.collector ∧
      Rank.onWorker (.mailbox S.pes pe) (r, .of S.pes box) Worker.start =
        .fail (r', .of S.pes box) (.error e) := by
  have hresult := hv.start_fault pe hp e hf
  refine ⟨{ r with worker := (job.fresh S.pes pe).start.state }, rfl, ?_⟩
  unfold Rank.onWorker
  rw [hw]
  generalize (job.fresh S.pes pe).start = o at *
  obtain ⟨s, result⟩ := o
  obtain rfl : result = .error (.error e) := hresult
  rfl

/-! ### The next letter -/

theorem hasRead_worker (pe : Nat) (v : View) : (S.worker pe v).HasRead := List.not_mem_nil

/-- A rank handles a letter of the scenario as the scenario says. -/
theorem call_withReader (hr : m.receiver? = some pe) (r : Reader) (w : Worker) (h : w.HasRead) :
    S.call m (w.withReader r) = (S.call m w).mapState (Worker.withReader r) := by
  cases m with
  | contribution k p => cases hr
  | command b p => exact Worker.handle_withReader (fun _ => nofun) h
  | peer x s t => exact Worker.handle_withReader (fun _ => nofun) h
  | lower s => exact Worker.handle_withReader (fun _ => nofun) h

theorem handle_of_receiver (hr : m.receiver? = some pe) {l : Link σ} (s : Rank × σ) :
    Rank.handle l s (P.parcel m).sender (P.parcel m).content =
      Rank.onWorker l s fun w => (S.call m w).mapError .error := by
  cases m <;> cases hr <;> rfl

theorem settled_concat (h : S.Settled pe (.of H pe)) : S.Settled pe (.of (H ++ [m]) pe) := by
  rw [Scenario.settled_iff] at h ⊢
  exact fun c hc => List.mem_append_left _ (h c hc)

/-- What a rank has handed out follows from the history. -/
theorem foldl_collect {as : List Action} (ha : S.Answers H m pe as) :
    as.foldl Action.collect (P.rank H own pe).collector =
      (P.rank (H ++ [m]) own pe).collector := by
  rw [ha.collect]
  unfold rank
  dsimp only
  by_cases hold : S.Settled pe (.of H pe)
  · rw [if_neg fun h => h.2 hold, if_pos hold, if_pos (settled_concat hold)]
  · by_cases hnew : S.Settled pe (.of (H ++ [m]) pe)
    · rw [if_pos ⟨hnew, hold⟩, if_neg hold, if_pos hnew]
    · rw [if_neg fun h => hnew h.1, if_neg hold, if_neg hnew]

/-- How a rank and the mailboxes go on from a letter. -/
structure Handles (P : Plan job S) (H own : List Letter) (m : Letter)
    (box : Nat → List (Nat × Bytes)) (o : Rank.Result Mailboxes Unit) (out : List Letter) :
    Prop where
  history : S.History (H ++ [m])
  releases : S.Releases H m out
  eq : o = .ok
    ({ (P.rank (H ++ [m]) own m.addressee).posted m.addressee (out.map P.parcel) with
        report :=
          if m.addressee = Rank.hostRank ∧ S.Over (H ++ [m]) then some S.report else none },
      .of S.pes (Mailboxes.posted m.addressee (out.map P.parcel) box)) ()

theorem handle_receiver (own : List Letter) (box : Nat → List (Nat × Bytes)) (hv : P.Holds)
    (h : S.History H) (hs : S.Sent H m) (hn : m ∉ H) (hr : m.receiver? = some pe)
    (ho : m.addressee = Rank.hostRank → ¬ S.Over H) :
    (∃ e r, P.Fails H m e ∧ r.collector = (P.rank H own pe).collector ∧
      Rank.handle (.mailbox S.pes pe) (P.rank H own pe, .of S.pes box) (P.parcel m).sender
        (P.parcel m).content = .fail (r, .of S.pes box) (.error e)) ∨
    ∃ out, P.Handles H own m box (Rank.handle (.mailbox S.pes pe)
      (P.rank H own pe, .of S.pes box) (P.parcel m).sender (P.parcel m).content) out := by
  have hcall : S.call m (P.rank H own pe).worker =
      (S.call m (S.worker pe (.of H pe))).mapState (Worker.withReader job.reader) :=
    call_withReader hr _ _ (hasRead_worker pe _)
  rw [handle_of_receiver hr]
  unfold Rank.onWorker
  dsimp only
  rw [hcall]
  rcases h.answers hs hn hr with ⟨e, hf, he⟩ | ⟨hok, as, has⟩
  · generalize S.call m (S.worker pe (.of H pe)) = o at *
    obtain ⟨w, result⟩ := o
    obtain rfl : result = .error e := he
    exact .inl ⟨e, { P.rank H own pe with worker := w.withReader job.reader },
      .letter hr hf, rfl, rfl⟩
  · obtain ⟨out, hout, hrel⟩ := has.out
    rw [map_parcel (P := P) fun c hc => ((hrel.mem_iff c).1 hc).2] at hout
    have hlt := addressee_parcels_lt (P := P) hv.pes_pos fun c hc =>
      ((hrel.mem_iff c).1 hc).1.1
    have haddr := addressee_of_receiver hr
    have hreport : ¬ (m.addressee = Rank.hostRank ∧ S.Over (H ++ [m])) := by
      rintro ⟨hz, hover⟩
      refine ho hz ((Scenario.over_concat fun p hp => ?_).1 hover)
      rw [hp] at hr
      cases hr
    have hhost : (P.rank H own pe).host = (P.rank (H ++ [m]) own pe).host := by
      unfold rank
      rw [hv.host_concat H m pe hr]
    refine .inr ⟨out, h.concat hs hn hok, hrel, ?_⟩
    rw [has.state, Outcome.mapState_ok, Outcome.mapError_ok, Outcome.mapState_ok, Outcome.bind_ok,
      Rank.perform_eq hout hlt, if_neg hreport, haddr]
    dsimp only
    rw [foldl_collect has, hhost]
    rfl

theorem reportOf_eq_of_none {report : Option Report} {ds : List Directive}
    (h : ds.findSome? Directive.report? = none) : Rank.reportOf report ds = report := by
  rw [List.findSome?_eq_none_iff] at h
  induction ds generalizing report with
  | nil => rfl
  | cons d ds ih =>
    rw [Rank.reportOf, List.foldl_cons, h d List.mem_cons_self, Option.none_or]
    exact ih fun d hd => h d (List.mem_cons_of_mem _ hd)

/-- The host reports upon the last deviation. -/
theorem reportOf_upon (k : Contribution.Kind) (ho : ¬ S.Over H) :
    Rank.reportOf none (S.upon (H ++ [.contribution k pe]) k) =
      if S.Over (H ++ [.contribution k pe]) then some S.report else none := by
  unfold Scenario.upon
  cases hb : Scenario.barrier? k with
  | none => dsimp only; split <;> rfl
  | some b =>
    have hk : k ≠ .deviation := by
      rintro rfl
      cases hb
    dsimp only
    rw [if_neg (mt (Scenario.over_concat fun p => by simp [hk]).1 ho)]
    split
    · exact reportOf_eq_of_none (Scenario.report_directives b)
    · rfl

theorem history_contribution {k : Contribution.Kind} (hv : P.Holds) (h : S.History H)
    (hs : S.Sent H (.contribution k pe)) (hn : .contribution k pe ∉ H)
    (hok : S.Gathered .partition (H ++ [.contribution k pe]) → P.refusal = none) :
    S.History (H ++ [.contribution k pe]) := by
  refine h.concat hs hn fun e hf => ?_
  cases hf with
  | answer hg he =>
    have ha : S.answer = .ok S.assignment := hv.refusal_iff.1 (hok hg)
    cases ha.symm.trans he

/-- A contribution changes nothing at the host's rank but the host. -/
theorem rank_contribution (k : Contribution.Kind) (pe : Nat) (own : List Letter) :
    { P.rank H own Rank.hostRank with host := some (P.host (H ++ [.contribution k pe])) } =
      P.rank (H ++ [.contribution k pe]) own Rank.hostRank := by
  have hview : View.of (H ++ [.contribution k pe]) Rank.hostRank = View.of H Rank.hostRank :=
    View.of_concat_of_ne (by simp [Letter.receiver?])
  unfold rank
  rw [hview]
  rfl

theorem handle_contribution_eq (k : Contribution.Kind) (pe : Nat) (own : List Letter)
    (box : Nat → List (Nat × Bytes)) :
    Rank.handle (.mailbox S.pes Rank.hostRank) (P.rank H own Rank.hostRank, .of S.pes box) pe
        (.contribution (P.contribution pe k)) =
      (((P.host H).contribute pe (P.contribution pe k)).mapState fun h =>
        ({ P.rank H own Rank.hostRank with host := some h }, .of S.pes box)).bind
          (Rank.follow (.mailbox S.pes Rank.hostRank)) := rfl

theorem handle_contribution {k : Contribution.Kind} (own : List Letter)
    (box : Nat → List (Nat × Bytes)) (hv : P.Holds) (h : S.History H)
    (hs : S.Sent H (.contribution k pe)) (hn : .contribution k pe ∉ H) (ho : ¬ S.Over H)
    (hall : S.Gathered .partition (H ++ [.contribution k pe]) → ∀ q < S.pes, P.fault q = none) :
    (∃ e r, P.Fails H (.contribution k pe) e ∧
      r.collector = (P.rank H own Rank.hostRank).collector ∧
      Rank.handle (.mailbox S.pes Rank.hostRank) (P.rank H own Rank.hostRank, .of S.pes box) pe
        (.contribution (P.contribution pe k)) = .fail (r, .of S.pes box) (.error e)) ∨
    ∃ out, P.Handles H own (.contribution k pe) box (Rank.handle (.mailbox S.pes Rank.hostRank)
      (P.rank H own Rank.hostRank, .of S.pes box) pe
          (.contribution (P.contribution pe k))) out := by
  rw [handle_contribution_eq]
  by_cases hok : S.Gathered .partition (H ++ [.contribution k pe]) → P.refusal = none
  · have hrel := Scenario.releases_contribution (H := H) k hs.1
    have hparcels := Scenario.parcels_upon (S := S) (H := H ++ [.contribution k pe]) k
    rw [map_parcel (P := P) fun c hc => ((hrel.mem_iff c).1 hc).2] at hparcels
    have hlt := addressee_parcels_lt (P := P) hv.pes_pos fun c hc =>
      ((hrel.mem_iff c).1 hc).1.1
    have hreport : (P.rank (H ++ [.contribution k pe]) own Rank.hostRank).report = none := rfl
    have haddr : (Letter.contribution k pe).addressee = Rank.hostRank := rfl
    refine .inr ⟨_, history_contribution hv h hs hn hok, hrel, ?_⟩
    rw [hv.contribute H k pe h hs hn hok, Outcome.mapState_ok, Outcome.bind_ok,
      rank_contribution, Rank.follow_eq hparcels hlt, hreport, reportOf_upon k ho, haddr]
    simp only [true_and]
  · obtain ⟨hg, hr⟩ := Classical.not_imp.1 hok
    obtain ⟨e, he⟩ := Option.ne_none_iff_exists'.1 hr
    have hresult := hv.contribute_refusal H k pe e h hs hn hg (hall hg) he
    generalize (P.host H).contribute pe (P.contribution pe k) = o at *
    obtain ⟨g, result⟩ := o
    obtain rfl : result = .error (.error e) := hresult
    exact .inl ⟨e, { P.rank H own Rank.hostRank with host := some g }, .refusal hg he, rfl, rfl⟩

/-- The rank that a letter is for fails, or goes on as the history says. -/
theorem handle_letter (own : List Letter) (box : Nat → List (Nat × Bytes)) (hv : P.Holds)
    (h : S.History H) (hs : S.Sent H m) (hn : m ∉ H) (hpe : m.addressee = pe)
    (ho : pe = Rank.hostRank → ¬ S.Over H)
    (hall : S.Gathered .partition (H ++ [m]) → ∀ q < S.pes, P.fault q = none) :
    (∃ e r, P.Fails H m e ∧ r.collector = (P.rank H own pe).collector ∧
      Rank.handle (.mailbox S.pes pe) (P.rank H own pe, .of S.pes box) (P.parcel m).sender
        (P.parcel m).content = .fail (r, .of S.pes box) (.error e)) ∨
    ∃ out, P.Handles H own m box (Rank.handle (.mailbox S.pes pe)
      (P.rank H own pe, .of S.pes box) (P.parcel m).sender (P.parcel m).content) out := by
  subst hpe
  cases hr : m.receiver? with
  | some pe =>
    rw [addressee_of_receiver hr]
    exact handle_receiver own box hv h hs hn hr fun hz => ho hz
  | none =>
    cases m with
    | contribution k pe => exact handle_contribution own box hv h hs hn (ho rfl) hall
    | command b pe => cases hr
    | peer x s t => cases hr
    | lower s => cases hr

/-! ### The end -/

/-- A rank has nothing more to do once its deviation is asked for; the host once all deviations are
there. -/
def Done (S : Scenario) (H : List Letter) (pe : Nat) : Prop :=
  .command .deviation pe ∈ H ∧ (pe = Rank.hostRank → S.Over H)

theorem isFinished_iff {r : Rank}
    (hw : r.worker = (S.worker pe (.of H pe)).withReader job.reader)
    (hh : r.host.isNone = true ↔ pe ≠ Rank.hostRank)
    (hr : r.report = if pe = Rank.hostRank ∧ S.Over H then some S.report else none) :
    r.isFinished = true ↔ Done S H pe := by
  have hdone : r.worker.isDone = true ↔ .command .deviation pe ∈ H := by
    rw [hw]
    show decide (S.phase pe (.of H pe) = .done) = true ↔ _
    rw [decide_eq_true_iff, Scenario.phase_eq_done_iff]
    exact decide_eq_true_iff
  unfold Rank.isFinished Done
  rw [Bool.and_eq_true, Bool.or_eq_true, hdone, hh, hr]
  by_cases hz : pe = Rank.hostRank
  · by_cases ho : S.Over H <;> simp [hz, ho]
  · simp [hz]

end Plan
end MeshDecomp
