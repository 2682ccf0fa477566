import MeshDecomp.Proofs.Barriers
import MeshDecomp.Proofs.Consensus

/-!
Ranks that may crash. A rank that fails tells the others, but one that crashes does not: they wait
for it, or end in other ways. Where no rank crashes all of them agree, because up to the first crash
a run is one of ranks with a partitioner that reports an error instead.
-/

namespace MeshDecomp

open Wire

/-- A computation that does not crash. -/
def Survives (r : Except (Failure ε) α) : Prop := ∀ c, r ≠ .error (.crash c)

theorem Survives.of_bind {o : Outcome σ (Failure ε) α} {f : σ → α → Outcome σ (Failure ε) β}
    (h : Survives (o.bind f).result) : Survives o.result := by
  obtain ⟨s, e | a⟩ := o
  · intro c hc
    cases hc
    exact h c rfl
  · exact fun c hc => nomatch hc

theorem Survives.of_map {r : Except (Failure ε) α} {f : α → β} {r' : Except (Failure ε) β}
    (h : Survives r') (hr : r' = r.map f) : Survives r := by
  rintro c rfl
  exact h c hr

/-! ### Errors in the place of crashes -/

namespace Partitioner

variable {p : Partitioner} {input : PartitionInput} {parts : Nat}

/-- Reports an error where `p` crashes. -/
def contained (p : Partitioner) : Partitioner :=
  { p with
    assign := fun input parts =>
      match p.assign input parts with
      | .error (.crash _) => .error (.error .noParts)
      | answer => answer }

theorem assign_contained (h : Survives (p.assign input parts)) :
    p.contained.assign input parts = p.assign input parts := by
  unfold contained
  dsimp only
  split
  · next c hc => exact absurd hc (h c)
  · rfl

theorem contained_cases (p : Partitioner) (input : PartitionInput) (parts : Nat) :
    p.contained.assign input parts = .error (.error .noParts) ∨
      Survives (p.assign input parts) ∧
        p.contained.assign input parts = p.assign input parts := by
  by_cases h : Survives (p.assign input parts)
  · exact .inr ⟨h, assign_contained h⟩
  · obtain ⟨c, hc⟩ : ∃ c, p.assign input parts = .error (.crash c) := by
      simpa [Survives] using h
    left
    unfold contained
    dsimp only
    rw [hc]

theorem survives_contained : Survives (p.contained.assign input parts) := by
  intro c hc
  rcases p.contained_cases input parts with h | ⟨hs, h⟩
  · cases h.symm.trans hc
  · exact hs c (h.symm.trans hc)

theorem Sized.contained (h : p.Sized input) : p.contained.Sized input where
  name := h.name
  answering := by
    intro n ids hpos hn ha
    rcases p.contained_cases input n with hc | ⟨-, hc⟩
    · cases hc.symm.trans ha
    · exact h.answering n ids hpos hn (hc.symm.trans ha)
  refusing := by
    intro n e hpos hn ha
    rcases p.contained_cases input n with hc | ⟨-, hc⟩
    · cases hc.symm.trans ha
      exact (within_fixed (by decide)).trans (by decide)
    · exact h.refusing n e hpos hn (hc.symm.trans ha)

end Partitioner

namespace Host

variable {h : Host} {pe : Nat} {c : Contribution} {slices : List ElementSlice}

/-- The host with a partitioner that does not crash. -/
def contained : Host → Host := revise id Partitioner.contained id

theorem assign_contained (hs : Survives (h.assign slices)) :
    h.contained.assign slices = h.assign slices := by
  have helements : h.contained.elements = h.elements := rfl
  have hunits : h.contained.units = h.units := rfl
  have hpartitioner : h.contained.partitioner = h.partitioner.contained := rfl
  unfold assign at hs ⊢
  rw [helements, hunits, hpartitioner]
  split
  · rfl
  · next hroom =>
    rw [if_neg hroom] at hs
    cases hg : Gathered.addAll (slices.all fun s => s.centroids.isSome) 0 {} slices with
    | error e =>
      dsimp only
      rw [hg]
      rfl
    | ok g =>
      simp only [hg, bind, Except.bind, Except.mapError, pure, Except.pure] at hs ⊢
      split
      · rfl
      · next hcount =>
        rw [if_neg hcount] at hs
        rw [Partitioner.assign_contained]
        · rfl
        · intro c hc
          simp only [hc] at hs
          exact hs c rfl

theorem tryPartition_contained (hs : Survives h.tryPartition.result) :
    h.contained.tryPartition = h.tryPartition.mapState contained := by
  by_cases hall : (h.loads.complete && h.setups.complete && h.slices.complete) = true
  · cases hd : h.decideUnits (h.loads.values.foldr (· + ·) 0) with
    | error e =>
      rw [tryPartition_of_error hall rfl hd, tryPartition_of_error (h := h.contained) hall rfl hd]
      rfl
    | ok units =>
      rw [tryPartition_of_ok hall rfl hd] at hs ⊢
      rw [tryPartition_of_ok (h := h.contained) hall rfl hd]
      have hassign := assign_contained (hs.of_map rfl)
      exact congrArg (Outcome.mk _ ∘ Except.map _) hassign
  · rw [tryPartition, tryPartition, if_neg hall]
    exact if_neg hall

theorem fill_contained {g : Tally α → Host} {tally : Tally α} {kind : Contribution.Kind} {a : α}
    (hs : Survives (h.fill tally kind pe a fun t => (g t).tryPartition).result) :
    (h.contained.fill tally kind pe a fun t => (g t).contained.tryPartition) =
      (h.fill tally kind pe a fun t => (g t).tryPartition).mapState contained := by
  refine fill_revise fun t ht => tryPartition_contained ?_
  rwa [fill, ht] at hs

/-- A call that does not crash goes the same way. -/
theorem contribute_contained (hs : Survives (h.contribute pe c).result) :
    h.contained.contribute pe c = (h.contribute pe c).mapState contained := by
  cases c with
  | load n => exact fill_contained (g := fun t => { h with loads := t }) hs
  | setup => exact fill_contained (g := fun t => { h with setups := t }) hs
  | elements s => exact fill_contained (g := fun t => { h with slices := t }) hs
  | distributed | flattened | nodes | cost | deviation =>
    exact contribute_revise (by simp [Contribution.kind, Barrier.kinds])

end Host

/-- The job with a partitioner that does not crash. -/
def Job.contained (job : Job) : Job := { job with partitioner := job.partitioner.contained }

namespace Rank

variable {l : Link σ} {s : Rank × σ} {sender : Nat} {e : Envelope}

/-- The rank with a host that does not crash. -/
def contained (r : Rank) : Rank := { r with host := r.host.map Host.contained }

/-- A rank with a host that does not crash, and the same link. -/
def contain (s : Rank × σ) : Rank × σ := (s.1.contained, s.2)

theorem post_contain (receiver : Nat) :
    post l (contain s) receiver e = (post l s receiver e).mapState contain := by
  unfold post
  split
  · rfl
  · have hnet : (contain s).2 = s.2 := rfl
    rw [hnet]
    cases l.send s.2 receiver (encode l.rank e) <;> rfl

theorem postAll_contain (letters : List (Nat × Envelope)) :
    postAll l (contain s) letters = (postAll l s letters).mapState contain := by
  induction letters generalizing s with
  | nil => rfl
  | cons x letters ih =>
    rw [postAll, postAll, post_contain]
    exact Outcome.mapState_bind fun s _ => ih

theorem perform_contain (actions : List Action) :
    perform l (contain s) actions = (perform l s actions).mapState contain := by
  induction actions generalizing s with
  | nil => rfl
  | cons a actions ih =>
    cases a with
    | send receiver m =>
      rw [perform, perform, post_contain]
      exact Outcome.mapState_bind fun s _ => ih
    | contribute c =>
      rw [perform, perform, post_contain]
      exact Outcome.mapState_bind fun s _ => ih
    | instantiate u =>
      exact ih (s := ({ s.1 with collector := (Action.instantiate u).collect s.1.collector }, s.2))
    | bounds pe b =>
      exact ih (s := ({ s.1 with collector := (Action.bounds pe b).collect s.1.collector }, s.2))

theorem follow_contain (directives : List Directive) :
    follow l (contain s) directives = (follow l s directives).mapState contain := by
  induction directives generalizing s with
  | nil => rfl
  | cons d directives ih =>
    cases d with
    | broadcast c =>
      rw [follow, follow, postAll_contain]
      exact Outcome.mapState_bind fun s _ => ih
    | tell pe c =>
      rw [follow, follow, post_contain]
      exact Outcome.mapState_bind fun s _ => ih
    | finished report => exact ih (s := ({ s.1 with report := some report }, s.2))

theorem onWorker_contain (call : Worker → Outcome Worker (Failure RunError) (List Action)) :
    onWorker l (contain s) call = (onWorker l s call).mapState contain := by
  have hworker : (contain s).1.worker = s.1.worker := rfl
  unfold onWorker
  rw [hworker]
  obtain ⟨w, e | actions⟩ := call s.1.worker
  · rfl
  · exact perform_contain (s := ({ s.1 with worker := w }, s.2)) actions

theorem give_contain (event : Event) :
    give l (contain s) event = (give l s event).mapState contain :=
  onWorker_contain _

/-- A message that does not make the rank crash is handled the same way. -/
theorem handle_contain (hs : Survives (handle l s sender e).result) :
    handle l (contain s) sender e = (handle l s sender e).mapState contain := by
  cases e with
  | peer m => exact give_contain _
  | command c => exact give_contain _
  | abort user reason => rfl
  | contribution c =>
    cases hhost : s.1.host with
    | none =>
      have hhost' : (contain s).1.host = none := congrArg (Option.map Host.contained) hhost
      simp only [handle, hhost, hhost']
      rfl
    | some h =>
      have hhost' : (contain s).1.host = some h.contained :=
        congrArg (Option.map Host.contained) hhost
      simp only [handle, hhost] at hs
      have hcontribute := Host.contribute_contained hs.of_bind
      simp only [handle, hhost, hhost', hcontribute]
      obtain ⟨h', e | ds⟩ := h.contribute sender c
      · rfl
      · exact follow_contain (s := ({ s.1 with host := some h' }, s.2)) ds

theorem create_contained (job : Job) (rank size : Nat) :
    create job.contained rank size = (create job rank size).map contained := by
  have hhost : (Host.create size job.settings).map (fun h =>
      some (h.withPartitioner job.partitioner.contained)) =
    ((Host.create size job.settings).map fun h => some (h.withPartitioner job.partitioner)).map
      (Option.map Host.contained) := by
    cases Host.create size job.settings <;> rfl
  unfold create
  have hpartitioner : job.contained.partitioner = job.partitioner.contained := rfl
  have hsettings : job.contained.settings = job.settings := rfl
  have hreader : job.contained.reader = job.reader := rfl
  rw [hpartitioner, hsettings, hreader, hhost]
  cases Worker.create rank size job.reader job.settings with
  | error e => rfl
  | ok w =>
    simp only [bind, Except.bind, Except.mapError]
    by_cases h : rank = hostRank
    · simp only [h, ↓reduceIte]
      cases Host.create size job.settings <;> rfl
    · simp only [h, ↓reduceIte]
      rfl

end Rank

namespace Progress

variable {job : Job} {l : Link σ} {net net' : σ} {p p' : Progress}

def contained : Progress → Progress
  | .live r => .live r.contained
  | p => p

/-- The rank crashed. -/
def Broken (p : Progress) : Prop := ∃ c created, p = .returned ⟨.error (.crash c), created⟩

theorem survives_of_settle {o : Rank.Result σ Unit} (h : ¬ (settle l o).1.Broken) :
    Survives o.result := by
  intro c hc
  refine h ⟨c, o.state.1.collector, ?_⟩
  rw [settle, hc]
  rfl

theorem settle_contain (o : Rank.Result σ Unit) :
    settle l (o.mapState Rank.contain) = ((settle l o).1.contained, (settle l o).2) := by
  obtain ⟨⟨r, net⟩, e | -⟩ := o
  · rfl
  · have hfinished : r.contained.isFinished = r.isFinished := by
      simp [Rank.isFinished, Rank.contained]
    unfold settle
    dsimp only [Outcome.mapState, Rank.contain]
    rw [hfinished]
    split <;> rfl

theorem settle_contain_of_eq {o o' : Rank.Result σ Unit}
    (ho : Survives o.result → o' = o.mapState Rank.contain) (h : settle l o = (p', net'))
    (hp : ¬ p'.Broken) : settle l o' = (p'.contained, net') := by
  have hs : Survives o.result := survives_of_settle (l := l) (by rwa [h])
  rw [ho hs, settle_contain, h]

/-- A turn in which the rank does not crash goes the same way. -/
theorem turn_contained (h : p.turn job l net = some (p', net')) (hp : ¬ p'.Broken) :
    p.contained.turn job.contained l net = some (p'.contained, net') := by
  cases p with
  | returned r => cases h
  | fresh =>
    unfold turn at h ⊢
    dsimp only [contained] at h ⊢
    rw [Rank.create_contained]
    cases hc : Rank.create job l.rank l.size with
    | error e =>
      rw [hc] at h
      cases h
      rfl
    | ok r =>
      rw [hc] at h
      have hstart := Rank.onWorker_contain (l := l) (s := (r, net)) Worker.start
      exact congrArg some (settle_contain_of_eq (fun _ => hstart) (Option.some.inj h) hp)
  | live r =>
    have hown : r.contained.own = r.own := rfl
    unfold turn at h ⊢
    dsimp only [contained] at h ⊢
    rw [hown]
    cases hr : r.own with
    | cons x own =>
      rw [hr] at h
      have hhandle := @Rank.handle_contain _ l ({ r with own }, net) x.1 x.2
      exact congrArg some (settle_contain_of_eq hhandle (Option.some.inj h) hp)
    | nil =>
      rw [hr] at h
      dsimp only at h ⊢
      cases hreceive : l.receive net with
      | error cause =>
        rw [hreceive] at h
        cases h
        rfl
      | ok message =>
        rw [hreceive] at h
        cases message with
        | none => cases h
        | some message =>
          dsimp only at h ⊢
          cases hd : decode message.1.2 with
          | error cause =>
            rw [hd] at h
            cases h
            rfl
          | ok envelope =>
            rw [hd] at h
            have hhandle := @Rank.handle_contain _ l (r, message.2) envelope.1 envelope.2
            exact congrArg some (settle_contain_of_eq hhandle (Option.some.inj h) hp)

theorem turn_contained_of_none (h : p.turn job l net = none) :
    p.contained.turn job.contained l net = none := by
  cases p with
  | returned r => rfl
  | fresh =>
    unfold turn at h
    dsimp only at h
    split at h <;> cases h
  | live r =>
    obtain ⟨hown, hreceive⟩ := waits_of_turn_live h
    have hown' : r.contained.own = [] := hown
    unfold turn contained
    dsimp only
    rw [hown', hreceive]

end Progress

namespace Universe

variable {job : Job} {u v w : Universe} {pe rank : Nat} {c : Crash} {r : Returned}

def contained (u : Universe) : Universe := ⟨u.ranks.map Progress.contained, u.mail⟩

/-- Some rank crashed. -/
def Broken (u : Universe) : Prop := ∃ pe c, u.Crashed pe c

theorem turn_eq_some_iff : u.turn job rank = some v ↔ ∃ p p' mail, u.ranks[rank]? = some p ∧
    p.turn job (.mailbox u.ranks.length rank) u.mail = some (p', mail) ∧
      v = ⟨u.ranks.set rank p', mail⟩ := by
  unfold turn
  cases u.ranks[rank]? with
  | none => simp
  | some p =>
    cases ht : p.turn job (.mailbox u.ranks.length rank) u.mail with
    | none => simp [ht]
    | some x =>
      obtain ⟨p', mail⟩ := x
      have hiff : some (Universe.mk (u.ranks.set rank p') mail) = some v ↔
          v = ⟨u.ranks.set rank p', mail⟩ := by rw [Option.some_inj, eq_comm]
      simpa [ht] using hiff

theorem turn_eq_none_iff : u.turn job rank = none ↔ ∀ p, u.ranks[rank]? = some p →
    p.turn job (.mailbox u.ranks.length rank) u.mail = none := by
  unfold turn
  cases u.ranks[rank]? with
  | none => simp
  | some p =>
    cases ht : p.turn job (.mailbox u.ranks.length rank) u.mail <;> simp [ht]

theorem length_turn (h : u.turn job rank = some v) : v.ranks.length = u.ranks.length := by
  obtain ⟨p, p', mail, -, -, rfl⟩ := turn_eq_some_iff.1 h
  exact List.length_set

/-- What a rank returned is never taken back. -/
theorem Ended.turn (he : u.Ended pe r) (h : u.turn job rank = some v) : v.Ended pe r := by
  obtain ⟨p, p', mail, hget, hturn, rfl⟩ := turn_eq_some_iff.1 h
  have hne : rank ≠ pe := by
    rintro rfl
    cases hget.symm.trans he
    cases hturn
  exact (List.getElem?_set_ne hne).trans he

theorem Broken.turn (hb : u.Broken) (h : u.turn job rank = some v) : v.Broken := by
  obtain ⟨pe, c, created, he⟩ := hb
  exact ⟨pe, c, created, he.turn h⟩

theorem turn_contained (h : u.turn job rank = some v) (hv : ¬ v.Broken) :
    u.contained.turn job.contained rank = some v.contained := by
  obtain ⟨p, p', mail, hget, hturn, rfl⟩ := turn_eq_some_iff.1 h
  have hp' : ¬ p'.Broken := by
    rintro ⟨c, created, rfl⟩
    exact hv ⟨rank, c, created, List.getElem?_set_self (List.getElem?_eq_some_iff.1 hget).1⟩
  refine turn_eq_some_iff.2 ⟨p.contained, p'.contained, mail, ?_, ?_, ?_⟩
  · rw [contained, List.getElem?_map, hget]
    rfl
  · rw [contained, List.length_map]
    exact Progress.turn_contained hturn hp'
  · simp [contained, List.map_set]

/-- A run without a crash is one with a partitioner that does not crash. -/
theorem Reaches.contained (hr : u.Reaches job v) (hv : ¬ v.Broken) :
    u.contained.Reaches job.contained v.contained := by
  induction hr with
  | refl => exact .refl
  | turn rank _ ht ih => exact .turn rank (ih fun hb => hv (hb.turn ht)) (turn_contained ht hv)

theorem length_contained (u : Universe) : u.contained.ranks.length = u.ranks.length :=
  List.length_map _

theorem isBlocked_contained (hb : u.isBlocked job = true) :
    u.contained.isBlocked job.contained = true := by
  unfold isBlocked at hb ⊢
  rw [List.all_eq_true] at hb ⊢
  intro rank hrank
  have hlen := u.length_contained
  rw [Option.isNone_iff_eq_none, turn_eq_none_iff]
  intro p hp
  obtain ⟨p, hget, rfl⟩ : ∃ p', u.ranks[rank]? = some p' ∧ p'.contained = p := by
    simpa [contained] using hp
  have hnone := Option.isNone_iff_eq_none.1 (hb rank (hlen ▸ hrank))
  rw [hlen]
  exact Progress.turn_contained_of_none (turn_eq_none_iff.1 hnone p hget)

theorem ended_contained : u.contained.Ended pe r ↔ u.Ended pe r := by
  unfold Ended contained
  rw [List.getElem?_map]
  cases u.ranks[pe]? with
  | none => simp
  | some p => cases p <;> simp [Progress.contained]

theorem Agreed.of_contained (h : u.contained.Agreed) : u.Agreed := by
  have hfailed : ∀ q e, u.contained.Failed q e ↔ u.Failed q e := fun q e => by
    simp only [Failed, ended_contained]
  obtain ⟨hreturned, htogether, hblame, hnamed⟩ := h
  simp only [ended_contained, length_contained, hfailed] at hreturned htogether hblame hnamed
  exact ⟨hreturned, htogether, hblame, hnamed⟩

/-- Before the first turn there is nothing to contain. -/
theorem contained_of_fresh (h : ∀ p ∈ u.ranks, p = .fresh) : u.contained = u := by
  have hranks : u.ranks.map Progress.contained = u.ranks :=
    List.map_congr_left (g := id) (fun p hp => by rw [h p hp]; rfl) |>.trans (List.map_id _)
  exact congrArg (Universe.mk · u.mail) hranks

theorem Reaches.length_eq (hr : u.Reaches job v) : v.ranks.length = u.ranks.length := by
  induction hr with
  | refl => rfl
  | turn rank _ ht ih => exact (length_turn ht).trans ih

end Universe

/-! ### Why ranks crash -/

namespace Job

variable {job : Job} {size pe : Nat} {c : Crash} {u v : Universe}

/-- The reader has too few node ids for the block of a rank, or too many, but their number is four
times the size of the block in machine words. -/
def Overflows (job : Job) (size pe : Nat) : Prop :=
  job.reader.count = .ok job.total ∧
    ∃ ids, job.reader.elements (job.span size pe).first (job.span size pe).stop = .ok ids ∧
      ids.length ≠ 4 * (job.span size pe).size ∧
        ids.length = 4 * (job.span size pe).size % UInt64.size

theorem read_eq_crash_iff (h : pe < size) : Portion.read job.reader size pe = .error (.crash c) ↔
    c = .outOfRoom ∧ job.Overflows size pe := by
  have hpos := Nat.zero_lt_of_lt h
  cases hc : job.reader.count with
  | error e => simp [Portion.read_of_error hc, Overflows, hc]
  | ok total =>
    have htotal : job.total = total := by rw [Job.total, hc]
    rw [Portion.read_of_pos hc hpos, Portion.readSpan_eq_crash_iff]
    simp [Overflows, span, htotal, hc]

theorem readable_iff : job.Readable size ↔ ∀ pe < size, ¬ job.Overflows size pe := by
  refine forall₂_congr fun pe hpe => ?_
  simp [read_eq_crash_iff hpe]

/-- The reader of a mesh gives four node ids for each element. -/
theorem not_overflows_of_mesh {m : TetMesh} (h : job.reader = m.reader) :
    ¬ job.Overflows size pe := by
  rintro ⟨-, ids, hids, hne, -⟩
  rw [h] at hids
  have hids : m.elements (job.span size pe).first (job.span size pe).stop = .ok ids := hids
  unfold TetMesh.elements at hids
  split at hids
  · cases hids
  · next hrange =>
    cases hids
    refine hne ?_
    rw [Tet.length_flatten, List.length_take, List.length_drop]
    unfold TetMesh.size Span.size at *
    omega

/-- What makes a rank crash: the block that it reads, or the partitioner. -/
inductive MayCrash (job : Job) (size : Nat) : Prop where
  | reading {pe : Nat} : pe < size → job.Overflows size pe → MayCrash job size
  | partitioning {c : Crash} : 0 < job.units size →
      job.partitioner.assign (job.input size) (job.units size) = .error (.crash c) →
      MayCrash job size

theorem Sized.steady (hz : job.Sized size) (h : ¬ job.MayCrash size) : job.Steady size where
  toSized := hz
  reading := readable_iff.2 fun _ hpe ho => h (.reading hpe ho)
  returning := fun hpos _ hc => h (.partitioning hpos hc)

theorem Sized.steady_contained (hz : job.Sized size) (hr : job.Readable size) :
    job.contained.Steady size where
  reader := hz.reader
  units := hz.units
  gathered := hz.gathered
  partitioner := hz.partitioner.contained
  reading := hr
  returning := fun _ => Partitioner.survives_contained

/-- A rank that cannot read its block returns in its first turn. -/
theorem turn_of_read_error {e : Failure MeshError} (mail : Mailboxes)
    (hv : job.settings.validate = .ok ()) (hpe : pe < size) (hs : size < 2 ^ 32)
    (h : Portion.read job.reader size pe = .error e) :
    Progress.fresh.turn job (.mailbox size pe) mail =
      some (Progress.giveUp (.mailbox size pe) mail {} (e.map .mesh)) := by
  obtain ⟨r, hcreate, hworker, hcollector⟩ : ∃ r, Rank.create job (Link.mailbox size pe).rank
      (Link.mailbox size pe).size = .ok r ∧ r.worker = job.fresh size pe ∧ r.collector = {} :=
    ⟨_, create_eq hv hpe hs, rfl, rfl⟩
  have hstart := start_of_read_error h
  unfold Progress.turn Rank.onWorker
  dsimp only
  rw [hcreate]
  dsimp only
  rw [hworker]
  generalize (job.fresh size pe).start = o at *
  obtain ⟨w, result⟩ := o
  obtain rfl : result = .error (e.map .mesh) := hstart
  rw [← hcollector]
  rfl

theorem turn_of_overflows (mail : Mailboxes) (hv : job.settings.validate = .ok ())
    (hpe : pe < size) (hs : size < 2 ^ 32) (ho : job.Overflows size pe) :
    Progress.fresh.turn job (.mailbox size pe) mail =
      some (.returned ⟨.error (.crash .outOfRoom), {}⟩, mail) :=
  turn_of_read_error mail hv hpe hs ((read_eq_crash_iff hpe).2 ⟨rfl, ho⟩)

section

variable (hv : job.settings.validate = .ok ()) (hs : size < 2 ^ 32)
  (hlen : u.ranks.length = size) (hfresh : ∀ p ∈ u.ranks, p = .fresh) (hpe : pe < size)
  (ho : job.Overflows size pe)

include hv hs hlen hfresh hpe ho

theorem exists_broken_of_overflows : ∃ v, u.Reaches job v ∧ v.Broken := by
  have hlt : pe < u.ranks.length := hlen.symm ▸ hpe
  have hget : u.ranks[pe]? = some .fresh := by
    rw [List.getElem?_eq_getElem hlt, hfresh _ (List.getElem_mem hlt)]
  have hturn := turn_of_overflows u.mail hv hpe hs ho
  rw [← hlen] at hturn
  have hstep := Universe.turn_eq_some_iff.2 ⟨_, _, _, hget, hturn, rfl⟩
  exact ⟨_, .turn pe .refl hstep, pe, .outOfRoom, {}, List.getElem?_set_self hlt⟩

/-- A rank whose block overflows has had no turn, or crashed in it. -/
theorem fresh_or_crashed (hr : u.Reaches job v) :
    v.ranks[pe]? = some .fresh ∨ v.Crashed pe .outOfRoom := by
  induction hr with
  | refl =>
    have hget := List.getElem?_eq_getElem (hlen ▸ hpe)
    exact .inl (hget.trans (congrArg some (hfresh _ (List.getElem_mem _))))
  | @turn v w rank hr ht ih =>
    rcases ih with hf | ⟨created, he⟩
    · obtain ⟨p, p', mail, hget, hturn, rfl⟩ := Universe.turn_eq_some_iff.1 ht
      by_cases hrank : rank = pe
      · subst hrank
        cases hf.symm.trans hget
        rw [hr.length_eq, hlen, turn_of_overflows _ hv hpe hs ho] at hturn
        cases hturn
        exact .inr ⟨{}, List.getElem?_set_self (List.getElem?_eq_some_iff.1 hget).1⟩
      · exact .inl ((List.getElem?_set_ne hrank).trans hf)
    · exact .inr ⟨created, he.turn ht⟩

theorem crashed_of_overflows (hr : u.Reaches job v) (hb : v.isBlocked job = true) :
    v.Crashed pe .outOfRoom := by
  rcases fresh_or_crashed hv hs hlen hfresh hpe ho hr with hf | hc
  · have hlt : pe < v.ranks.length := (List.getElem?_eq_some_iff.1 hf).1
    have hnone : v.turn job pe = none :=
      Option.isNone_iff_eq_none.1 (List.all_eq_true.1 hb pe (List.mem_range.2 hlt))
    have hturn := Universe.turn_eq_none_iff.1 hnone _ hf
    rw [hr.length_eq, hlen, turn_of_overflows _ hv hpe hs ho] at hturn
    cases hturn
  · exact hc

end

/-! ### The end of a run -/

/-- Where no block overflows, ranks agree unless one of them crashes. -/
theorem Sized.agreed_of_readable (hz : job.Sized size) (hr : job.Readable size)
    (hs : size < 2 ^ 32) (hu : Universe.create size = .ok u) (hfresh : ∀ p ∈ u.ranks, p = .fresh) :
    ((∀ v, u.Reaches job v → ¬ v.Broken) → ¬ u.Endless job) ∧
      ∀ v, u.Reaches job v → v.isBlocked job = true → ¬ v.Broken → v.Agreed := by
  obtain ⟨u', hu', hend, hall⟩ := (hz.steady_contained hr).agrees hs
  obtain rfl : u = u' := Except.ok.inj (hu.symm.trans hu')
  have hself := Universe.contained_of_fresh hfresh
  constructor
  · rintro hnone ⟨run, h0, hstep⟩
    have hrun : ∀ k, u.Reaches job (run k) := by
      intro k
      induction k with
      | zero => exact h0 ▸ .refl
      | succ k ih =>
        obtain ⟨rank, ht⟩ := hstep k
        exact .turn rank ih ht
    refine hend ⟨fun k => (run k).contained, h0 ▸ hself, fun k => ?_⟩
    obtain ⟨rank, ht⟩ := hstep k
    exact ⟨rank, Universe.turn_contained ht (hnone _ (hrun (k + 1)))⟩
  · intro v hv hb hnone
    have hv' : u.Reaches job.contained v.contained := hself ▸ hv.contained hnone
    exact ((hall _ hv').2 (Universe.isBlocked_contained hb)).2.of_contained

theorem Sized.agreed_of_not_broken (hz : job.Sized size) (hs : size < 2 ^ 32)
    (hu : Universe.create size = .ok u) (hlen : u.ranks.length = size)
    (hfresh : ∀ p ∈ u.ranks, p = .fresh) :
    ((∀ v, u.Reaches job v → ¬ v.Broken) → ¬ u.Endless job) ∧
      ∀ v, u.Reaches job v → v.isBlocked job = true → ¬ v.Broken → v.Agreed := by
  cases hv : job.settings.validate with
  | error f =>
    obtain ⟨u', hu', hend, hall⟩ := agrees_of_validate hs hv
    obtain rfl : u = u' := Except.ok.inj (hu.symm.trans hu')
    exact ⟨fun _ => hend, fun v hr hb _ => ((hall v hr).2 hb).2⟩
  | ok =>
    by_cases ho : ∃ pe < size, job.Overflows size pe
    · obtain ⟨pe, hpe, ho⟩ := ho
      constructor
      · intro hnone
        obtain ⟨v, hr, hb⟩ := exists_broken_of_overflows hv hs hlen hfresh hpe ho
        exact absurd hb (hnone v hr)
      · intro v hr hb hnone
        have hc := crashed_of_overflows hv hs hlen hfresh hpe ho hr hb
        exact absurd ⟨pe, .outOfRoom, hc⟩ hnone
    · exact hz.agreed_of_readable (readable_iff.2 fun pe hpe h => ho ⟨pe, hpe, h⟩) hs hu hfresh

/-- Nothing but a block that overflows and the partitioner makes a rank crash. -/
theorem Sized.mayCrash_of_broken (hz : job.Sized size) (hs : size < 2 ^ 32)
    (hu : Universe.create size = .ok u) (hr : u.Reaches job v) (hb : v.Broken) :
    job.settings.validate = .ok () ∧ job.MayCrash size := by
  have hnone : ¬ job.Agrees size := by
    rintro ⟨u', hu', -, hall⟩
    obtain rfl : u = u' := Except.ok.inj (hu.symm.trans hu')
    obtain ⟨pe, c, hc⟩ := hb
    exact (hall v hr).1 pe c hc
  refine ⟨?_, by_contra fun hm => hnone ((hz.steady hm).agrees hs)⟩
  cases hv : job.settings.validate with
  | error f => exact absurd (agrees_of_validate hs hv) hnone
  | ok => rfl

/-- Ranks agree on how a run ends, in whatever order they take their turns, unless one of them
crashes. Turns come to an end where none can crash. Where nobody has a turn any more and nobody
crashed, all ranks have returned, either all of them with what they created or all of them with an
error; errors agree on whether the user is to blame, and a rank that was stopped names one that
failed by itself. Only a block that overflows and the partitioner can make a rank crash, and a block
that overflows always does. -/
theorem ranks_agree_unless_one_crashes (hz : job.Sized size) (hs : size < 2 ^ 32) :
    ∃ u, Universe.create size = .ok u ∧
      ((∀ v, u.Reaches job v → ¬ v.Broken) → ¬ u.Endless job) ∧
      ∀ v, u.Reaches job v →
        (v.Broken → job.settings.validate = .ok () ∧ job.MayCrash size) ∧
        (v.isBlocked job = true →
          v.ranks.length = size ∧ (v.Agreed ↔ ¬ v.Broken) ∧
          (job.settings.validate = .ok () →
            ∀ pe < size, job.Overflows size pe → v.Crashed pe .outOfRoom)) := by
  obtain ⟨u, hu, hlen, hfresh⟩ := exists_create hs
  obtain ⟨hend, hagreed⟩ := hz.agreed_of_not_broken hs hu hlen hfresh
  refine ⟨u, hu, hend, fun v hr => ⟨hz.mayCrash_of_broken hs hu hr, fun hb => ?_⟩⟩
  refine ⟨hr.length_eq.trans hlen, ⟨?_, hagreed v hr hb⟩, ?_⟩
  · rintro ha ⟨pe, c, hc⟩
    exact ha.not_crashed hc
  · intro hv pe hpe ho
    exact crashed_of_overflows hv hs hlen hfresh hpe ho hr hb

/-- Ranks that read two tetrahedra, with a partitioner that always answers the same. -/
def answering (ids : List Nat) : Job where
  reader := Scenario.pair.mesh.reader
  settings := Scenario.pair.settings
  partitioner := .constant "constant" false ids

theorem sized_answering {ids : List Nat} (hw : InWords ids) (hlen : 8 * ids.length < memory) :
    (answering ids).Sized 2 where
  reader := TetMesh.sized_reader Scenario.sized_pair.inMemory Scenario.sized_pair.nodes
  units := by
    rintro n ⟨⟩
    decide
  gathered := fun _ => by
    have htotal : (answering ids).total = 2 := rfl
    rw [htotal]
    decide
  partitioner :=
    Partitioner.sized_constant false _ ((within_fixed (by decide)).trans (by decide)) hw hlen

theorem not_mayCrash_answering (ids : List Nat) : ¬ (answering ids).MayCrash 2 := by
  rintro (⟨-, ho⟩ | ⟨-, ⟨⟩⟩)
  exact not_overflows_of_mesh rfl ho

/-- Ranks whose reader tells of elements, but has no node ids for them. Four ids for every element
of the last rank are more than a machine word holds. -/
def hollow : Job where
  reader := {
    count := .ok (2 ^ 63 - 1)
    elements := fun _ _ => .ok []
    coordinates := fun _ => .ok ∅ }
  settings := Scenario.pair.settings
  partitioner := .constant "constant" false []

theorem overflows_hollow : hollow.Overflows 2 1 :=
  ⟨rfl, [], rfl, by decide, by decide⟩

theorem sized_hollow : hollow.Sized 2 where
  reader := {
    count := by
      rintro n ⟨⟩
      decide
    elements := by
      rintro first stop ids - - ⟨⟩
      exact ⟨inWords_nil, by decide⟩
    counting := by rintro e ⟨⟩
    reading := by rintro first stop e - - ⟨⟩
    locating := by rintro nodes e - ⟨⟩ }
  units := by
    rintro n ⟨⟩
    decide
  gathered := fun h => by
    obtain ⟨p, hp⟩ := h 1 (by decide)
    cases hp.symm.trans ((read_eq_crash_iff (by decide)).2 ⟨rfl, overflows_hollow⟩)
  partitioner := Partitioner.sized_constant false _ ((within_fixed (by decide)).trans (by decide))
    inWords_nil (by decide)

/-- Ranks with enough parts and with too few of them agree; a rank whose block overflows crashes. -/
theorem answering_ranks_agree_and_hollow_ranks_crash :
    (∀ ids, ids = [0, 1] ∨ ids = [0] → (answering ids).Sized 2 ∧
      ∃ u, Universe.create 2 = .ok u ∧ ¬ u.Endless (answering ids) ∧
        ∀ v, u.Reaches (answering ids) v → v.isBlocked (answering ids) = true →
          v.ranks.length = 2 ∧ v.Agreed) ∧
    hollow.Sized 2 ∧ ∃ u, Universe.create 2 = .ok u ∧
      ∀ v, u.Reaches hollow v → v.isBlocked hollow = true →
        v.Crashed 1 .outOfRoom ∧ ¬ v.Agreed := by
  have hs : (2 : Nat) < 2 ^ 32 := by decide
  constructor
  · intro ids hids
    have hz : (answering ids).Sized 2 := by
      rcases hids with rfl | rfl
      · have hzero : InWords [0] := inWords_cons.2 ⟨by decide, inWords_nil⟩
        exact sized_answering (inWords_append.2 ⟨hzero, inWords_cons.2 ⟨by decide, inWords_nil⟩⟩)
          (by decide)
      · exact sized_answering (inWords_cons.2 ⟨by decide, inWords_nil⟩) (by decide)
    obtain ⟨u, hu, hend, hall⟩ := ranks_agree_unless_one_crashes hz hs
    have hnone : ∀ v, u.Reaches (answering ids) v → ¬ v.Broken := fun v hr hb =>
      not_mayCrash_answering ids ((hall v hr).1 hb).2
    refine ⟨hz, u, hu, hend hnone, fun v hr hb => ?_⟩
    obtain ⟨hlen, hiff, -⟩ := (hall v hr).2 hb
    exact ⟨hlen, hiff.2 (hnone v hr)⟩
  · obtain ⟨u, hu, -, hall⟩ := ranks_agree_unless_one_crashes sized_hollow hs
    refine ⟨sized_hollow, u, hu, fun v hr hb => ?_⟩
    obtain ⟨-, -, hcrash⟩ := (hall v hr).2 hb
    have hc := hcrash rfl 1 (by decide) overflows_hollow
    exact ⟨hc, fun ha => ha.not_crashed hc⟩

/-- The first rank can tell that node ids are missing, and returns an error. For the second one none
are enough, and it crashes. -/
theorem hollow_reader_parts_ranks : hollow.Sized 2 ∧
    ∃ u v, Universe.create 2 = .ok u ∧ u.Reaches hollow v ∧ v.isBlocked hollow = true ∧
      v.Ended 0 ⟨.error (.error (.mesh (.malformedConnectivity 0))), {}⟩ ∧
        v.Crashed 1 .outOfRoom ∧ ¬ v.Agreed := by
  have hs : (2 : Nat) < 2 ^ 32 := by decide
  have hread : Portion.read hollow.reader 2 0 = .error (.error (.malformedConnectivity 0)) := rfl
  have hfirst := turn_of_read_error (.empty 2) rfl (by decide) hs hread
  have hsecond := turn_of_overflows (.empty 2) rfl (by decide) hs overflows_hollow
  -- The second rank has its turn first, so that no message waits for it yet.
  have hreaches : Universe.Reaches hollow ⟨[.fresh, .fresh], .empty 2⟩
      ⟨[(Progress.giveUp (.mailbox 2 0) (.empty 2) {} _).1,
        .returned ⟨.error (.crash .outOfRoom), {}⟩], _⟩ :=
    .turn 0 (.turn 1 .refl (Universe.turn_eq_some_iff.2 ⟨_, _, _, rfl, hsecond, rfl⟩))
      (Universe.turn_eq_some_iff.2 ⟨_, _, _, rfl, hfirst, rfl⟩)
  refine ⟨sized_hollow, _, _, rfl, hreaches, rfl, rfl, ⟨{}, rfl⟩, fun ha => ?_⟩
  exact @Universe.Agreed.not_crashed _ 1 .outOfRoom ha ⟨{}, rfl⟩

end Job

end MeshDecomp
