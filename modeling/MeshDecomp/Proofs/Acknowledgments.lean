import MeshDecomp.Proofs.Phases

/-!
The report of the distribution rests on a count: a processing element reports once as many
acknowledgments have come in as it has sent exports. It does not look at who acknowledges.
-/

namespace MeshDecomp

/-- Who is sent work units. -/
def Action.exportTo? : Action → Option Nat
  | .send q (.add _) => some q
  | _ => none

namespace Worker

/-- The receivers of work units, in order. -/
def exported (as : List Action) : List Nat := as.filterMap Action.exportTo?

/-- The sender of an acknowledgment that is accepted. -/
def ackTaken? (w : Worker) : Call → Option Nat
  | .handle (.peer q .ack) => (w.handle (.peer q .ack)).result.toOption.map fun _ => q
  | _ => none

/-- The senders of all acknowledgments that are accepted, in order. -/
def acksTaken (w : Worker) : List Call → List Nat
  | [] => []
  | c :: calls => (w.ackTaken? c).toList ++ (w.answer c).state.acksTaken calls

/-- The work units of the local elements are told and taken. -/
def Assigns (w : Worker) (c : Call) : Prop :=
  ∃ units assignment out, c = .handle (.command (.partition units assignment)) ∧
    (w.answer c).result = .ok out

/-- The work units of the local elements are told and taken in the course of the calls. -/
def AssignedIn (w : Worker) : List Call → Prop
  | [] => False
  | c :: calls => w.Assigns c ∨ (w.answer c).state.AssignedIn calls

/-! ### The books of a processing element -/

/-- What the report of the distribution rests on. -/
structure Books where
  partitioned : Bool
  pendingAcks : Nat
  distributed : Bool

def books (w : Worker) : Books := ⟨w.partitioned, w.pendingAcks, w.distributed⟩

/-- The books once it is checked whether the distribution is done. -/
def Books.checked (b : Books) : Books :=
  { b with distributed := b.distributed || b.partitioned && b.pendingAcks = 0 }

/-- The report of the distribution, if the books say for the first time that it is done. -/
def Books.report (b : Books) : List Action :=
  if b.distributed = false ∧ b.checked.distributed = true then [.contribute .distributed] else []

/-- The books once another acknowledgment is in. -/
def Books.acknowledged (b : Books) : Books := { b with pendingAcks := b.pendingAcks - 1 }

/-- A processing element with other books. -/
def withBooks (w : Worker) (b : Books) : Worker :=
  { w with
    partitioned := b.partitioned
    pendingAcks := b.pendingAcks
    distributed := b.distributed }

theorem checkDistributed_eq (w : Worker) :
    w.checkDistributed = .ok (w.withBooks w.books.checked) w.books.report := by
  obtain ⟨⟩ := w
  simp only [checkDistributed, withBooks, books, Books.checked, Books.report]
  grind

/-- What a call does to the books, and what it sends: work units to some peers, and the report of
the distribution when the books say for the first time that it is done. -/
structure Posts {ε : Type} (w : Worker) (o : Outcome Worker ε (List Action)) (sent : List Nat)
    (b : Books) : Prop where
  books : o.state.books = b
  exported : exported (told o) = sent
  reported : .contribute .distributed ∈ told o ↔ w.distributed = false ∧ b.distributed = true

/-- Neither work units nor the report of the distribution. -/
def Plain (a : Action) : Prop := a.exportTo? = none ∧ a ≠ .contribute .distributed

/-- A call that has nothing to do with the distribution. -/
structure Apart {ε : Type} (w : Worker) (o : Outcome Worker ε (List Action)) : Prop where
  books : o.state.books = w.books
  plain : ∀ a ∈ told o, Plain a

section

variable {ε ε' : Type} {w : Worker} {o : Outcome Worker ε (List Action)}

@[simp] theorem told_mapError (o : Outcome Worker ε (List Action)) (f : ε → ε') :
    told (o.mapError f) = told o := by
  obtain ⟨s, e | out⟩ := o <;> rfl

theorem Posts.mapError {sent : List Nat} {b : Books} (h : w.Posts o sent b) (f : ε → ε') :
    w.Posts (o.mapError f) sent b where
  books := h.books
  exported := by
    rw [told_mapError]
    exact h.exported
  reported := by
    rw [told_mapError]
    exact h.reported

theorem Apart.mapError (h : w.Apart o) (f : ε → ε') : w.Apart (o.mapError f) where
  books := h.books
  plain := fun a ha => h.plain a (told_mapError o f ▸ ha)

theorem exported_of_plain {as : List Action} (h : ∀ a ∈ as, Plain a) : exported as = [] :=
  List.filterMap_eq_nil_iff.2 fun a ha => (h a ha).1

theorem Apart.posts (h : w.Apart o) : w.Posts o [] w.books where
  books := h.books
  exported := exported_of_plain h.plain
  reported := by
    refine iff_of_false (fun hm => (h.plain _ hm).2 rfl) ?_
    rintro ⟨hf, ht⟩
    cases hf.symm.trans ht

theorem apart_fail {w' : Worker} {e : ε} (h : w'.books = w.books) : w.Apart (.fail w' e) :=
  ⟨h, nofun⟩

theorem apart_ok {w' : Worker} {as : List Action} (h : w'.books = w.books)
    (hp : ∀ a ∈ as, Plain a) : w.Apart (.ok w' as : Outcome Worker ε (List Action)) :=
  ⟨h, hp⟩

/-- The call may begin with a change that the books do not show. -/
theorem Apart.of_books {w' : Worker} (h : w'.Apart o) (hb : w'.books = w.books) : w.Apart o :=
  ⟨h.books.trans hb, h.plain⟩

theorem mem_told_append {f : Worker → Outcome Worker ε (List Action)} {a : Action}
    (h : a ∈ told (o.append f)) : a ∈ told o ∨ a ∈ told (f o.state) := by
  obtain ⟨s, e | out⟩ := o
  · cases h
  · change a ∈ told ((f s).map (out ++ ·)) at h
    change a ∈ out ∨ a ∈ told (f s)
    generalize f s = o' at h ⊢
    obtain ⟨s', e | more⟩ := o'
    · cases h
    · exact List.mem_append.1 h

theorem Apart.append {f : Worker → Outcome Worker ε (List Action)} (ho : w.Apart o)
    (hf : o.state.Apart (f o.state)) : w.Apart (o.append f) where
  books := by
    refine Eq.trans ?_ ho.books
    obtain ⟨s, e | out⟩ := o
    · rfl
    · exact hf.books
  plain := fun a ha => (mem_told_append ha).elim (ho.plain a) (hf.plain a)

end

variable {w : Worker} {o : Result (List Action)} {source : Nat}

theorem apart_inPhase {expected : Phase} {what : String} (h : w.Apart o) :
    w.Apart (w.inPhase expected what o) := by
  unfold inPhase
  split
  · exact h
  · exact apart_fail rfl

theorem apart_withNumbering {go : Numbering → Result (List Action)} (h : ∀ n, w.Apart (go n)) :
    w.Apart (w.withNumbering go) := by
  unfold withNumbering
  split
  · exact apart_fail rfl
  · exact h _

/-! ### Calls that have nothing to do with the distribution -/

theorem apart_settleBounds : w.Apart w.settleBounds := by
  unfold settleBounds tryBounds
  split
  · split
    · refine apart_ok rfl ?_
      dsimp only
      split <;> simp [Plain, Action.exportTo?]
    · exact apart_ok rfl nofun
  · exact apart_ok rfl nofun

theorem apart_enterBounding : w.Apart w.enterBounding := by
  unfold enterBounding
  dsimp only
  split
  · exact apart_fail rfl
  · exact apart_fail rfl
  · split
    · exact apart_fail rfl
    · refine apart_settleBounds.of_books ?_
      split
      · rfl
      · split <;> rfl

theorem apart_ready : w.Apart w.ready :=
  apart_ok rfl (by simp [Plain, Action.exportTo?])

theorem apart_complete (p : Phase) : w.Apart (w.complete p) := by
  cases p with
  | reading =>
    unfold complete
    dsimp only
    split
    · unfold findCentroids
      dsimp only
      split
      · exact apart_fail rfl
      · exact apart_ok rfl nofun
    · exact apart_ready
  | centroids => exact apart_ready
  | reordering => exact apart_enterBounding
  | bounding =>
    refine apart_ok rfl fun a ha => ?_
    simp only [List.mem_append, List.mem_map, List.mem_singleton] at ha
    rcases ha with (⟨u, -, rfl⟩ | ⟨b, -, rfl⟩) | rfl <;> simp [Plain, Action.exportTo?]
  | _ => exact apart_fail rfl

theorem apart_drain (w : Worker) : w.Apart w.drain := by
  refine drain_induction (motive := fun w o => w.Apart o) ?_ ?_ w
  · intro w _
    exact apart_ok rfl nofun
  · intro w p rest _ ih
    exact ((apart_complete p).append ih).of_books rfl

theorem apart_start : w.Apart w.start := by
  unfold start
  split
  · exact apart_fail rfl
  · refine Apart.append ?_ ((apart_drain _).mapError Failure.error)
    unfold read
    split
    · exact apart_fail rfl
    · dsimp only
      split
      · exact apart_fail rfl
      · exact apart_ok rfl (by simp [Plain, Action.exportTo?])

theorem apart_flatten : w.Apart w.flatten := by
  refine apart_inPhase ?_
  split
  · exact apart_fail rfl
  · split
    · exact apart_fail rfl
    · dsimp only
      split
      · exact apart_fail rfl
      · exact apart_ok rfl (by simp [Plain, Action.exportTo?])

theorem apart_lift {β : Type} (o : Outcome Numbering NumberingFault β) {g : β → List Action}
    (hg : ∀ b, ∀ a ∈ g b, Plain a) : w.Apart ((w.lift o).map g) := by
  obtain ⟨n, e | b⟩ := o
  · exact apart_fail rfl
  · exact apart_ok rfl (hg b)

theorem apart_flushRequests : w.Apart w.flushRequests := by
  refine apart_withNumbering fun n => apart_lift _ fun replies a ha => ?_
  obtain ⟨r, -, rfl⟩ := List.mem_map.1 ha
  simp [Plain, Action.exportTo?]

theorem apart_checkReordered : w.Apart (.ok w.checkReordered [] : Result (List Action)) := by
  refine apart_ok ?_ nofun
  unfold checkReordered
  split <;> rfl

theorem apart_reorder (start : Nat) (asked : IdMap (List Nat)) :
    w.Apart (w.reorder start asked) := by
  refine apart_inPhase ?_
  split
  · exact apart_fail rfl
  · refine (apart_withNumbering (w := { w with phase := .reordering }) fun n => ?_).of_books rfl
    refine (apart_lift _ fun requests a ha => ?_).append
      (apart_flushRequests.append apart_checkReordered)
    obtain ⟨r, -, rfl⟩ := List.mem_map.1 ha
    simp [Plain, Action.exportTo?]

theorem apart_request (nodes : List Nat) : w.Apart (w.request source nodes) :=
  apart_withNumbering fun _ => apart_flushRequests.of_books rfl

theorem apart_reply (pairs : List (Nat × Nat)) : w.Apart (w.reply source pairs) := by
  refine apart_inPhase (apart_withNumbering fun n => ?_)
  generalize n.resolve source pairs = o
  obtain ⟨n', e | u⟩ := o
  · exact apart_fail rfl
  · exact apart_checkReordered.of_books rfl

theorem apart_receiveLower (bound : Nat) : w.Apart (w.receiveLower source bound) := by
  unfold receiveLower
  split
  · exact apart_fail rfl
  · split
    · exact apart_fail rfl
    · split
      · exact apart_ok rfl nofun
      · split
        · exact apart_settleBounds.of_books rfl
        · exact apart_fail rfl

theorem apart_deviation (mean : Binary64) : w.Apart (w.deviation mean) :=
  apart_inPhase (apart_ok rfl (by simp [Plain, Action.exportTo?]))

/-! ### Work units and acknowledgments -/

theorem append_drain_of_idle (h : o.state.completions = []) : o.append drain = o := by
  obtain ⟨s, e | out⟩ := o
  · rfl
  · change (drain s).map (out ++ ·) = ⟨s, .ok out⟩
    rw [drain_of_nil h]
    exact congrArg (Outcome.ok s) (List.append_nil out)

/-- A call that leaves no completion behind ends with what its event does. -/
theorem handle_of_idle {e : Event} (h : (w.dispatch e).state.completions = []) :
    w.handle e = w.dispatch e :=
  append_drain_of_idle h

@[simp] theorem exported_report (b : Books) : exported b.report = [] := by
  unfold Books.report
  split <;> rfl

theorem mem_report (b : Books) : .contribute .distributed ∈ b.report ↔
    b.distributed = false ∧ b.checked.distributed = true := by
  simp [Books.report]

theorem posts_checkDistributed : w.Posts w.checkDistributed [] w.books.checked := by
  rw [checkDistributed_eq]
  exact ⟨rfl, exported_report _, mem_report _⟩

theorem idle_append_checkDistributed (h : o.state.completions = []) :
    (o.append checkDistributed).state.completions = [] := by
  obtain ⟨s, e | out⟩ := o
  · exact h
  · rw [Outcome.append, Outcome.bind]
    dsimp only
    rw [checkDistributed_eq]
    exact h

theorem books_mergeAll {units : Nat} (incoming : List (Nat × List Nat)) :
    (w.mergeAll source units incoming).state.books = w.books := by
  induction incoming generalizing w with
  | nil => rfl
  | cons e incoming ih =>
    simp only [mergeAll]
    split
    · rfl
    · split
      · rfl
      · exact ih (w := { w with table := record w.table e.1 source e.2 })

theorem apart_merge (incoming : IdMap (List Nat)) : w.Apart (w.merge source incoming) := by
  unfold merge
  split
  · exact apart_fail rfl
  · next units _ =>
    have hbooks : (w.mergeAll source units incoming.entries).state.books = w.books :=
      books_mergeAll incoming.entries
    generalize w.mergeAll source units incoming.entries = o at *
    obtain ⟨s, e | u⟩ := o
    · exact apart_fail hbooks
    · exact apart_ok hbooks (by simp [Plain, Action.exportTo?])

theorem apart_mergeParked (parked : List (Nat × IdMap (List Nat))) :
    w.Apart (w.mergeParked parked) := by
  induction parked generalizing w with
  | nil => exact apart_ok rfl nofun
  | cons e parked ih => exact (apart_merge e.2).append ih

/-- Behind a call that does not report the distribution, it may be done. -/
theorem Posts.checks {s : Worker} {out : List Action} {sent : List Nat} {b : Books}
    (h : w.Posts (.ok s out : Result (List Action)) sent b) (hd : b.distributed = w.distributed) :
    w.Posts ((Outcome.ok s out).append checkDistributed) sent b.checked := by
  obtain ⟨rfl, hexported, hreported⟩ := h
  rw [Outcome.append_ok, checkDistributed_eq, Outcome.map_ok]
  refine ⟨rfl, ?_, ?_⟩
  · change Worker.exported (out ++ s.books.report) = sent
    rw [Worker.exported, List.filterMap_append]
    exact (congrArg₂ (· ++ ·) hexported (exported_report _)).trans (List.append_nil sent)
  · have hfirst : Action.contribute .distributed ∉ out := by
      intro hm
      obtain ⟨hf, ht⟩ := hreported.1 hm
      cases hf.symm.trans (hd.symm.trans ht)
    change .contribute .distributed ∈ out ++ s.books.report ↔ _
    rw [List.mem_append, or_iff_right hfirst, mem_report, ← hd]
    rfl

theorem Apart.checks (h : w.Apart o) :
    w.Apart (o.append checkDistributed) ∨
      w.Posts (o.append checkDistributed) [] w.books.checked := by
  obtain ⟨s, e | out⟩ := o
  · exact .inl h
  · exact .inr (h.posts.checks rfl)

theorem posts_add (incoming : IdMap (List Nat)) :
    w.Apart (w.add source incoming) ∨ w.Posts (w.add source incoming) [] w.books.checked := by
  unfold add
  split
  · exact .inl (apart_fail rfl)
  · split
    · exact .inl (apart_ok rfl nofun)
    · exact (apart_merge incoming).checks

theorem idle_add (hi : w.completions = []) (incoming : IdMap (List Nat)) :
    (w.add source incoming).state.completions = [] := by
  unfold add
  split
  · exact hi
  · split
    · exact hi
    · exact idle_append_checkDistributed ((quiet_merge incoming).idle hi)

/-- An acknowledgment is accepted as long as one is outstanding, whoever sends it. -/
theorem ack_cases (w : Worker) :
    w.pendingAcks = 0 ∧ w.ack = w.refuse .unexpectedAck ∨
      0 < w.pendingAcks ∧ w.ack = checkDistributed { w with pendingAcks := w.pendingAcks - 1 } := by
  unfold ack
  split
  · next h => exact .inl ⟨h, rfl⟩
  · next h => exact .inr ⟨Nat.pos_of_ne_zero h, rfl⟩

theorem idle_ack (hi : w.completions = []) : w.ack.state.completions = [] := by
  rcases w.ack_cases with ⟨-, h⟩ | ⟨-, h⟩
  · exact h ▸ hi
  · rw [h, checkDistributed_eq]
    exact hi

theorem exported_adds (out : IdMap (IdMap (List Nat))) :
    exported (out.entries.map fun e => .send e.1 (.add e.2)) = out.keys := by
  rw [exported, List.filterMap_map, IdMap.keys, ← List.filterMap_eq_map]
  rfl

/-- What follows the exports: the work units that came before are taken, and the distribution may be
done. -/
theorem posts_exports {adds : List Action} {sent : List Nat} (hsent : exported adds = sent)
    (hsilent : .contribute .distributed ∉ adds) (parked : List (Nat × IdMap (List Nat)))
    (ho : ((w.mergeParked parked).append checkDistributed).map (adds ++ ·) = o) :
    o.state.phase = w.phase ∧ o.state.completions = w.completions ∧
      ((∃ e, o.result = .error e ∧ o.state.books = w.books) ∨
        ∃ out, o.result = .ok out ∧ w.Posts o sent w.books.checked) := by
  have hapart := apart_mergeParked (w := w) parked
  have hquiet := quiet_mergeParked (w := w) parked
  generalize w.mergeParked parked = merged at *
  have hphase : merged.state.phase = w.phase := congrArg Standing.phase hquiet.standing
  have hidle : merged.state.completions = w.completions :=
    congrArg Standing.completions hquiet.standing
  subst ho
  obtain ⟨s, e | acks⟩ := merged
  · exact ⟨hphase, hidle, .inl ⟨e, rfl, hapart.books⟩⟩
  · have hposts : w.Posts (.ok s (adds ++ acks) : Result (List Action)) sent w.books := by
      obtain ⟨hbooks, hnone, hreported⟩ := hapart.posts
      refine ⟨hbooks, ?_, ?_⟩
      · change Worker.exported (adds ++ acks) = sent
        rw [Worker.exported, List.filterMap_append]
        exact (congrArg₂ (· ++ ·) hsent hnone).trans (List.append_nil sent)
      · change .contribute .distributed ∈ adds ++ acks ↔ _
        rw [List.mem_append, or_iff_right hsilent]
        exact hreported
    have hsplit : (Outcome.append ⟨s, .ok acks⟩ checkDistributed).map (adds ++ ·) =
        (Outcome.ok s (adds ++ acks)).append checkDistributed := by
      change (s.checkDistributed.map (acks ++ ·)).map (adds ++ ·) =
        s.checkDistributed.map (adds ++ acks ++ ·)
      rw [checkDistributed_eq, Outcome.map_ok, Outcome.map_ok, Outcome.map_ok, List.append_assoc]
    have hchecked := hposts.checks rfl
    rw [hsplit]
    rw [Outcome.append_ok, checkDistributed_eq, Outcome.map_ok] at hchecked ⊢
    exact ⟨hphase, hidle, .inr ⟨_, rfl, hchecked⟩⟩

/-- Where the work units of the local elements go. -/
def sends (w : Worker) (units : Nat) (buckets : IdMap (List Nat)) : IdMap (IdMap (List Nat)) :=
  exports w.rank w.pes units buckets

/-- A processing element that has kept its own work units and sent the others. -/
def withExports (w : Worker) (units : Nat) (buckets : IdMap (List Nat)) : Worker :=
  { (distribute { w with units := some units, phase := .partitioning } units buckets).1 with
    partitioned := true
    parked := [] }

/-- A partitioning is refused with the books as they are, or the work units are sent. -/
theorem partition_cases (w : Worker) (units : Nat) (assignment : List Nat) :
    (∃ w' e, w.partition units assignment = .fail w' e ∧ w'.books = w.books ∧
        w'.completions = w.completions) ∨
      w.phase = .ready ∧ ∃ buckets, w.partition units assignment =
        (((w.withExports units buckets).mergeParked w.parked).append checkDistributed).map
          ((w.sends units buckets).entries.map (fun e => .send e.1 (.add e.2)) ++ ·) := by
  unfold partition inPhase
  split
  · next hp =>
    split
    · exact .inl ⟨_, _, rfl, rfl, rfl⟩
    · dsimp only
      split
      · exact .inl ⟨_, _, rfl, rfl, rfl⟩
      · split
        · exact .inl ⟨_, _, rfl, rfl, rfl⟩
        · exact .inr ⟨hp, _, rfl⟩
  · exact .inl ⟨_, _, rfl, rfl, rfl⟩

/-- A partitioning that is not refused counts its exports, and may fail behind that. -/
theorem posts_partition {units : Nat} {assignment : List Nat} {buckets : IdMap (List Nat)}
    (ho : w.partition units assignment =
      (((w.withExports units buckets).mergeParked w.parked).append checkDistributed).map
        ((w.sends units buckets).entries.map (fun e => .send e.1 (.add e.2)) ++ ·)) :
    (w.partition units assignment).state.phase = .partitioning ∧
      (w.partition units assignment).state.completions = w.completions ∧
      ((∃ e k, (w.partition units assignment).result = .error e ∧
          (w.partition units assignment).state.books = ⟨true, k, w.distributed⟩) ∨
        ∃ out sent, (w.partition units assignment).result = .ok out ∧
          w.Posts (w.partition units assignment) sent
            (Books.checked ⟨true, sent.length, w.distributed⟩)) := by
  obtain ⟨hphase, hidle, h⟩ := posts_exports (exported_adds (w.sends units buckets)) (by simp)
    w.parked ho.symm
  refine ⟨hphase, hidle, h.imp ?_ ?_⟩
  · rintro ⟨e, he, hbooks⟩
    exact ⟨e, _, he, hbooks⟩
  · rintro ⟨out, hout, hposts⟩
    refine ⟨out, (w.sends units buckets).keys, hout, ?_⟩
    rw [IdMap.length_keys]
    exact ⟨hposts.books, hposts.exported, hposts.reported⟩

/-! ### Whole calls -/

/-- What a call does to the books. -/
inductive Shift (w : Worker) (c : Call) : Prop
  | keeps : w.Apart (w.answer c) → w.ackTaken? c = none → ¬w.Assigns c → Shift w c
  | checks : w.Posts (w.answer c) [] w.books.checked → w.ackTaken? c = none → ¬w.Assigns c →
      Shift w c
  | acknowledges (q : Nat) : 0 < w.pendingAcks →
      w.Posts (w.answer c) [] w.books.acknowledged.checked →
      w.ackTaken? c = some q → ¬w.Assigns c → Shift w c
  /-- The partitioning fails behind its exports, which are not sent then. -/
  | breaks (k : Nat) : w.phase = .ready → (w.answer c).state.phase = .partitioning →
      (w.answer c).state.books = ⟨true, k, w.distributed⟩ → told (w.answer c) = [] →
      w.ackTaken? c = none → ¬w.Assigns c → Shift w c
  | assigns (sent : List Nat) : w.phase = .ready → (w.answer c).state.phase = .partitioning →
      w.Posts (w.answer c) sent (Books.checked ⟨true, sent.length, w.distributed⟩) →
      w.ackTaken? c = none → w.Assigns c → Shift w c

theorem not_assigns {c : Call} (h : ∀ units assignment,
    c ≠ .handle (.command (.partition units assignment))) : ¬w.Assigns c := by
  rintro ⟨units, assignment, out, hc, -⟩
  exact h units assignment hc

theorem not_assigns_of_error {c : Call} {e : Failure RunError}
    (h : (w.answer c).result = .error e) : ¬w.Assigns c := by
  rintro ⟨units, assignment, out, -, hok⟩
  cases h.symm.trans hok

theorem Apart.shift {c : Call} (h : w.Apart (w.answer c))
    (hack : ∀ q, c ≠ .handle (.peer q .ack))
    (hassign : ∀ units assignment, c ≠ .handle (.command (.partition units assignment))) :
    w.Shift c := by
  refine .keeps h ?_ (not_assigns hassign)
  unfold ackTaken?
  split
  · next q => exact absurd rfl (hack q)
  · rfl

theorem shift_partition (hi : w.completions = []) (units : Nat) (assignment : List Nat) :
    w.Shift (.handle (.command (.partition units assignment))) := by
  have hdispatch : w.dispatch (.command (.partition units assignment)) =
    w.partition units assignment := rfl
  rcases w.partition_cases units assignment with ⟨w', e, h, hbooks, hidle⟩ | ⟨hp, buckets, h⟩
  · have hhandle : w.handle (.command (.partition units assignment)) = .fail w' e :=
      (handle_of_idle (by rw [hdispatch, h]; exact hidle.trans hi)).trans h
    have hanswer : w.answer (.handle (.command (.partition units assignment))) =
      .fail w' (.error e) := congrArg (Outcome.mapError Failure.error) hhandle
    refine .keeps ?_ rfl (not_assigns_of_error (congrArg Outcome.result hanswer))
    rw [hanswer]
    exact apart_fail hbooks
  · obtain ⟨hphase, hidle, h⟩ := posts_partition h
    have hhandle : w.handle (.command (.partition units assignment)) =
      w.partition units assignment := handle_of_idle (hidle.trans hi)
    have hanswer : w.answer (.handle (.command (.partition units assignment))) =
      (w.partition units assignment).mapError .error :=
        congrArg (Outcome.mapError Failure.error) hhandle
    have hphase' : (w.answer (.handle (.command (.partition units assignment)))).state.phase =
      .partitioning := hanswer ▸ hphase
    rcases h with ⟨e, k, he, hbooks⟩ | ⟨out, sent, hok, hposts⟩
    · have herror : (w.answer (.handle (.command (.partition units assignment)))).result =
        .error (.error e) := hanswer ▸ congrArg (Except.mapError _) he
      have hnone : told (w.answer (.handle (.command (.partition units assignment)))) = [] := by
        rw [told, herror]
      exact .breaks k hp hphase' (hanswer ▸ hbooks) hnone rfl (not_assigns_of_error herror)
    · have hgiven : (w.answer (.handle (.command (.partition units assignment)))).result =
        .ok out := hanswer ▸ congrArg (Except.mapError _) hok
      exact .assigns sent hp hphase' (hanswer ▸ hposts.mapError Failure.error) rfl
        ⟨units, assignment, out, rfl, hgiven⟩

theorem shift_add (hi : w.completions = []) (q : Nat) (incoming : IdMap (List Nat))
    (hd : w.dispatch (.peer q (.add incoming)) = w.add q incoming) :
    w.Shift (.handle (.peer q (.add incoming))) := by
  have hhandle : w.handle (.peer q (.add incoming)) = w.add q incoming :=
    (handle_of_idle (hd ▸ idle_add hi incoming)).trans hd
  have hanswer : w.answer (.handle (.peer q (.add incoming))) =
    (w.add q incoming).mapError Failure.error := congrArg (Outcome.mapError Failure.error) hhandle
  rcases posts_add incoming with h | h
  · exact Apart.shift (hanswer ▸ h.mapError Failure.error) nofun nofun
  · exact .checks (hanswer ▸ h.mapError Failure.error) rfl (not_assigns nofun)

/-- An acknowledgment is taken as one of those outstanding, whoever sends it. -/
theorem shift_ack (hi : w.completions = []) (q : Nat)
    (hd : w.dispatch (.peer q .ack) = w.ack) : w.Shift (.handle (.peer q .ack)) := by
  have hhandle : w.handle (.peer q .ack) = w.ack := (handle_of_idle (hd ▸ idle_ack hi)).trans hd
  have hanswer : w.answer (.handle (.peer q .ack)) = w.ack.mapError Failure.error :=
    congrArg (Outcome.mapError Failure.error) hhandle
  have htaken : w.ackTaken? (.handle (.peer q .ack)) = w.ack.result.toOption.map fun _ => q :=
    congrArg (fun o : Result (List Action) => o.result.toOption.map fun _ => q) hhandle
  rcases w.ack_cases with ⟨-, h⟩ | ⟨hpos, h⟩
  · refine .keeps ?_ (by rw [htaken, h]; rfl) (not_assigns nofun)
    exact hanswer ▸ h ▸ apart_fail rfl
  · have hposts := posts_checkDistributed (w := { w with pendingAcks := w.pendingAcks - 1 })
    refine .acknowledges q hpos ?_ (by rw [htaken, h, checkDistributed_eq]; rfl) (not_assigns nofun)
    rw [hanswer, h]
    have hsame : w.Posts (checkDistributed { w with pendingAcks := w.pendingAcks - 1 }) []
        w.books.acknowledged.checked :=
      ⟨hposts.books, hposts.exported, hposts.reported⟩
    exact hsame.mapError Failure.error

theorem shift_peer (hi : w.completions = []) (q : Nat) (m : PeerMessage) :
    w.Shift (.handle (.peer q m)) := by
  by_cases hq : w.pes ≤ q ∨ q = w.rank
  · have hd : w.dispatch (.peer q m) = w.refuse (.invalidPeer q) := if_pos hq
    have hrefused : w.handle (.peer q m) = w.refuse (.invalidPeer q) :=
      (handle_of_idle (hd ▸ hi)).trans hd
    refine .keeps ?_ ?_ (not_assigns nofun)
    · change w.Apart ((w.handle _).mapError Failure.error)
      exact hrefused ▸ apart_fail rfl
    · unfold ackTaken?
      split
      · next heq =>
        cases heq
        rw [hrefused]
        rfl
      · rfl
  · have hd : w.dispatch (.peer q m) = w.receive q m := if_neg hq
    have hanswer : w.answer (.handle (.peer q m)) =
        ((w.receive q m).append drain).mapError .error :=
      congrArg (fun o => (o.append drain).mapError Failure.error) hd
    cases m with
    | add incoming => exact shift_add hi q incoming hd
    | ack => exact shift_ack hi q hd
    | request nodes =>
      have hreceive : w.Apart (w.request q nodes) := apart_request nodes
      have happ := hreceive.append (apart_drain _)
      exact Apart.shift (hanswer ▸ happ.mapError Failure.error) nofun nofun
    | reply pairs =>
      have hreceive : w.Apart (w.reply q pairs) := apart_reply pairs
      have happ := hreceive.append (apart_drain _)
      exact Apart.shift (hanswer ▸ happ.mapError Failure.error) nofun nofun
    | lower bound =>
      have hreceive : w.Apart (w.receiveLower q bound) := apart_receiveLower bound
      have happ := hreceive.append (apart_drain _)
      exact Apart.shift (hanswer ▸ happ.mapError Failure.error) nofun nofun

/-- A call from outside, once no completion waits. -/
theorem shift_answer (hi : w.completions = []) {c : Call} (hc : c.FromOutside) : w.Shift c := by
  match c, hc with
  | .start, _ => exact apart_start.shift nofun nofun
  | .handle (.peer q m), _ => exact shift_peer hi q m
  | .handle (.command (.partition units assignment)), _ => exact shift_partition hi units assignment
  | .handle (.command .flatten), _ =>
    exact ((apart_flatten.append (apart_drain _)).mapError Failure.error).shift nofun nofun
  | .handle (.command (.reorder start asked)), _ =>
    exact (((apart_reorder start asked).append (apart_drain _)).mapError Failure.error).shift
      nofun nofun
  | .handle (.command (.deviation mean)), _ =>
    exact (((apart_deviation mean).append (apart_drain _)).mapError Failure.error).shift nofun nofun

/-! ### Sequences of calls -/

/-- How the books agree with what was sent and accepted so far. Once the work units of the local
elements are taken, what is outstanding is what was sent and not yet acknowledged. -/
structure Balanced (b : Books) (sent acks : Nat) (reported assigned : Prop) : Prop where
  reported : reported ↔ b.distributed = true
  settled : b.distributed = true → b.partitioned = true ∧ b.pendingAcks = 0
  unpartitioned : b.partitioned = false → b.pendingAcks = 0 ∧ acks = 0
  unassigned : ¬assigned → sent = 0
  assigned : assigned → b.partitioned = true ∧ acks + b.pendingAcks = sent ∧
    (b.pendingAcks = 0 → b.distributed = true)

section Balanced

variable {b : Books} {sent acks : Nat} {reported assigned : Prop}

theorem Balanced.checked (h : Balanced b sent acks reported assigned) :
    Balanced b.checked sent acks (reported ∨ b.distributed = false ∧ b.checked.distributed = true)
      assigned := by
  obtain ⟨hr, hs, hu, hn, ha⟩ := h
  constructor <;> grind [Books.checked]

theorem Balanced.acknowledged (h : Balanced b sent acks reported assigned)
    (hpos : 0 < b.pendingAcks) :
    Balanced b.acknowledged.checked sent (acks + 1)
      (reported ∨ b.distributed = false ∧ b.acknowledged.checked.distributed = true) assigned := by
  obtain ⟨hr, hs, hu, hn, ha⟩ := h
  constructor <;> grind [Books.checked, Books.acknowledged]

/-- The exports of a partitioning that fails behind them are counted, but not sent. -/
theorem Balanced.broken (h : Balanced b sent acks reported assigned) (hp : b.partitioned = false)
    (k : Nat) : Balanced ⟨true, k, b.distributed⟩ sent acks reported assigned := by
  obtain ⟨hr, hs, hu, hn, ha⟩ := h
  constructor <;> grind

theorem Balanced.assigning (h : Balanced b sent acks reported assigned)
    (hp : b.partitioned = false) (k : Nat) :
    Balanced (Books.checked ⟨true, k, b.distributed⟩) (sent + k) acks
      (reported ∨
        b.distributed = false ∧ (Books.checked ⟨true, k, b.distributed⟩).distributed = true)
      True := by
  obtain ⟨hr, hs, hu, hn, ha⟩ := h
  constructor <;> grind [Books.checked]

end Balanced

/-- The work units of the local elements are told no sooner than all is read. -/
def Timely (w : Worker) : Prop := w.partitioned = true → .partitioning ≤ w.phase

theorem Timely.not_partitioned (h : w.Timely) (hp : w.phase = .ready) :
    w.books.partitioned = false := by
  refine Bool.eq_false_iff.2 fun ht => ?_
  exact absurd (hp ▸ h ht) (by decide)

theorem Shift.timely {c : Call} (h : w.Shift c) (hw : w.Timely)
    (hph : w.phase ≤ (w.answer c).state.phase) : (w.answer c).state.Timely := by
  have hsame : (w.answer c).state.partitioned = w.partitioned → (w.answer c).state.Timely :=
    fun he ht => Nat.le_trans (hw (he.symm.trans ht)) hph
  cases h with
  | keeps h => exact hsame (congrArg Books.partitioned h.books)
  | checks h => exact hsame (congrArg Books.partitioned h.books)
  | acknowledges _ _ h => exact hsame (congrArg Books.partitioned h.books)
  | breaks _ _ hp => exact fun _ => Nat.le_of_eq (congrArg Phase.place hp.symm)
  | assigns _ _ hp => exact fun _ => Nat.le_of_eq (congrArg Phase.place hp.symm)

/-- What a call does to the balance. -/
theorem Shift.balanced {c : Call} {sent acks : Nat} {reported assigned : Prop} (h : w.Shift c)
    (hw : w.Timely) (hb : Balanced w.books sent acks reported assigned) :
    Balanced (w.answer c).state.books (sent + (exported (told (w.answer c))).length)
      (acks + (w.ackTaken? c).toList.length)
      (reported ∨ .contribute .distributed ∈ told (w.answer c)) (assigned ∨ w.Assigns c) := by
  cases h with
  | keeps h hack hassign =>
    have hsilent : .contribute .distributed ∉ told (w.answer c) := fun hm => (h.plain _ hm).2 rfl
    rw [h.books, exported_of_plain h.plain, hack]
    simpa [hsilent, hassign] using hb
  | checks h hack hassign =>
    rw [h.books, h.exported, h.reported, hack, or_iff_left hassign]
    exact hb.checked
  | acknowledges q hpos h hack hassign =>
    rw [h.books, h.exported, h.reported, hack, or_iff_left hassign]
    exact hb.acknowledged hpos
  | breaks k hp _ hbooks htold hack hassign =>
    rw [hbooks, htold, hack, or_iff_left hassign, or_iff_left (by simp)]
    exact hb.broken (hw.not_partitioned hp) k
  | assigns n hp _ h hack hassign =>
    rw [h.books, h.exported, h.reported, hack, eq_true (Or.inr hassign)]
    exact hb.assigning (hw.not_partitioned hp) n.length

/-- Over all calls from outside the books stay balanced. -/
theorem balanced_after (hi : w.completions = []) (hs : w.standing.StartsReading) (hw : w.Timely)
    {sent acks : Nat} {reported assigned : Prop}
    (hb : Balanced w.books sent acks reported assigned) {calls : List Call}
    (h : ∀ c ∈ calls, c.FromOutside) :
    Balanced (w.after calls).books (sent + (exported (w.emitted calls)).length)
      (acks + (w.acksTaken calls).length)
      (reported ∨ .contribute .distributed ∈ w.emitted calls) (assigned ∨ w.AssignedIn calls) := by
  induction calls generalizing w sent acks reported assigned with
  | nil => simpa [after, emitted, acksTaken, AssignedIn, exported] using hb
  | cons c calls ih =>
    obtain ⟨hc, hcalls⟩ := List.forall_mem_cons.1 h
    obtain ⟨⟨as, hm, hout⟩, hidle⟩ := settles_answer hi (fun h => (hs h).1) hc
    have hshift := shift_answer hi hc
    have hrun := ih hidle (hm.startsReading hs) (hshift.timely hw hm.phase_le)
      (hshift.balanced hw hb) hcalls
    simpa only [after, List.foldl_cons, emitted, acksTaken, AssignedIn, exported,
      List.filterMap_append, List.length_append, List.mem_append, Nat.add_assoc, or_assoc]
      using hrun

/-- Over all calls from outside on a new processing element. -/
theorem balanced_of_create {rank pes : Nat} {reader : Reader} {settings : Settings} {w₀ w : Worker}
    (h : create rank pes reader settings = .ok w₀) (p : Partitioner) (hw : w₀.prepareFor p = w)
    {calls : List Call} (hcalls : ∀ c ∈ calls, c.FromOutside) :
    Balanced (w.after calls).books (exported (w.emitted calls)).length (w.acksTaken calls).length
      (.contribute .distributed ∈ w.emitted calls) (w.AssignedIn calls) := by
  obtain ⟨-, rfl⟩ := worker_of_create h
  have hs : w.standing = .fresh rank pes := hw ▸ rfl
  have hbooks : w.books = ⟨false, 0, false⟩ := hw ▸ rfl
  have hpart : w.partitioned = false := congrArg Books.partitioned hbooks
  have hnew : Balanced w.books 0 0 False False := by
    rw [hbooks]
    constructor <;> simp
  simpa using balanced_after (congrArg Standing.completions hs)
    (hs ▸ Standing.startsReading_fresh rank pes) (fun ht => by cases hpart.symm.trans ht) hnew
    hcalls

/-- Over all calls from outside, repeated acknowledgments and those of peers that were sent nothing
included: behind the report of the distribution at least as many acknowledgments are accepted as
work units were sent. Peers that acknowledge once, and only if they were sent some, have all
acknowledged then; otherwise one may be missing. Once the local elements are taken, the report comes
with the last acknowledgment that is outstanding. -/
theorem distribution_counts_acks {rank pes : Nat} {reader : Reader} {settings : Settings}
    {w₀ w : Worker} (h : create rank pes reader settings = .ok w₀) (p : Partitioner)
    (hw : w₀.prepareFor p = w) {calls : List Call} (hcalls : ∀ c ∈ calls, c.FromOutside) :
    (.contribute .distributed ∈ w.emitted calls →
      (exported (w.emitted calls)).length ≤ (w.acksTaken calls).length ∧
      ((w.acksTaken calls).Nodup → w.acksTaken calls ⊆ exported (w.emitted calls) →
        exported (w.emitted calls) ⊆ w.acksTaken calls)) ∧
    (w.AssignedIn calls → (.contribute .distributed ∈ w.emitted calls ↔
      (w.acksTaken calls).length = (exported (w.emitted calls)).length)) := by
  obtain ⟨hreported, hsettled, -, hunassigned, hassigned⟩ := balanced_of_create h p hw hcalls
  have hcount : .contribute .distributed ∈ w.emitted calls →
      (exported (w.emitted calls)).length ≤ (w.acksTaken calls).length := by
    intro hr
    obtain ⟨-, hpending⟩ := hsettled (hreported.1 hr)
    by_cases ha : w.AssignedIn calls
    · obtain ⟨-, hsum, -⟩ := hassigned ha
      omega
    · rw [hunassigned ha]
      exact Nat.zero_le _
  refine ⟨fun hr => ⟨hcount hr, fun hnodup hsub => ?_⟩, fun ha => ?_⟩
  · have hperm := (List.subperm_of_subset hnodup hsub).perm_of_length_le (hcount hr)
    exact fun q hq => hperm.mem_iff.2 hq
  · obtain ⟨-, hsum, hlast⟩ := hassigned ha
    rw [hreported]
    constructor
    · intro hd
      obtain ⟨-, hpending⟩ := hsettled hd
      omega
    · intro heq
      exact hlast (by omega)

/-! ### The last of three ranks, with all elements -/

def trioSettings : Settings := { algorithm := .elementOrder, units := some 3 }

def lastOfThree : Worker where
  rank := 2
  pes := 3
  reader := pairMesh.reader
  geometric := false

def lastReady : Worker :=
  { lastOfThree with
    started := true
    total := 2
    portion := ⟨[10, 11, 12, 13, 11, 12, 13, 14], [0, 1]⟩
    phase := .ready }

/-- Its elements go to the two other ranks. -/
def lastPartitioned : Worker :=
  { lastReady with
    phase := .partitioning
    units := some 3
    pendingAcks := 2
    partitioned := true }

def lastDistributed : Worker := { lastPartitioned with pendingAcks := 0, distributed := true }

/-- It is told the work units of its elements, and two acknowledgments come. -/
def lastCalls (q r : Nat) : List Call :=
  [.start, .handle (.command (.partition 3 [0, 1])), .handle (.peer q .ack), .handle (.peer r .ack)]

theorem start_lastOfThree :
    lastOfThree.start = .ok lastReady
      [.contribute (.load 2), .contribute .setup,
        .contribute (.elements ⟨0, [10, 11, 12, 13, 11, 12, 13, 14], none⟩)] := by
  have hread : read { lastOfThree with started := true } =
      .ok { lastReady with phase := .reading, completions := [.reading] }
        [.contribute (.load 2)] := rfl
  exact start_of_read (r := { lastReady with phase := .reading }) rfl hread rfl rfl

theorem partition_lastReady :
    lastReady.handle (.command (.partition 3 [0, 1])) =
      .ok lastPartitioned [.send 0 (.add (.ofList [(0, [10, 11, 12, 13])])),
        .send 1 (.add (.ofList [(1, [11, 12, 13, 14])]))] :=
  handle_of_dispatch rfl rfl

/-- The first of two acknowledgments, whoever sends it. -/
theorem ack_lastPartitioned {q : Nat} (hq : q < 2) :
    lastPartitioned.handle (.peer q .ack) = .ok { lastPartitioned with pendingAcks := 1 } [] := by
  have hpeer : ¬(3 ≤ q ∨ q = 2) := by omega
  exact handle_of_dispatch (if_neg hpeer) rfl

/-- The second one, whoever sends it. -/
theorem ack_last {r : Nat} (hr : r < 2) :
    handle { lastPartitioned with pendingAcks := 1 } (.peer r .ack) =
      .ok lastDistributed [.contribute .distributed] := by
  have hpeer : ¬(3 ≤ r ∨ r = 2) := by omega
  exact handle_of_dispatch (if_neg hpeer) rfl

theorem run_lastCalls {q r : Nat} (hq : q < 2) (hr : r < 2) :
    exported (lastOfThree.emitted (lastCalls q r)) = [0, 1] ∧
      lastOfThree.acksTaken (lastCalls q r) = [q, r] ∧
      .contribute .distributed ∈ lastOfThree.emitted (lastCalls q r) := by
  simp only [lastCalls, emitted, acksTaken, ackTaken?, answer, start_lastOfThree, Outcome.state_ok,
    Outcome.mapError_ok, partition_lastReady, ack_lastPartitioned hq, ack_last hr]
  refine ⟨rfl, rfl, ?_⟩
  simp [told]

theorem lastCalls_fromOutside (q r : Nat) : ∀ c ∈ lastCalls q r, c.FromOutside := by
  simp [lastCalls, Call.FromOutside]

/-- Both ranks that were sent work units acknowledge them. -/
theorem last_is_acknowledged :
    create 2 3 pairMesh.reader trioSettings = .ok lastOfThree ∧
      (∀ c ∈ lastCalls 0 1, c.FromOutside) ∧
      .contribute .distributed ∈ lastOfThree.emitted (lastCalls 0 1) ∧
      exported (lastOfThree.emitted (lastCalls 0 1)) = [0, 1] ∧
      exported (lastOfThree.emitted (lastCalls 0 1)) ⊆ lastOfThree.acksTaken (lastCalls 0 1) := by
  have hcreate : create 2 3 pairMesh.reader trioSettings = .ok lastOfThree := rfl
  obtain ⟨hexported, htaken, hreported⟩ := run_lastCalls (q := 0) (r := 1) (by omega) (by omega)
  obtain ⟨hall, -⟩ := distribution_counts_acks hcreate Algorithm.elementOrder.partitioner rfl
    (lastCalls_fromOutside 0 1)
  obtain ⟨-, hall⟩ := hall hreported
  refine ⟨hcreate, lastCalls_fromOutside 0 1, hreported, hexported, hall ?_ ?_⟩
  · exact htaken ▸ by decide
  · exact htaken ▸ hexported ▸ List.Subset.refl _

/-- The first rank acknowledges twice and the second not at all: the distribution is reported. -/
theorem report_without_ack :
    create 2 3 pairMesh.reader trioSettings = .ok lastOfThree ∧
      (∀ c ∈ lastCalls 0 0, c.FromOutside) ∧
      .contribute .distributed ∈ lastOfThree.emitted (lastCalls 0 0) ∧
      1 ∈ exported (lastOfThree.emitted (lastCalls 0 0)) ∧
      .handle (.peer 1 .ack) ∉ lastCalls 0 0 := by
  obtain ⟨hexported, -, hreported⟩ := run_lastCalls (q := 0) (r := 0) (by omega) (by omega)
  refine ⟨rfl, lastCalls_fromOutside 0 0, hreported, ?_, by decide⟩
  exact hexported ▸ by decide

end Worker
end MeshDecomp
