import MeshDecomp.Proofs.Phases
import MeshDecomp.Proofs.Tiling

/-!
Whatever a processing element is told from outside, in whatever order, it does at most once what it
has to do only once, and hands out nothing but what is its own.
-/

namespace MeshDecomp
namespace Worker

open Standing

namespace Standing

/-- What is done, or can no longer be done. -/
def Spent (s : Standing) : Slot → Prop
  | .contribution .load => s.started = true
  | .contribution .setup | .contribution .elements => .ready ≤ s.phase
  | .contribution .distributed => s.distributed = true
  | .contribution .flattened | .contribution .nodes => .flattening ≤ s.phase
  | .contribution .cost | .bounds | .unit _ => .creating ≤ s.phase
  | .contribution .deviation => .done ≤ s.phase
  | .lower => s.upper.isSome
  | .add _ => .partitioning ≤ s.phase

/-- What holds after any calls from outside. -/
structure Sound (s : Standing) : Prop where
  rank_lt : s.rank < s.pes
  early : s.phase < .bounding → s.built = [] ∧ s.lower = none
  upper_none : s.lower = none → s.upper = none
  ordered : ∀ b, s.bounds = some b → b.first ≤ b.stop
  built : s.built ≠ [] → ∃ units, s.units = some units ∧
    s.built.map WorkUnit.id = (Block.span units s.pes s.rank).toList ∧ ∀ u ∈ s.built, u.pe = s.rank

/-- An action that is about nobody else's. -/
def Own (s : Standing) : Action → Prop
  | .send q (.add _) => q < s.pes ∧ q ≠ s.rank
  | .instantiate u => .partitioning ≤ s.phase ∧ u.pe = s.rank ∧
      ∃ units, s.units = some units ∧ u.id ∈ Block.span units s.pes s.rank
  | .bounds pe b => pe = s.rank ∧ b.first ≤ b.stop
  | _ => True

/-- What a step does that leads to actions: all of them for the first time, and all its own. -/
structure Spends (s : Standing) (as : List Action) (t : Standing) : Prop where
  rank_eq : t.rank = s.rank
  pes_eq : t.pes = s.pes
  phase_le : s.phase ≤ t.phase
  units_eq : .partitioning ≤ s.phase → t.units = s.units
  stays : ∀ k, s.Spent k → t.Spent k
  first : ∀ k ∈ as.filterMap Action.slot?, ¬s.Spent k
  spent : ∀ k ∈ as.filterMap Action.slot?, t.Spent k
  once : (as.filterMap Action.slot?).Nodup
  own : ∀ a ∈ as, t.Own a

variable {s t u : Standing} {as bs : List Action}

theorem Spends.refl (s : Standing) : Spends s [] s where
  rank_eq := rfl
  pes_eq := rfl
  phase_le := Nat.le_refl _
  units_eq := fun _ => rfl
  stays := fun _ => id
  first := nofun
  spent := nofun
  once := List.nodup_nil
  own := nofun

/-- What is its own stays so. -/
theorem Spends.keeps (h : Spends s as t) {a : Action} (ha : s.Own a) : t.Own a := by
  cases a with
  | send q m =>
    cases m with
    | add => exact ⟨h.pes_eq ▸ ha.1, h.rank_eq ▸ ha.2⟩
    | _ => trivial
  | contribute => trivial
  | instantiate u =>
    obtain ⟨hp, hpe, units, hu, hspan⟩ := ha
    refine ⟨Nat.le_trans hp h.phase_le, h.rank_eq ▸ hpe, units, (h.units_eq hp).trans hu, ?_⟩
    rw [h.rank_eq, h.pes_eq]
    exact hspan
  | bounds pe b => exact ⟨h.rank_eq ▸ ha.1, ha.2⟩

theorem Spends.trans (h : Spends s as t) (h' : Spends t bs u) : Spends s (as ++ bs) u where
  rank_eq := h'.rank_eq.trans h.rank_eq
  pes_eq := h'.pes_eq.trans h.pes_eq
  phase_le := Nat.le_trans h.phase_le h'.phase_le
  units_eq := fun hp => (h'.units_eq (Nat.le_trans hp h.phase_le)).trans (h.units_eq hp)
  stays := fun k hk => h'.stays k (h.stays k hk)
  first := by
    rw [List.filterMap_append]
    intro k hk hs
    rcases List.mem_append.1 hk with hk | hk
    · exact h.first k hk hs
    · exact h'.first k hk (h.stays k hs)
  spent := by
    rw [List.filterMap_append]
    intro k hk
    rcases List.mem_append.1 hk with hk | hk
    · exact h'.stays k (h.spent k hk)
    · exact h'.spent k hk
  once := by
    rw [List.filterMap_append]
    refine List.nodup_append.2 ⟨h.once, h'.once, ?_⟩
    -- what comes first is spent when the rest begins
    rintro k hk _ hk' rfl
    exact h'.first k hk' (h.spent k hk)
  own := by
    intro a ha
    rcases List.mem_append.1 ha with ha | ha
    · exact h'.keeps (h.own a ha)
    · exact h'.own a ha

/-! ### One step -/

theorem Spent.mono (hphase : s.phase ≤ t.phase) (hstarted : s.started = true → t.started = true)
    (hdistributed : s.distributed = true → t.distributed = true)
    (hupper : s.upper.isSome → t.upper.isSome) {k : Slot} (h : s.Spent k) : t.Spent k := by
  cases k with
  | contribution k =>
    cases k with
    | load => exact hstarted h
    | distributed => exact hdistributed h
    | _ => exact Nat.le_trans h hphase
  | lower => exact hupper h
  | _ => exact Nat.le_trans h hphase

theorem Move.stays (h : s.Move as t) {k : Slot} (hk : s.Spent k) : t.Spent k := by
  refine hk.mono h.phase_le ?_ ?_ ?_
  · cases h with
    | start => exact fun _ => rfl
    | _ => exact id
  · cases h with
    | distributed => exact fun _ => rfl
    | _ => exact id
  · cases h with
    | settle => exact fun _ => rfl
    | _ => exact id

/-- What a completion leaves alone. -/
theorem Completes.frame {p : Phase} (h : s.Completes p as t) :
    t.rank = s.rank ∧ t.pes = s.pes ∧ t.started = s.started ∧ t.units = s.units ∧
      t.distributed = s.distributed ∧ t.upper = s.upper := by
  cases h <;> exact ⟨rfl, rfl, rfl, rfl, rfl, rfl⟩

theorem Completes.stays (h : s.Completes s.phase as t) {k : Slot} (hk : s.Spent k) : t.Spent k := by
  obtain ⟨-, -, hstarted, -, hdistributed, hupper⟩ := h.frame
  refine hk.mono h.phase_le ?_ ?_ ?_
  · rw [hstarted]
    exact id
  · rw [hdistributed]
    exact id
  · rw [hupper]
    exact id

/-- Things to do once, none of them twice, that are done with this step. -/
def Dealt (s : Standing) (ks : List Slot) (t : Standing) : Prop :=
  ks.Nodup ∧ ∀ k ∈ ks, ¬s.Spent k ∧ t.Spent k

theorem dealt_nil : Dealt s [] t := ⟨List.nodup_nil, nofun⟩

theorem dealt_single {k : Slot} (hs : ¬s.Spent k) (ht : t.Spent k) : Dealt s [k] t := by
  refine ⟨List.nodup_singleton k, fun j hj => ?_⟩
  obtain rfl := List.mem_singleton.1 hj
  exact ⟨hs, ht⟩

/-- The phase says for all of them whether they are done. -/
theorem dealt_of_phase {ks : List Slot} {p : Phase} (hks : ks.Nodup)
    (hp : ∀ k ∈ ks, ∀ r : Standing, r.Spent k ↔ p ≤ r.phase) (hs : s.phase < p)
    (ht : p ≤ t.phase) : Dealt s ks t := by
  refine ⟨hks, fun k hk => ⟨fun h => ?_, (hp k hk t).2 ht⟩⟩
  exact Nat.not_lt_of_le ((hp k hk s).1 h) hs

theorem Move.dealt (h : s.Move as t) : Dealt s (as.filterMap Action.slot?) t := by
  cases h with
  | answers h =>
    rw [List.filterMap_eq_nil_iff.2 h]
    exact dealt_nil
  | start hs h =>
    rcases h with rfl | ⟨n, rfl⟩
    · exact dealt_nil
    · refine dealt_single (fun h => ?_) rfl
      cases hs.symm.trans h
  | partition units hp hout =>
    rename_i out
    have hslots : (out.entries.map fun e => Action.send e.1 (.add e.2)).filterMap Action.slot? =
        out.keys.map .add := by
      rw [List.filterMap_map, IdMap.keys, List.map_map, ← List.filterMap_eq_map]
      rfl
    rw [hslots]
    refine dealt_of_phase (p := .partitioning) ?_ ?_ (hp ▸ by decide) (Nat.le_refl _)
    · exact out.nodup_keys.map fun q r h => Slot.add.inj h
    · intro k hk r
      obtain ⟨q, -, rfl⟩ := List.mem_map.1 hk
      exact Iff.rfl
  | distributed hd =>
    refine dealt_single (fun h => ?_) rfl
    cases hd.symm.trans h
  | flatten hp h =>
    rcases h with rfl | ⟨ids, rfl⟩
    · exact dealt_nil
    · refine dealt_of_phase (p := .flattening) ?_ ?_ (hp ▸ by decide) (Nat.le_refl _)
      · simp [Action.slot?, Contribution.kind]
      · simp [Action.slot?, Contribution.kind, Spent]
  | settle hp hl hu hle h =>
    rcases h with rfl | rfl
    · exact dealt_nil
    · refine dealt_single (fun h => ?_) rfl
      rw [Spent, hu] at h
      cases h
  | deviation x hp =>
    refine dealt_of_phase (p := .done) (List.nodup_singleton _) ?_ (hp ▸ by decide) (Nat.le_refl _)
    simp [Action.slot?, Contribution.kind, Spent]
  | reorder => exact dealt_nil
  | lower => exact dealt_nil
  | work => exact dealt_nil

theorem Sound.nodup_ids (h : s.Sound) : (s.built.map WorkUnit.id).Nodup := by
  by_cases hb : s.built = []
  · rw [hb]
    exact List.nodup_nil
  · obtain ⟨units, -, hids, -⟩ := h.built hb
    rw [hids]
    exact List.nodup_range'

/-- What a rank has to do only once when its work units are there. -/
def creation (s : Standing) : List Slot :=
  s.built.map (fun u => .unit u.id) ++ s.bounds.toList.map (fun _ => .bounds) ++
    [.contribution .cost]

theorem slots_creation (s : Standing) (x : Binary64) :
    (s.built.map Action.instantiate ++ s.bounds.toList.map (Action.bounds s.rank) ++
      [Action.contribute (.cost x)]).filterMap Action.slot? = s.creation := by
  rw [List.filterMap_append, List.filterMap_append, List.filterMap_map, List.filterMap_map,
    creation, ← List.filterMap_eq_map, ← List.filterMap_eq_map]
  rfl

theorem mem_creation {k : Slot} (h : k ∈ s.creation) :
    (∃ u ∈ s.built, k = .unit u.id) ∨ k = .bounds ∨ k = .contribution .cost := by
  rcases List.mem_append.1 h with h | h
  · rcases List.mem_append.1 h with h | h
    · obtain ⟨u, hu, rfl⟩ := List.mem_map.1 h
      exact .inl ⟨u, hu, rfl⟩
    · obtain ⟨b, -, rfl⟩ := List.mem_map.1 h
      exact .inr (.inl rfl)
  · exact .inr (.inr (List.mem_singleton.1 h))

theorem Sound.nodup_creation (h : s.Sound) : s.creation.Nodup := by
  have hunits : (s.built.map fun u => Slot.unit u.id).Nodup := by
    have hmap := h.nodup_ids.map fun i j h => Slot.unit.inj h
    rwa [List.map_map] at hmap
  unfold creation
  cases s.bounds <;> simp [List.nodup_append, hunits]

theorem Completes.dealt (h : s.Completes s.phase as t) (hs : s.Sound) :
    Dealt s (as.filterMap Action.slot?) t := by
  generalize hp : s.phase = p at h
  cases h with
  | centroids => exact dealt_nil
  | ready slice h =>
    refine dealt_of_phase (p := .ready) ?_ ?_ ?_ (Nat.le_refl _)
    · simp [Action.slot?, Contribution.kind]
    · simp [Action.slot?, Contribution.kind, Spent]
    · rw [hp]
      rcases h with rfl | rfl <;> decide
  | unnumbered => exact dealt_nil
  | numbered => exact dealt_nil
  | created x =>
    rw [slots_creation]
    refine dealt_of_phase (p := .creating) hs.nodup_creation ?_ (hp ▸ by decide) (Nat.le_refl _)
    intro k hk r
    rcases mem_creation hk with ⟨u, -, rfl⟩ | rfl | rfl <;> exact Iff.rfl
  | refused => exact dealt_nil

/-! ### What is its own -/

theorem own_of_slot_none {a : Action} (h : a.slot? = none) : s.Own a := by
  match a, h with
  | .send _ .ack, _ => trivial
  | .send _ (.request _), _ => trivial
  | .send _ (.reply _), _ => trivial

theorem Move.own (h : s.Move as t) (hs : s.Sound) : ∀ a ∈ as, t.Own a := by
  cases h with
  | answers h => exact fun a ha => own_of_slot_none (h a ha)
  | start hs h => rcases h with rfl | ⟨n, rfl⟩ <;> simp [Own]
  | partition units hp hout =>
    intro a ha
    obtain ⟨e, he, rfl⟩ := List.mem_map.1 ha
    obtain ⟨hne, unit, hunit⟩ := hout e.1 (List.mem_map.2 ⟨e, he, rfl⟩)
    exact ⟨hunit ▸ Block.owner_lt (Nat.zero_lt_of_lt hs.rank_lt) unit, hne⟩
  | distributed hd => simp [Own]
  | flatten hp h => rcases h with rfl | ⟨ids, rfl⟩ <;> simp [Own]
  | settle hp hl hu hle h => rcases h with rfl | rfl <;> simp [Own]
  | deviation x hp => simp [Own]
  | _ => exact nofun

theorem Completes.own (h : s.Completes s.phase as t) (hs : s.Sound) : ∀ a ∈ as, t.Own a := by
  generalize hp : s.phase = p at h
  cases h with
  | ready slice h => simp [Own]
  | created x =>
    intro a ha
    rcases List.mem_append.1 ha with ha | ha
    · rcases List.mem_append.1 ha with ha | ha
      · obtain ⟨u, hu, rfl⟩ := List.mem_map.1 ha
        obtain ⟨units, hunits, hids, hpe⟩ := hs.built (List.ne_nil_of_mem hu)
        refine ⟨(by decide : Phase.partitioning ≤ .creating), hpe u hu, units, hunits, ?_⟩
        rw [← Span.mem_toList, ← hids]
        exact List.mem_map_of_mem hu
      · obtain ⟨b, hb, rfl⟩ := List.mem_map.1 ha
        exact ⟨rfl, hs.ordered b (Option.mem_toList.1 hb)⟩
    · obtain rfl := List.mem_singleton.1 ha
      trivial
  | _ => exact nofun

/-! ### What holds after any calls -/

theorem Move.frame (h : s.Move as t) : t.rank = s.rank ∧ t.pes = s.pes := by
  cases h <;> exact ⟨rfl, rfl⟩

theorem Move.units_eq (h : s.Move as t) (hp : .partitioning ≤ s.phase) : t.units = s.units := by
  cases h with
  | partition _ hready => exact absurd hp (hready ▸ by decide)
  | _ => rfl

theorem Move.spends (h : s.Move as t) (hs : s.Sound) : Spends s as t where
  rank_eq := h.frame.1
  pes_eq := h.frame.2
  phase_le := h.phase_le
  units_eq := h.units_eq
  stays := fun _ => h.stays
  first := fun k hk => (h.dealt.2 k hk).1
  spent := fun k hk => (h.dealt.2 k hk).2
  once := h.dealt.1
  own := h.own hs

theorem Completes.spends (h : s.Completes s.phase as t) (hs : s.Sound) : Spends s as t where
  rank_eq := h.frame.1
  pes_eq := h.frame.2.1
  phase_le := h.phase_le
  units_eq := fun _ => h.frame.2.2.2.1
  stays := fun _ => h.stays
  first := fun k hk => ((h.dealt hs).2 k hk).1
  spent := fun k hk => ((h.dealt hs).2 k hk).2
  once := (h.dealt hs).1
  own := h.own hs

/-- From the search for the bounds on nothing has to be as it was before. -/
theorem late {P : Prop} (p : Phase) (hp : s.phase = p) (h : ¬p < .bounding) :
    s.phase < .bounding → P := by
  intro hlt
  rw [hp] at hlt
  exact absurd hlt h

theorem Move.sound (h : s.Move as t) (hs : s.Sound) : t.Sound := by
  cases h with
  | partition units hp hout =>
    obtain ⟨hbuilt, hlower⟩ := hs.early (hp ▸ by decide)
    exact ⟨hs.rank_lt, fun _ => ⟨hbuilt, hlower⟩, hs.upper_none, hs.ordered,
      fun hne => absurd hbuilt hne⟩
  | flatten hp =>
    have hearly := hs.early (hp ▸ by decide)
    exact ⟨hs.rank_lt, fun _ => hearly, hs.upper_none, hs.ordered, hs.built⟩
  | reorder hp =>
    have hearly := hs.early (hp ▸ by decide)
    exact ⟨hs.rank_lt, fun _ => hearly, hs.upper_none, hs.ordered, hs.built⟩
  | lower bound hp hl =>
    have hupper := hs.upper_none hl
    refine ⟨hs.rank_lt, late .bounding hp (by decide), nofun, fun b hb => ?_, hs.built⟩
    simp [Standing.bounds, hupper] at hb
  | settle hp hl hu hle =>
    refine ⟨hs.rank_lt, late .bounding hp (by decide), ?_, fun b hb => ?_, hs.built⟩
    · intro hnone
      cases hl.symm.trans hnone
    · simp only [Standing.bounds, hl, Option.some.injEq] at hb
      exact hb ▸ hle
  | deviation x hp =>
    exact ⟨hs.rank_lt, late .done rfl (by decide), hs.upper_none, hs.ordered, hs.built⟩
  | answers => exact hs
  | start => exact ⟨hs.rank_lt, hs.early, hs.upper_none, hs.ordered, hs.built⟩
  | distributed => exact ⟨hs.rank_lt, hs.early, hs.upper_none, hs.ordered, hs.built⟩
  | work => exact ⟨hs.rank_lt, hs.early, hs.upper_none, hs.ordered, hs.built⟩

theorem Completes.sound (h : s.Completes s.phase as t) (hs : s.Sound) : t.Sound := by
  generalize hp : s.phase = p at h
  cases h with
  | centroids =>
    have hearly := hs.early (hp ▸ by decide)
    exact ⟨hs.rank_lt, fun _ => hearly, hs.upper_none, hs.ordered, hs.built⟩
  | ready slice h =>
    have hearly := hs.early (by rw [hp]; rcases h with rfl | rfl <;> decide)
    exact ⟨hs.rank_lt, fun _ => hearly, hs.upper_none, hs.ordered, hs.built⟩
  | unnumbered =>
    exact ⟨hs.rank_lt, late .bounding rfl (by decide), hs.upper_none, hs.ordered, hs.built⟩
  | numbered l hu hids hpe =>
    obtain ⟨-, hlower⟩ := hs.early (hp ▸ by decide)
    have hupper := hs.upper_none hlower
    refine ⟨hs.rank_lt, late .bounding rfl (by decide), fun _ => hupper, fun b hb => ?_,
      fun _ => ⟨_, hu, hids, hpe⟩⟩
    simp [Standing.bounds, hupper] at hb
  | created x =>
    exact ⟨hs.rank_lt, late .creating rfl (by decide), hs.upper_none, hs.ordered,
      fun h => absurd rfl h⟩
  | refused => exact hs

/-- The completions that wait do not count. -/
theorem Sound.idle (h : s.Sound) : Sound { s with completions := [] } :=
  ⟨h.rank_lt, h.early, h.upper_none, h.ordered, h.built⟩

theorem spends_idle : Spends s [] { s with completions := [] } :=
  ⟨rfl, rfl, Nat.le_refl _, fun _ => rfl, fun _ h => h, nofun, nofun, List.nodup_nil, nofun⟩

/-- What a chain of moves does. -/
theorem Moves.spends (h : Moves s as t) (hs : s.Sound) : Spends s as t ∧ t.Sound := by
  induction h with
  | refl s => exact ⟨.refl s, hs⟩
  | move _ hm _ ih =>
    obtain ⟨hspends, hsound⟩ := ih (hm.sound hs)
    exact ⟨(hm.spends hs).trans hspends, hsound⟩
  | complete _ hp _ ih =>
    have hidle := hs.idle
    obtain ⟨hspends, hsound⟩ := ih (hp.sound hidle)
    exact ⟨(spends_idle.trans (hp.spends hidle)).trans hspends, hsound⟩

theorem sound_fresh {rank pes : Nat} (h : rank < pes) : (fresh rank pes).Sound where
  rank_lt := h
  early := fun _ => ⟨rfl, rfl⟩
  upper_none := fun _ => rfl
  ordered := nofun
  built := fun h => absurd rfl h

end Standing

theorem emitted_append (w : Worker) (calls later : List Call) :
    w.emitted (calls ++ later) = w.emitted calls ++ (w.after calls).emitted later := by
  induction calls generalizing w with
  | nil => rfl
  | cons c calls ih =>
    have hlater := ih (w.answer c).state
    simp only [List.cons_append, emitted, hlater, List.append_assoc]
    rfl

theorem countP_slot_le {as : List Action} (h : (as.filterMap Action.slot?).Nodup) (k : Slot) :
    as.countP (·.slot? = some k) ≤ 1 := by
  have hcount := List.nodup_iff_count_le_one.1 h k
  rw [List.count, List.countP_filterMap] at hcount
  refine Nat.le_trans (Nat.le_of_eq (List.countP_congr fun a _ => ?_)) hcount
  cases a.slot? <;> simp

/-- Over all sequences of `start`, commands and messages from peers on a new processing element,
those that fail included: what has to be done only once is done at most once, a work unit is
instantiated only by its owner, nothing is exported to the processing element itself, and the bounds
that it hands out are in order. -/
theorem outputs_once {rank pes : Nat} {reader : Reader} {settings : Settings} {w₀ : Worker}
    (h : create rank pes reader settings = .ok w₀) (p : Partitioner) {calls : List Call}
    (hcalls : ∀ c ∈ calls, c.FromOutside) :
    (∀ k, ((w₀.prepareFor p).emitted calls).countP (·.slot? = some k) ≤ 1) ∧
    (∀ u, .instantiate u ∈ (w₀.prepareFor p).emitted calls →
      u.pe = rank ∧ ∃ units, ((w₀.prepareFor p).after calls).units = some units ∧
        u.id < units ∧ Block.owner units pes u.id = rank) ∧
    (∀ q units, .send q (.add units) ∈ (w₀.prepareFor p).emitted calls → q < pes ∧ q ≠ rank) ∧
    (∀ pe b, .bounds pe b ∈ (w₀.prepareFor p).emitted calls → pe = rank ∧ b.first ≤ b.stop) ∧
    ∀ b, ((w₀.prepareFor p).after calls).bounds = some b → b.first ≤ b.stop := by
  obtain ⟨hlt, hfresh⟩ := standing_of_create h p
  have hi : (w₀.prepareFor p).completions = [] := congrArg Standing.completions hfresh
  have hreading : (w₀.prepareFor p).standing.StartsReading := hfresh ▸ startsReading_fresh rank pes
  obtain ⟨as, hm, hsub⟩ := moves_after hi hreading hcalls
  rw [hfresh] at hm
  obtain ⟨hspends, hsound⟩ := hm.spends (sound_fresh hlt)
  have hrank : ((w₀.prepareFor p).after calls).standing.rank = rank := hspends.rank_eq
  have hpes : ((w₀.prepareFor p).after calls).standing.pes = pes := hspends.pes_eq
  have hown : ∀ a ∈ (w₀.prepareFor p).emitted calls, _ := fun a ha => hspends.own a (hsub.subset ha)
  refine ⟨fun k => ?_, fun u hu => ?_, fun q units ha => ?_, fun pe b hb => ?_, hsound.ordered⟩
  · exact (hsub.countP_le).trans (countP_slot_le hspends.once k)
  · obtain ⟨-, hpe, units, hunits, hspan⟩ := hown _ hu
    rw [hrank, hpes] at hspan
    have hlt' : u.id < units := Nat.lt_of_lt_of_le hspan.2 (Block.stop_span_le hlt)
    exact ⟨hpe.trans hrank, units, hunits, hlt', (Block.owner_eq_iff hlt hlt').2 hspan⟩
  · obtain ⟨hq, hne⟩ := hown _ ha
    exact ⟨hpes ▸ hq, hrank ▸ hne⟩
  · obtain ⟨hpe, hle⟩ := hown _ hb
    exact ⟨hpe.trans hrank, hle⟩

/-- The first of two ranks gets everything twice. It exports its element, takes that of the other
rank, tells its upper bound and hands out its unit and its bounds, and does none of it again. -/
theorem outputs_of_first :
    create 0 2 pairMesh.reader pairSettings = .ok first ∧
      first.emitted (firstCalls ++ firstCalls) = first.emitted firstCalls ∧
      [.send 1 (.add (.ofList [(1, [10, 11, 12, 13])])), .send 1 (.lower 3), .instantiate firstUnit,
        .bounds 0 ⟨0, 3⟩] ⊆ first.emitted (firstCalls ++ firstCalls) ∧
      (∀ k, (first.emitted (firstCalls ++ firstCalls)).countP (·.slot? = some k) ≤ 1) ∧
      ∃ units, (first.after (firstCalls ++ firstCalls)).units = some units ∧
        firstUnit.id < units ∧ Block.owner units 2 firstUnit.id = 0 := by
  have hcreate : create 0 2 pairMesh.reader pairSettings = .ok first := rfl
  have hcalls : ∀ c ∈ firstCalls ++ firstCalls, c.FromOutside := fun c hc =>
    firstCalls_fromOutside c ((List.mem_append.1 hc).elim id id)
  obtain ⟨honce, hown, -⟩ := outputs_once hcreate Algorithm.elementOrder.partitioner hcalls
  have hagain : firstCreated.emitted firstCalls = [] := rfl
  have htwice : first.emitted (firstCalls ++ firstCalls) = first.emitted firstCalls := by
    rw [emitted_append, after_firstCalls, hagain, List.append_nil]
  have hsub : [.send 1 (.add (.ofList [(1, [10, 11, 12, 13])])), .send 1 (.lower 3),
      .instantiate firstUnit, .bounds 0 ⟨0, 3⟩] ⊆ first.emitted (firstCalls ++ firstCalls) := by
    rw [htwice, emitted_firstCalls]
    simp
  obtain ⟨-, hunit⟩ := hown firstUnit (hsub (by simp))
  exact ⟨hcreate, htwice, hsub, honce, hunit⟩

end Worker
end MeshDecomp
