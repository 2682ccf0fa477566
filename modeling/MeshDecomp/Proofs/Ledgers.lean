import MeshDecomp.Proofs.Plans

/-!
All ranks of a run between two turns: which letters arrived, what waits at every rank, and what the
ranks returned. A sound ledger stays sound when a rank goes on, and when a rank fails.
-/

namespace MeshDecomp

/-- What waits in a mailbox: a letter, or the failure of a rank. -/
inductive Note where
  | letter (m : Letter)
  | abort (pe : Nat) (e : RunError)

def Note.letter? : Note → Option Letter
  | letter m => some m
  | abort _ _ => none

/-- How far a rank has come. -/
inductive Stage where
  | fresh
  | live
  | returned (r : Returned)

/-- Stages in their order. -/
def Stage.place : Stage → Nat
  | fresh => 0
  | live => 1
  | returned _ => 2

structure Ledger where
  arrived : List Letter := []
  /-- What waits in the queue of a rank to itself. -/
  own : Nat → List Letter := fun _ => []
  /-- What waits in the mailbox of a rank. -/
  box : Nat → List Note := fun _ => []
  stage : Nat → Stage := fun _ => .fresh

namespace Ledger

/-- The letters that wait at a rank. -/
def letters (L : Ledger) (pe : Nat) : List Letter := L.own pe ++ (L.box pe).filterMap Note.letter?

/-- The rank has not returned. -/
def Alive (L : Ledger) (pe : Nat) : Prop := ∀ r, L.stage pe ≠ .returned r

/-- The rank failed by itself, and not because another one did. -/
def Failed (L : Ledger) (pe : Nat) (e : RunError) : Prop :=
  (∃ c, L.stage pe = .returned ⟨.error (.error e), c⟩) ∧
    ∀ q user reason, e ≠ .aborted q user reason

/-- A rank takes a turn: it leaves some things waiting at itself and sends others. -/
def next (L : Ledger) (pe : Nat) (H own : List Letter) (box : List Note) (sent : Nat → List Note)
    (s : Stage) : Ledger where
  arrived := H
  own := fun q => if q = pe then own else L.own q
  box := fun q => if q = pe then box else L.box q ++ sent q
  stage := fun q => if q = pe then s else L.stage q

variable {L : Ledger} {pe q : Nat} {H own : List Letter} {box : List Note} {sent : Nat → List Note}
  {s : Stage}

theorem alive_of_live (h : L.stage pe = .live) : L.Alive pe := fun r hr => by
  rw [h] at hr
  cases hr

theorem alive_of_fresh (h : L.stage pe = .fresh) : L.Alive pe := fun r hr => by
  rw [h] at hr
  cases hr

theorem stage_next_self : (L.next pe H own box sent s).stage pe = s := if_pos rfl

theorem stage_next_of_ne (h : q ≠ pe) : (L.next pe H own box sent s).stage q = L.stage q :=
  if_neg h

theorem alive_next_of_ne (h : q ≠ pe) : (L.next pe H own box sent s).Alive q ↔ L.Alive q := by
  unfold Alive
  rw [stage_next_of_ne h]

theorem Failed.next {e : RunError} (h : L.Failed q e) (ha : L.Alive pe) :
    (L.next pe H own box sent s).Failed q e := by
  obtain ⟨⟨c, hc⟩, hg⟩ := h
  have hq : q ≠ pe := by
    rintro rfl
    exact ha _ hc
  exact ⟨⟨c, (stage_next_of_ne hq).trans hc⟩, hg⟩

/-- Nobody is told of a failure by letters. -/
theorem letters_next_of_ne (h : q ≠ pe) :
    (L.next pe H own box sent s).letters q =
      L.letters q ++ (sent q).filterMap Note.letter? := by
  simp only [letters, next, if_neg h, List.filterMap_append, List.append_assoc]

theorem letters_next_self :
    (L.next pe H own box sent s).letters pe = own ++ box.filterMap Note.letter? := by
  simp only [letters, next, ↓reduceIte]

end Ledger

namespace Plan

variable {job : Job} {S : Scenario} (P : Plan job S)

/-- The rank started, and told the host of its elements. -/
def Begun (L : Ledger) (pe : Nat) : Prop := L.stage pe ≠ .fresh ∧ P.fault pe = none

/-- What was sent so far: the first letters of a rank once it started, the others upon letters. -/
def Posted (L : Ledger) (m : Letter) : Prop :=
  S.Sent L.arrived m ∧ ∀ pe, m ∈ Scenario.firstLetters pe → P.Begun L pe

/-- What a rank can have returned. -/
inductive Returns (L : Ledger) (pe : Nat) : Returned → Prop where
  | finished : Done S L.arrived pe →
      Returns L pe ⟨.ok (if pe = Rank.hostRank then some S.report else none), S.handOut {} pe⟩
  | fault {e : RunError} {c : Collector} : P.fault pe = some e → Returns L pe ⟨.error (.error e), c⟩
  | letter {m : Letter} {e : RunError} {c : Collector} : m.addressee = pe → S.Sent L.arrived m →
      m ∉ L.arrived → P.Fails L.arrived m e → Returns L pe ⟨.error (.error e), c⟩
  | aborted {q : Nat} {e : RunError} {c : Collector} : q < S.pes → L.Failed q e →
      Returns L pe ⟨.error (.error (.aborted q e.isUser e.message)), c⟩

/-- What can be said of all ranks between two turns. -/
structure Sound (L : Ledger) : Prop where
  history : S.History L.arrived
  begun : ∀ m ∈ L.arrived, ∀ pe, m ∈ Scenario.firstLetters pe → P.Begun L pe
  received : ∀ m ∈ L.arrived, L.stage m.addressee ≠ .fresh
  own_fresh : ∀ pe, L.stage pe = .fresh → L.own pe = []
  nodup : ∀ pe < S.pes, L.Alive pe → (L.letters pe).Nodup
  mem_letters : ∀ pe < S.pes, L.Alive pe → ∀ m,
    m ∈ L.letters pe ↔ m.addressee = pe ∧ P.Posted L m ∧ m ∉ L.arrived
  live : ∀ pe, L.stage pe = .live → P.fault pe = none ∧ ¬ Done S L.arrived pe
  returned : ∀ pe r, L.stage pe = .returned r → P.Returns L pe r
  told : ∀ pe < S.pes, ∀ e, L.Failed pe e → ∀ q < S.pes, L.Alive q → .abort pe e ∈ L.box q
  failed : ∀ q < S.pes, ∀ pe e, .abort pe e ∈ L.box q → pe < S.pes ∧ L.Failed pe e

variable {P} {L : Ledger} {pe q : Nat} {H own out : List Letter} {box : List Note}
  {sent : Nat → List Note} {s : Stage} {m c : Letter} {e : RunError}

theorem Begun.next (h : P.Begun L q) (hs : s ≠ .fresh) :
    P.Begun (L.next pe H own box sent s) q := by
  refine ⟨?_, h.2⟩
  by_cases hq : q = pe
  · subst hq
    rw [Ledger.stage_next_self]
    exact hs
  · rw [Ledger.stage_next_of_ne hq]
    exact h.1

theorem Done.mono (h : Done S H q) {H' : List Letter} (hs : H ⊆ H') : Done S H' q :=
  ⟨hs h.1, fun hz pe hpe => hs (h.2 hz pe hpe)⟩

/-- Letters to one rank do not end the work of another. -/
theorem done_of_done {H' : List Letter} (h : Done S H' q)
    (hnew : ∀ m ∈ H', m ∉ H → m.addressee ≠ q) : Done S H q := by
  constructor
  · by_contra hn
    exact hnew _ h.1 hn rfl
  · intro hz pe hpe
    by_contra hn
    exact hnew _ (h.2 hz pe hpe) hn hz.symm

theorem Fails.mono {H' : List Letter} (h : P.Fails H m e) (hs : H ⊆ H') : P.Fails H' m e := by
  cases h with
  | refusal hg hr =>
    refine .refusal (fun c hc => ?_) hr
    exact List.mem_append.2 ((List.mem_append.1 (hg c hc)).imp_left fun hc => hs hc)
  | letter hr hf =>
    refine .letter hr ?_
    cases hf with
    | answer hg he => cases hr
    | unit hu => exact .unit hu
    | vacant hu => exact .vacant hu

/-- What a rank returned stays right when another one takes a turn. -/
theorem Returns.next {r : Returned} (h : P.Returns L q r) (ha : L.Alive pe)
    (hsub : L.arrived ⊆ H) (hnew : ∀ m ∈ H, m ∉ L.arrived → m.addressee ≠ q) :
    P.Returns (L.next pe H own box sent s) q r := by
  cases h with
  | finished hd => exact .finished (hd.mono hsub)
  | fault hf => exact .fault hf
  | letter hm hs hn hf =>
    exact .letter hm (hs.mono hsub) (fun hH => hnew _ hH hn hm) (hf.mono hsub)
  | aborted hq hf => exact .aborted hq (hf.next ha)

theorem not_begun_of_fresh (h : L.stage pe = .fresh) : ¬ P.Begun L pe := fun hb => hb.1 h

theorem mem_firstLetters_iff : m ∈ Scenario.firstLetters pe ↔
    m = .contribution .load pe ∨ m = .contribution .setup pe ∨ m = .contribution .elements pe := by
  simp [Scenario.firstLetters]

theorem eq_of_mem_firstLetters (h : m ∈ Scenario.firstLetters pe)
    (h' : m ∈ Scenario.firstLetters q) : pe = q := by
  rcases mem_firstLetters_iff.1 h with rfl | rfl | rfl <;>
    rcases mem_firstLetters_iff.1 h' with h' | h' | h' <;> cases h' <;> rfl

/-- Nothing that is sent upon a letter is a first letter. -/
theorem not_mem_firstLetters (h : m ∈ S.causes c) (pe : Nat) : c ∉ Scenario.firstLetters pe := by
  intro hc
  rcases mem_firstLetters_iff.1 hc with rfl | rfl | rfl <;> cases h

theorem filterMap_letters (out : List Letter) :
    (out.map Note.letter).filterMap Note.letter? = out := by
  rw [List.filterMap_map]
  exact List.filterMap_some

namespace Sound

theorem posted_of_arrived (h : P.Sound L) (hm : m ∈ L.arrived) : P.Posted L m :=
  ⟨h.history.sent m hm, h.begun m hm⟩

/-- The host has something of every rank only when all of them have started. -/
theorem begun_of_gathered_concat (h : P.Sound L) (hm : P.Posted L m)
    (hg : S.Gathered .partition (L.arrived ++ [m])) (hq : q < S.pes) : P.Begun L q := by
  have hfirst : Letter.contribution .load q ∈ Scenario.firstLetters q := List.mem_cons_self
  rcases List.mem_append.1 (Scenario.gathered_iff.1 hg .load (by decide) q hq) with hc | hc
  · exact h.begun _ hc q hfirst
  · exact hm.2 q (List.mem_singleton.1 hc ▸ hfirst)

end Sound

/-- A turn of a rank, but for the letters that wait after it. -/
structure Takes (P : Plan job S) (L : Ledger) (pe : Nat) (H own : List Letter) (box : List Note)
    (sent : Nat → List Note) (s : Stage) : Prop where
  lt : pe < S.pes
  alive : L.Alive pe
  history : S.History H
  subset : L.arrived ⊆ H
  arrives : ∀ m ∈ H, m ∉ L.arrived → m.addressee = pe ∧ P.Posted L m
  started : s ≠ .fresh
  live : s = .live → P.fault pe = none ∧ ¬ Done S H pe
  returns : ∀ r, s = .returned r → P.Returns (L.next pe H own box sent s) pe r
  heard : ∀ p e, .abort p e ∈ box → .abort p e ∈ L.box pe
  unheard : s = .live → ∀ p e, .abort p e ∈ L.box pe → .abort p e ∈ box
  tells : ∀ q p e, .abort p e ∈ sent q → p = pe ∧ (L.next pe H own box sent s).Failed pe e
  told : ∀ e, (L.next pe H own box sent s).Failed pe e → ∀ q, .abort pe e ∈ sent q

namespace Takes

variable (t : P.Takes L pe H own box sent s) (h : P.Sound L)

include t h

theorem posted (hm : m ∈ H) : P.Posted L m := by
  by_cases hn : m ∈ L.arrived
  · exact h.posted_of_arrived hn
  · exact (t.arrives m hm hn).2

theorem begun (hm : m ∈ H) (hq : m ∈ Scenario.firstLetters q) :
    P.Begun (L.next pe H own box sent s) q :=
  ((t.posted h hm).2 q hq).next t.started

theorem received (hm : m ∈ H) : (L.next pe H own box sent s).stage m.addressee ≠ .fresh := by
  by_cases hp : m.addressee = pe
  · rw [hp, Ledger.stage_next_self]
    exact t.started
  · rw [Ledger.stage_next_of_ne hp]
    refine h.received m ?_
    by_contra hn
    exact hp (t.arrives m hm hn).1

theorem own_fresh (hq : (L.next pe H own box sent s).stage q = .fresh) :
    (L.next pe H own box sent s).own q = [] := by
  by_cases hp : q = pe
  · rw [hp, Ledger.stage_next_self] at hq
    exact absurd hq t.started
  · rw [Ledger.stage_next_of_ne hp] at hq
    exact (if_neg hp).trans (h.own_fresh q hq)

theorem live_next (hq : (L.next pe H own box sent s).stage q = .live) :
    P.fault q = none ∧ ¬ Done S H q := by
  by_cases hp : q = pe
  · subst hp
    exact t.live (Ledger.stage_next_self.symm.trans hq)
  · rw [Ledger.stage_next_of_ne hp] at hq
    refine ⟨(h.live q hq).1, fun hd => (h.live q hq).2 (done_of_done hd fun m hm hn hmq => ?_)⟩
    exact hp (hmq.symm.trans (t.arrives m hm hn).1)

theorem returned {r : Returned} (hq : (L.next pe H own box sent s).stage q = .returned r) :
    P.Returns (L.next pe H own box sent s) q r := by
  by_cases hp : q = pe
  · subst hp
    exact t.returns r (Ledger.stage_next_self.symm.trans hq)
  · rw [Ledger.stage_next_of_ne hp] at hq
    refine (h.returned q r hq).next t.alive t.subset fun m hm hn hmq => hp ?_
    exact hmq.symm.trans (t.arrives m hm hn).1

/-- Whoever is left hears of every failure. -/
theorem told_next {p : Nat} (hp : p < S.pes) (hf : (L.next pe H own box sent s).Failed p e)
    (hq : q < S.pes) (ha : (L.next pe H own box sent s).Alive q) :
    .abort p e ∈ (L.next pe H own box sent s).box q := by
  show _ ∈ if q = pe then box else L.box q ++ sent q
  by_cases hpp : p = pe
  · subst hpp
    have hqp : q ≠ p := by
      rintro rfl
      obtain ⟨⟨c, hc⟩, -⟩ := hf
      exact ha _ hc
    rw [if_neg hqp]
    exact List.mem_append_right _ (t.told e hf q)
  · have hold : L.Failed p e := by
      unfold Ledger.Failed at hf
      rwa [Ledger.stage_next_of_ne hpp] at hf
    by_cases hqp : q = pe
    · subst hqp
      rw [if_pos rfl]
      refine t.unheard ?_ p e (h.told p hp e hold q hq t.alive)
      cases hs : s with
      | fresh => exact absurd hs t.started
      | live => rfl
      | returned r => exact absurd (Ledger.stage_next_self.trans hs) (ha r)
    · rw [if_neg hqp]
      exact List.mem_append_left _ (h.told p hp e hold q hq ((Ledger.alive_next_of_ne hqp).1 ha))

theorem failed {p : Nat} (hq : q < S.pes)
    (hmem : .abort p e ∈ (L.next pe H own box sent s).box q) :
    p < S.pes ∧ (L.next pe H own box sent s).Failed p e := by
  change _ ∈ if q = pe then box else L.box q ++ sent q at hmem
  have hcases : .abort p e ∈ L.box q ∨ .abort p e ∈ sent q := by
    by_cases hqp : q = pe
    · rw [if_pos hqp] at hmem
      exact .inl (hqp ▸ t.heard p e hmem)
    · rw [if_neg hqp] at hmem
      exact List.mem_append.1 hmem
  rcases hcases with hbox | hsent
  · obtain ⟨hp, hf⟩ := h.failed q hq p e hbox
    exact ⟨hp, hf.next t.alive⟩
  · obtain ⟨rfl, hf⟩ := t.tells q p e hsent
    exact ⟨t.lt, hf⟩

/-- A turn leads to a sound ledger if it leaves the right letters. -/
theorem sound
    (hnd : ∀ q < S.pes, (L.next pe H own box sent s).Alive q →
      ((L.next pe H own box sent s).letters q).Nodup)
    (hmem : ∀ q < S.pes, (L.next pe H own box sent s).Alive q → ∀ m,
      m ∈ (L.next pe H own box sent s).letters q ↔
        m.addressee = q ∧ P.Posted (L.next pe H own box sent s) m ∧ m ∉ H) :
    P.Sound (L.next pe H own box sent s) where
  history := t.history
  begun := fun _ hm _ hq => t.begun h hm hq
  received := fun _ hm => t.received h hm
  own_fresh := fun _ hq => t.own_fresh h hq
  nodup := hnd
  mem_letters := hmem
  live := fun _ hq => t.live_next h hq
  returned := fun _ _ hq => t.returned h hq
  told := fun _ hp _ hf _ hq ha => t.told_next h hp hf hq ha
  failed := fun _ hq _ _ hmem => t.failed h hq hmem

/-- What waits at a rank is what it did not take yet, and what is sent to it now. -/
theorem exists_rest {left out : List Letter} (hown : own = left ++ out.filter (·.addressee = pe))
    (hsent : sent = fun q => (out.filter (·.addressee = q)).map .letter)
    (hleft : (left ++ box.filterMap Note.letter?).Nodup ∧
      ∀ c, c ∈ left ++ box.filterMap Note.letter? ↔ c.addressee = pe ∧ P.Posted L c ∧ c ∉ H)
    (hq : q < S.pes) (ha : (L.next pe H own box sent s).Alive q) : ∃ rest : List Letter,
      ((L.next pe H own box sent s).letters q).Perm (rest ++ out.filter (·.addressee = q)) ∧
        rest.Nodup ∧ ∀ c, c ∈ rest ↔ c.addressee = q ∧ P.Posted L c ∧ c ∉ H := by
  by_cases hqp : q = pe
  · subst hqp
    refine ⟨_, ?_, hleft⟩
    rw [Ledger.letters_next_self, hown, List.append_assoc, List.append_assoc]
    exact List.perm_append_comm.append_left left
  · rw [Ledger.alive_next_of_ne hqp] at ha
    refine ⟨L.letters q, ?_, h.nodup q hq ha, fun c => ?_⟩
    · rw [Ledger.letters_next_of_ne hqp, hsent, filterMap_letters]
    · rw [h.mem_letters q hq ha]
      constructor
      · rintro ⟨hc, hp, hn⟩
        exact ⟨hc, hp, fun hH => hqp (hc.symm.trans (t.arrives c hH hn).1)⟩
      · rintro ⟨hc, hp, hn⟩
        exact ⟨hc, hp, fun hH => hn (t.subset hH)⟩

end Takes

theorem begun_next_iff (hs : s ≠ .fresh) (hf : P.fault pe = none) :
    P.Begun (L.next pe H own box sent s) q ↔ q = pe ∨ P.Begun L q := by
  by_cases hq : q = pe
  · subst hq
    simp only [true_or, iff_true]
    exact ⟨by rw [Ledger.stage_next_self]; exact hs, hf⟩
  · simp only [hq, false_or, Begun, Ledger.stage_next_of_ne hq]

namespace Sound

section

variable (hpe : pe < S.pes) (ha : L.Alive pe) (hf : P.fault pe = none)
  (hH : H = L.arrived ∨ ∃ m, H = L.arrived ++ [m] ∧ m.addressee = pe ∧ P.Posted L m)
  (hhist : S.History H) (hbox : ∀ p e, .abort p e ∈ box ↔ .abort p e ∈ L.box pe)
  (hs : s = .live ∧ ¬ Done S H pe ∨ s = .returned
    ⟨.ok (if pe = Rank.hostRank then some S.report else none), S.handOut {} pe⟩ ∧ Done S H pe)

include hpe ha hf hH hhist hbox hs

theorem takes_advance (hsent : ∀ q p e, .abort p e ∉ sent q) : P.Takes L pe H own box sent s where
  lt := hpe
  alive := ha
  history := hhist
  subset := by
    rcases hH with rfl | ⟨m, rfl, -⟩
    · exact List.Subset.refl _
    · exact List.subset_append_left _ _
  arrives := by
    intro m hm hn
    rcases hH with rfl | ⟨m', rfl, hma, hp⟩
    · exact absurd hm hn
    · obtain rfl := List.mem_singleton.1 ((List.mem_append.1 hm).resolve_left hn)
      exact ⟨hma, hp⟩
  started := by
    rintro rfl
    rcases hs with ⟨hs, -⟩ | ⟨hs, -⟩ <;> cases hs
  live := by
    rintro rfl
    rcases hs with ⟨-, hd⟩ | ⟨hs, -⟩
    · exact ⟨hf, hd⟩
    · cases hs
  returns := by
    rintro r rfl
    rcases hs with ⟨hs, -⟩ | ⟨hs, hd⟩
    · cases hs
    · cases hs
      exact .finished hd
  heard := fun p e => (hbox p e).1
  unheard := fun _ p e => (hbox p e).2
  tells := fun q p e hmem => absurd hmem (hsent q p e)
  told := by
    rintro e ⟨⟨c, hc⟩, -⟩
    rw [Ledger.stage_next_self] at hc
    rcases hs with ⟨rfl, -⟩ | ⟨rfl, -⟩ <;> cases hc

/-- A rank goes on: it starts, or a letter arrives at it. -/
theorem advance {left : List Letter} (h : P.Sound L) (hnd : out.Nodup)
    (hleft : (left ++ box.filterMap Note.letter?).Nodup ∧
      ∀ c, c ∈ left ++ box.filterMap Note.letter? ↔ c.addressee = pe ∧ P.Posted L c ∧ c ∉ H)
    (hdisj : ∀ c ∈ out, ¬ (P.Posted L c ∧ c ∉ H))
    (hnew : ∀ c, c ∈ out ∨ P.Posted L c ∧ c ∉ H ↔
      (S.Sent H c ∧ ∀ p, c ∈ Scenario.firstLetters p → p = pe ∨ P.Begun L p) ∧ c ∉ H) :
    P.Sound (L.next pe H (left ++ out.filter (·.addressee = pe)) box
      (fun q => (out.filter (·.addressee = q)).map .letter) s) := by
  generalize hown : left ++ out.filter (·.addressee = pe) = own
  generalize hsent : (fun q => (out.filter (·.addressee = q)).map Note.letter) = sent
  have t : P.Takes L pe H own box sent s := by
    refine takes_advance hpe ha hf hH hhist hbox hs fun q p e hmem => ?_
    rw [← hsent] at hmem
    obtain ⟨c, -, hc⟩ := List.mem_map.1 hmem
    cases hc
  have hposted : ∀ c, c ∈ out ∨ P.Posted L c ∧ c ∉ H ↔
      P.Posted (L.next pe H own box sent s) c ∧ c ∉ H := by
    intro c
    rw [hnew c]
    simp only [Posted, begun_next_iff t.started hf]
    rfl
  refine t.sound h (fun q hq halive => ?_) fun q hq halive c => ?_
  · obtain ⟨rest, hperm, hndr, hmem⟩ := t.exists_rest h hown.symm hsent.symm hleft hq halive
    refine hperm.nodup_iff.2 (List.nodup_append.2 ⟨hndr, hnd.filter _, ?_⟩)
    rintro c hc _ hc' rfl
    exact hdisj c (List.mem_of_mem_filter hc') ((hmem c).1 hc).2
  · obtain ⟨rest, hperm, -, hmem⟩ := t.exists_rest h hown.symm hsent.symm hleft hq halive
    rw [hperm.mem_iff, List.mem_append, hmem, List.mem_filter, decide_eq_true_eq, ← hposted c]
    tauto

end

section

variable {c : Collector} {told : List Note} (h : P.Sound L) (hpe : pe < S.pes) (ha : L.Alive pe)
  (hbox : ∀ p e, .abort p e ∈ box → .abort p e ∈ L.box pe)
  (hr : P.Returns L pe ⟨.error (.error e), c⟩)
  (ht : (∀ q user reason, e ≠ .aborted q user reason) ∧ told = [.abort pe e] ∨
    (∃ q user reason, e = .aborted q user reason) ∧ told = [])

include h hpe ha hbox hr ht

theorem takes_fail : P.Takes L pe L.arrived own box (fun _ => told)
    (.returned ⟨.error (.error e), c⟩) where
  lt := hpe
  alive := ha
  history := h.history
  subset := List.Subset.refl _
  arrives := fun m hm hn => absurd hm hn
  started := nofun
  live := nofun
  returns := by
    rintro r ⟨⟩
    exact hr.next ha (List.Subset.refl _) fun m hm hn => absurd hm hn
  heard := hbox
  unheard := nofun
  tells := by
    intro q p e' hmem
    rcases ht with ⟨hg, rfl⟩ | ⟨-, rfl⟩
    · cases List.mem_singleton.1 hmem
      exact ⟨rfl, ⟨c, Ledger.stage_next_self⟩, hg⟩
    · cases hmem
  told := by
    rintro e' ⟨⟨c', hc⟩, hg⟩ q
    rw [Ledger.stage_next_self] at hc
    cases hc
    rcases ht with ⟨-, rfl⟩ | ⟨⟨p, user, reason, he⟩, -⟩
    · exact List.mem_singleton.2 rfl
    · exact absurd he (hg p user reason)

/-- A rank fails. Everyone is told, unless this is the failure of another one. -/
theorem fail (own : List Letter) (hf : L.stage pe = .fresh → P.fault pe ≠ none) :
    P.Sound (L.next pe L.arrived own box (fun _ => told) (.returned ⟨.error (.error e), c⟩)) := by
  have t : P.Takes L pe L.arrived own box (fun _ => told) (.returned ⟨.error (.error e), c⟩) :=
    h.takes_fail hpe ha hbox hr ht
  have hbegun : ∀ p, P.Begun (L.next pe L.arrived own box (fun _ => told)
      (.returned ⟨.error (.error e), c⟩)) p ↔ P.Begun L p := by
    intro p
    refine ⟨fun hb => ⟨fun hfresh => ?_, hb.2⟩, fun hb => hb.next t.started⟩
    by_cases hp : p = pe
    · subst hp
      exact hf hfresh hb.2
    · exact hb.1 ((Ledger.stage_next_of_ne hp).trans hfresh)
  -- Nobody who is left gets a letter.
  have hletters : ∀ q, (L.next pe L.arrived own box (fun _ => told)
      (.returned ⟨.error (.error e), c⟩)).Alive q → L.Alive q ∧
        (L.next pe L.arrived own box (fun _ => told)
          (.returned ⟨.error (.error e), c⟩)).letters q = L.letters q := by
    intro q halive
    have hq : q ≠ pe := by
      rintro rfl
      exact halive _ Ledger.stage_next_self
    have htold : told.filterMap Note.letter? = [] := by
      rcases ht with ⟨-, rfl⟩ | ⟨-, rfl⟩ <;> rfl
    refine ⟨(Ledger.alive_next_of_ne hq).1 halive, ?_⟩
    rw [Ledger.letters_next_of_ne hq, htold, List.append_nil]
  refine t.sound h (fun q hq halive => ?_) fun q hq halive m => ?_
  · obtain ⟨hold, heq⟩ := hletters q halive
    rw [heq]
    exact h.nodup q hq hold
  · obtain ⟨hold, heq⟩ := hletters q halive
    rw [heq, h.mem_letters q hq hold]
    simp only [Posted, hbegun]
    rfl

end

end Sound
end Plan
end MeshDecomp
