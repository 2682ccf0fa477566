import MeshDecomp.Proofs.Acceptance
import MeshDecomp.Proofs.Reception

/-!
The barriers of a host that is called at will. Whatever comes, from whom and how often, the host
passes a barrier at the call that brings the last of what it waits for there, and never again.
-/

namespace MeshDecomp

open Scenario (barrier? mem_kinds)

namespace Host

variable {h start : Host} {pe q pes : Nat} {c : Contribution} {k : Contribution.Kind}
  {goal : Option Barrier} {calls early late : List (Nat × Contribution)}

/-! ### What calls bring -/

/-- Some of the calls brings a contribution of this kind from this rank. -/
def Brings (calls : List (Nat × Contribution)) (k : Contribution.Kind) (q : Nat) : Prop :=
  ∃ c, (q, c) ∈ calls ∧ c.kind = k

theorem brings_concat :
    Brings (calls ++ [(pe, c)]) k q ↔ k = c.kind ∧ q = pe ∨ Brings calls k q := by
  constructor
  · rintro ⟨c', hmem, rfl⟩
    rcases List.mem_append.1 hmem with hmem | hmem
    · exact .inr ⟨c', hmem, rfl⟩
    · cases List.mem_singleton.1 hmem
      exact .inl ⟨rfl, rfl⟩
  · rintro (⟨rfl, rfl⟩ | ⟨c', hmem, rfl⟩)
    · exact ⟨c, List.mem_append_right _ List.mem_cons_self, rfl⟩
    · exact ⟨c', List.mem_append_left _ hmem, rfl⟩

theorem after_append : start.after (early ++ late) = (start.after early).after late :=
  List.foldl_append

namespace New

theorem pes_after (hn : start.New pes) : (start.after calls).pes = pes :=
  (hn.orderly.pes_after calls).trans hn.pes

theorem mem_held_after (hn : start.New pes) (hk : (start.after calls).letsGo k = false) :
    q ∈ (start.after calls).held k ↔ q < pes ∧ Brings calls k q := by
  rw [hn.orderly.mem_held_after ((hn.letsGo k).trans hk.symm), hn.held k, hn.pes]
  exact or_iff_right List.not_mem_nil

/-- A barrier is passed with the call if this and earlier ones bring everything. -/
theorem ready_taken_iff (hn : start.New pes) (ht : start.Tallied)
    (haccepts : (start.after calls).Accepts pe c) :
    ((start.after calls).taken pe c).Ready goal ↔ ∀ k, barrier? k = goal →
      (start.after calls).letsGo k = false ∧ ∀ q < pes, Brings (calls ++ [(pe, c)]) k q := by
  have htaken := (ht.after calls).taken haccepts
  apply forall₂_congr
  intro k _
  rw [letsGo_taken]
  apply and_congr_right
  intro hk
  rw [htaken.orderly.room k, htaken.filled_eq_iff (by rwa [letsGo_taken]), pes_taken, hn.pes_after]
  apply forall₂_congr
  intro q hq
  rw [mem_held_taken, hn.mem_held_after hk, brings_concat, and_iff_right hq]

/-- What the host let go of was brought by every rank, and so was all else that it waited for. -/
theorem brings_of_letsGo (hn : start.New pes) (ht : start.Tallied)
    (hk : (start.after calls).letsGo k) {j : Contribution.Kind} (hj : barrier? j = barrier? k)
    (hq : q < pes) : Brings calls j q := by
  induction calls using List.reverseRecOn with
  | nil =>
    have hstart : start.letsGo k := hk
    rw [hn.letsGo k] at hstart
    cases hstart
  | append_singleton calls call ih =>
    obtain ⟨pe, c⟩ := call
    rw [after_append] at hk
    -- either the host had let go of the kind earlier, or it does so at this last call
    cases hbefore : (start.after calls).letsGo k with
    | true => exact brings_concat.2 (.inr (ih hbefore))
    | false =>
      obtain ⟨ha, hgoal, hready⟩ := (ht.after calls).orderly.ready_of_letsGo hbefore hk
      exact ((hn.ready_taken_iff ht ha).1 hready j (hj.trans hgoal)).2 q hq

end New

/-! ### Which call passes a barrier -/

/-- Some of the calls brings a contribution of this kind from this rank, and the host that they come
to accepts it. -/
def Accepted (start : Host) (k : Contribution.Kind) (q : Nat)
    (calls : List (Nat × Contribution)) : Prop :=
  ∃ early c late, calls = early ++ (q, c) :: late ∧ c.kind = k ∧ (start.after early).Accepts q c

/-- Everything that the host waits for at a barrier is accepted from every rank. -/
def AllIn (start : Host) (goal : Option Barrier) (calls : List (Nat × Contribution)) : Prop :=
  ∀ k, barrier? k = goal → ∀ q < start.pes, start.Accepted k q calls

/-- With the call everything is accepted, and before it something is missing. -/
def Completes (start : Host) (goal : Option Barrier) (early : List (Nat × Contribution))
    (call : Nat × Contribution) : Prop :=
  ¬ start.AllIn goal early ∧ start.AllIn goal (early ++ [call])

theorem AllIn.append (h : start.AllIn goal early) (late : List (Nat × Contribution)) :
    start.AllIn goal (early ++ late) := by
  intro k hk q hq
  obtain ⟨before, c, behind, rfl, hkind, haccepts⟩ := h k hk q hq
  refine ⟨before, c, behind ++ late, ?_, hkind, haccepts⟩
  rw [List.append_assoc, List.cons_append]

namespace New

/-- The first contribution of a kind that a rank brings is accepted. -/
theorem accepted_iff (hn : start.New pes) (ht : start.Tallied) :
    start.Accepted k q calls ↔ q < pes ∧ Brings calls k q := by
  constructor
  · rintro ⟨early, c, late, rfl, rfl, hpe, -⟩
    rw [hn.pes_after] at hpe
    exact ⟨hpe, c, List.mem_append_right _ List.mem_cons_self, rfl⟩
  · rintro ⟨hq, c, hmem, rfl⟩
    -- a later contribution of the rank may be refused, so the first one is what counts
    have hfirst : (calls.find? fun call => call.1 = q ∧ call.2.kind = c.kind).isSome := by
      rw [List.find?_isSome]
      exact ⟨(q, c), hmem, by simp⟩
    obtain ⟨⟨q', c'⟩, hfind⟩ := Option.isSome_iff_exists.1 hfirst
    obtain ⟨hfound, early, late, rfl, hearly⟩ := List.find?_eq_some_iff_append.1 hfind
    obtain ⟨rfl, hkind⟩ := of_decide_eq_true hfound
    have hnone : ¬ Brings early c.kind q' := by
      rintro ⟨c'', hc'', hkind''⟩
      have hbad := hearly _ hc''
      simp [hkind''] at hbad
    refine ⟨early, c', late, rfl, hkind, ?_, ?_⟩
    · rw [hn.pes_after]
      exact hq
    · have hk : (start.after early).letsGo c.kind = false := by
        rw [Bool.eq_false_iff]
        exact fun hk => hnone (hn.brings_of_letsGo ht hk rfl hq)
      rw [hkind, hn.mem_held_after hk]
      exact fun hheld => hnone hheld.2

theorem allIn_iff (hn : start.New pes) (ht : start.Tallied) :
    start.AllIn goal calls ↔ ∀ k, barrier? k = goal → ∀ q < pes, Brings calls k q := by
  unfold AllIn
  rw [hn.pes]
  apply forall₂_congr
  intro k _
  apply forall₂_congr
  intro q hq
  rw [hn.accepted_iff ht, and_iff_right hq]

/-- A call completes a barrier exactly if the host accepts it and has everything then. -/
theorem completes_iff (hn : start.New pes) (ht : start.Tallied) :
    start.Completes goal early (pe, c) ↔ barrier? c.kind = goal ∧
      (start.after early).Accepts pe c ∧ ((start.after early).taken pe c).Ready goal := by
  unfold Completes
  rw [hn.allIn_iff ht, hn.allIn_iff ht]
  constructor
  · rintro ⟨hmissing, hall⟩
    obtain ⟨k, hk, q, hq, hbrings⟩ : ∃ k, barrier? k = goal ∧ ∃ q < pes, ¬ Brings early k q := by
      by_contra hnone
      push Not at hnone
      exact hmissing hnone
    obtain ⟨rfl, rfl⟩ := (brings_concat.1 (hall k hk q hq)).resolve_right hbrings
    have hkeeps : ∀ j, barrier? j = goal → (start.after early).letsGo j = false := by
      intro j hj
      rw [Bool.eq_false_iff]
      exact fun hgone => hbrings (hn.brings_of_letsGo ht hgone (hk.trans hj.symm) hq)
    have haccepts : (start.after early).Accepts q c := by
      refine ⟨hq.trans_eq hn.pes_after.symm, ?_⟩
      rw [hn.mem_held_after (hkeeps _ hk)]
      exact fun hheld => hbrings hheld.2
    refine ⟨hk, haccepts, (hn.ready_taken_iff ht haccepts).2 ?_⟩
    intro j hj
    exact ⟨hkeeps j hj, hall j hj⟩
  · rintro ⟨hk, haccepts, hready⟩
    have hall := (hn.ready_taken_iff ht haccepts).1 hready
    constructor
    · intro hearly
      apply haccepts.2
      rw [hn.mem_held_after (hall _ hk).1]
      have hpe : pe < pes := haccepts.1.trans_eq hn.pes_after
      exact ⟨hpe, hearly _ hk pe hpe⟩
    · intro k hk
      exact (hall k hk).2

end New

/-! ### What is told -/

/-- The directives of all calls. -/
def emitted (h : Host) : List (Nat × Contribution) → List Directive
  | [] => []
  | (pe, c) :: calls => told (h.contribute pe c) ++ (h.contribute pe c).state.emitted calls

theorem emitted_append : start.emitted (early ++ late) =
    start.emitted early ++ (start.after early).emitted late := by
  induction early generalizing start with
  | nil => rfl
  | cons call early ih =>
    rw [List.cons_append, emitted, emitted, ih, List.append_assoc]
    rfl

namespace New

/-- Nothing is told at a barrier but by the call that completes it. -/
theorem completes_of_told (hn : start.New pes) (ht : start.Tallied) {d : Directive}
    (hd : d ∈ told ((start.after early).contribute pe c)) :
    start.Completes d.barrier? early (pe, c) ∧
      Announces pes (told ((start.after early).contribute pe c)) d.barrier? := by
  have htallied := ht.after early
  have haccepts : (start.after early).Accepts pe c := by
    by_contra hno
    obtain ⟨v, hv⟩ := htallied.orderly.contribute_of_not_accepts hno
    rw [hv] at hd
    exact absurd hd List.not_mem_nil
  have hready : ((start.after early).taken pe c).Ready (barrier? c.kind) := by
    by_contra hno
    rw [htallied.orderly.contribute_of_not_ready haccepts hno] at hd
    exact absurd hd List.not_mem_nil
  obtain ⟨hnil, -⟩ | htold := htallied.announces_of_ready haccepts hready
  · rw [hnil] at hd
    exact absurd hd List.not_mem_nil
  · rw [hn.pes_after] at htold
    rw [barrier?_of_announces htold hd]
    exact ⟨(hn.completes_iff ht).2 ⟨rfl, haccepts, hready⟩, htold⟩

/-- But for the partitioning, which may fail, what a call completes is told. -/
theorem announces_of_completes (hn : start.New pes) (ht : start.Tallied)
    (hgoal : goal ≠ some .partition) (hc : start.Completes goal early (pe, c)) :
    Announces pes (told ((start.after early).contribute pe c)) goal := by
  obtain ⟨rfl, haccepts, hready⟩ := (hn.completes_iff ht).1 hc
  obtain ⟨-, hk⟩ | htold :=
    (ht.after early).announces_of_ready haccepts hready
  · exact absurd hk hgoal
  · rwa [hn.pes_after] at htold

/-- What is told at a barrier is told at once, when everything is there. -/
theorem told_once (hn : start.New pes) (ht : start.Tallied) (goal : Option Barrier)
    (calls : List (Nat × Contribution)) :
    (start.emitted calls).filter (·.barrier? = goal) = [] ∨
      start.AllIn goal calls ∧
        Announces pes ((start.emitted calls).filter (·.barrier? = goal)) goal := by
  induction calls using List.reverseRecOn with
  | nil => exact .inl rfl
  | append_singleton calls call ih =>
    obtain ⟨pe, c⟩ := call
    have hsplit : start.emitted (calls ++ [(pe, c)]) =
        start.emitted calls ++ told ((start.after calls).contribute pe c) := by
      rw [emitted_append, emitted, emitted, List.append_nil]
    rw [hsplit, List.filter_append]
    by_cases hnow : ∃ d ∈ told ((start.after calls).contribute pe c), d.barrier? = goal
    · obtain ⟨d, hd, rfl⟩ := hnow
      obtain ⟨⟨hmissing, hall⟩, htold⟩ := hn.completes_of_told ht hd
      -- had the barrier been passed earlier, nothing would be missing before this call
      have hbefore := ih.resolve_right fun hin => hmissing hin.1
      have hwhole : (told ((start.after calls).contribute pe c)).filter
          (·.barrier? = d.barrier?) = told ((start.after calls).contribute pe c) := by
        rw [List.filter_eq_self]
        intro d' hd'
        exact decide_eq_true (barrier?_of_announces htold hd')
      rw [hbefore, List.nil_append, hwhole]
      exact .inr ⟨hall, htold⟩
    · have hnone :
          (told ((start.after calls).contribute pe c)).filter (·.barrier? = goal) = [] := by
        rw [List.filter_eq_nil_iff]
        intro d hd hgoal
        exact hnow ⟨d, hd, of_decide_eq_true hgoal⟩
      rw [hnone, List.append_nil]
      exact ih.imp id fun hin => ⟨hin.1.append _, hin.2⟩

end New

/-- What is accepted stays accepted, so at most one call completes a barrier. -/
theorem Completes.unique {call call' : Nat × Contribution}
    {early' late' : List (Nat × Contribution)}
    (h : start.Completes goal early call) (h' : start.Completes goal early' call')
    (hcalls : early ++ call :: late = early' ++ call' :: late') : early = early' := by
  have hshort : ∀ {a b : List (Nat × Contribution)} {x y l m}, start.Completes goal a x →
      start.Completes goal b y → a ++ x :: l = b ++ y :: m → b.length ≤ a.length := by
    intro a b x y l m ha hb heq
    by_contra hlt
    have hcall : a ++ [x] <+: b ++ y :: m := ⟨l, by rw [← heq, ← List.append_cons]⟩
    have hlen : (a ++ [x]).length ≤ b.length := by
      rw [List.length_append, List.length_singleton]
      omega
    obtain ⟨behind, rfl⟩ := List.prefix_of_prefix_length_le hcall (List.prefix_append b _) hlen
    exact hb.1 (ha.2.append behind)
  have hle := hshort h h' hcalls
  have hge := hshort h' h hcalls.symm
  exact (List.append_inj hcalls (Nat.le_antisymm hge hle)).1

/-! ### Who asks the partitioner -/

/-- The call asks the partitioner for `parts` parts of `input`: it ends otherwise with a partitioner
that answers otherwise to this question alone. -/
def Consults (h : Host) (pe : Nat) (c : Contribution) (input : PartitionInput) (parts : Nat) :
    Prop :=
  ∃ p : Partitioner, p.name = h.partitioner.name ∧
    (∀ i n, (i, n) ≠ (input, parts) → p.assign i n = h.partitioner.assign i n) ∧
    ((h.withPartitioner p).contribute pe c).result ≠ (h.contribute pe c).result

/-- Only the call that has everything for the partitioning depends on the partitioner at all. -/
theorem Orderly.result_withPartitioner (ho : h.Orderly) (p : Partitioner)
    (hn : ¬ (barrier? c.kind = some .partition ∧ h.Accepts pe c ∧
      (h.taken pe c).Ready (some .partition))) :
    ((h.withPartitioner p).contribute pe c).result = (h.contribute pe c).result := by
  have hop : (h.withPartitioner p).Orderly := ⟨ho.pos, ho.room, ho.loads, ho.setups, ho.passed⟩
  by_cases hk : barrier? c.kind = some .partition
  · by_cases hpe : pe < h.room c.kind
    · by_cases hm : pe ∈ h.held c.kind
      · have hsame := contribute_of_mem (h := h.withPartitioner p) (c := c) hpe hm
        rw [contribute_of_mem hpe hm, hsame]
        rfl
      · have ha : h.Accepts pe c := ⟨hpe.trans_eq (ho.room _), hm⟩
        have hready : ¬ (h.taken pe c).Ready (barrier? c.kind) := by
          rw [hk]
          exact fun hready => hn ⟨hk, ha, hready⟩
        have hready' : ¬ ((h.withPartitioner p).taken pe c).Ready (barrier? c.kind) := by
          cases c <;> exact hready
        rw [ho.contribute_of_not_ready ha hready, hop.contribute_of_not_ready ha hready']
        rfl
    · have hle : h.room c.kind ≤ pe := Nat.not_lt.1 hpe
      have hsame := contribute_of_le (h := h.withPartitioner p) (c := c) hle
      rw [contribute_of_le hle, hsame]
      rfl
  · have hsame : (h.withInput h.settings p h.slices).contribute pe c = _ :=
      contribute_withInput (mt mem_kinds.1 hk)
    show ((h.withInput h.settings p h.slices).contribute pe c).result = _
    rw [hsame]
    rfl

/-- The slices are partitioned by one question. -/
theorem assign_depends_on_answer (h : Host) (slices : List ElementSlice) :
    ∃ input, ∀ p : Partitioner, p.name = h.partitioner.name →
      p.assign input h.units = h.partitioner.assign input h.units →
      (h.withPartitioner p).assign slices = h.assign slices := by
  cases hg : Gathered.addAll (slices.all fun s => s.centroids.isSome) 0 {} slices with
  | error e =>
    use ⟨[], none, [], 0⟩
    intro p _ _
    unfold assign
    dsimp only [withPartitioner]
    rw [hg]
    rfl
  | ok g =>
    use ⟨g.connectivity, if slices.all fun s => s.centroids.isSome then some g.centroids else none,
      List.range g.elements, h.elements⟩
    intro p hname hanswer
    unfold assign
    dsimp only [withPartitioner]
    rw [hg]
    simp only [bind, Except.bind, Except.mapError, hname, hanswer]

section

variable {n : Nat}
  (hall : (h.loads.complete && h.setups.complete && h.slices.complete) = true)
  (hn : h.loads.values.foldr (· + ·) 0 = n)

include hall hn

theorem tryPartition_of_error {e : RunError} (hd : h.decideUnits n = .error e) :
    h.tryPartition = .fail { h with elements := n } (.error e) := by
  have hd' : Host.decideUnits { h with elements := n } n = .error e := hd
  unfold tryPartition
  rw [if_pos hall]
  dsimp only
  rw [hn, hd']

theorem tryPartition_of_ok {units : Nat} (hd : h.decideUnits n = .ok units) :
    let g := { h with elements := n, units, slices := h.slices.clear }
    h.tryPartition = ⟨g, (g.assign h.slices.values).map (scatter units 0 h.slices.values)⟩ := by
  have hd' : Host.decideUnits { h with elements := n } n = .ok units := hd
  unfold tryPartition
  rw [if_pos hall]
  dsimp only
  rw [hn, hd']
  dsimp only
  split
  · next e he =>
    rw [he]
    rfl
  · next ids hids =>
    rw [hids]
    rfl

theorem tryPartition_depends_on_answer :
    ∃ input parts, ∀ p : Partitioner, p.name = h.partitioner.name →
      p.assign input parts = h.partitioner.assign input parts →
      (h.withPartitioner p).tryPartition.result = h.tryPartition.result := by
  cases hd : h.decideUnits n with
  | error e =>
    use ⟨[], none, [], 0⟩, 0
    intro p _ _
    have hp := tryPartition_of_error (h := h.withPartitioner p) hall hn hd
    rw [hp, tryPartition_of_error hall hn hd]
    rfl
  | ok units =>
    obtain ⟨input, hinput⟩ :=
      assign_depends_on_answer { h with elements := n, units, slices := h.slices.clear }
        h.slices.values
    use input, units
    intro p hname hanswer
    have hp := tryPartition_of_ok (h := h.withPartitioner p) hall hn hd
    rw [hp, tryPartition_of_ok hall hn hd]
    dsimp only
    rw [← hinput p hname hanswer]
    rfl

end

/-- A call asks the partitioner one question at most, and only if it has everything for it. -/
theorem Tallied.contribute_depends_on_answer (ht : h.Tallied) (pe : Nat) (c : Contribution) :
    ∃ input parts, ∀ p : Partitioner, p.name = h.partitioner.name →
      p.assign input parts = h.partitioner.assign input parts →
      ((h.withPartitioner p).contribute pe c).result = (h.contribute pe c).result := by
  by_cases hasks : barrier? c.kind = some .partition ∧ h.Accepts pe c ∧
      (h.taken pe c).Ready (some .partition)
  · obtain ⟨hk, ⟨hpe, hm⟩, hready⟩ := hasks
    obtain ⟨-, hloads, hsetups, hslices⟩ := ready_partition_iff.1 hready
    have hall : ((h.taken pe c).loads.complete && (h.taken pe c).setups.complete &&
        (h.taken pe c).slices.complete) = true := by
      rw [hloads, hsetups, hslices]
      rfl
    obtain ⟨input, parts, hinput⟩ := tryPartition_depends_on_answer hall rfl
    use input, parts
    intro p hname hanswer
    rw [← ht.orderly.room c.kind] at hpe
    have hp := contribute_of_partition (h := h.withPartitioner p) hpe hm hk
    have htaken : (h.withPartitioner p).taken pe c = (h.taken pe c).withPartitioner p := by
      cases c <;> rfl
    have hkeeps : (h.taken pe c).partitioner = h.partitioner := by cases c <;> rfl
    rw [hkeeps] at hinput
    rw [hp, htaken, contribute_of_partition hpe hm hk, hinput p hname hanswer]
  · use ⟨[], none, [], 0⟩, 0
    intro p _ _
    exact ht.orderly.result_withPartitioner p hasks

theorem Tallied.eq_of_consults (ht : h.Tallied) {input input' : PartitionInput}
    {parts parts' : Nat} (hx : h.Consults pe c input parts) (hx' : h.Consults pe c input' parts') :
    input = input' ∧ parts = parts' := by
  obtain ⟨asked, n, hsame⟩ := ht.contribute_depends_on_answer pe c
  have hasked : ∀ {i m}, h.Consults pe c i m → (asked, n) = (i, m) := by
    rintro i m ⟨p, hname, hother, hdiffers⟩
    by_contra hne
    exact hdiffers (hsame p hname (hother asked n hne))
  have heq := (hasked hx).symm.trans (hasked hx')
  exact Prod.mk.inj heq

theorem New.completes_of_consults (hn : start.New pes) (ht : start.Tallied)
    {input : PartitionInput} {parts : Nat}
    (hx : (start.after early).Consults pe c input parts) :
    start.Completes (some .partition) early (pe, c) := by
  obtain ⟨p, -, -, hdiffers⟩ := hx
  rw [hn.completes_iff ht]
  by_contra hno
  exact hdiffers ((ht.after early).orderly.result_withPartitioner p hno)

/-- A host passes every barrier at most once, whatever it is called with. At each of them it tells
every rank in their order, or all of them at once, and by the very call that makes everything
accepted that it waits for there; only the partitioning may fail. It asks its partitioner one
question at most. -/
theorem barriers_pass_once {settings : Settings} {h₀ : Host}
    (hc : create pes settings = .ok h₀) (p : Partitioner) (calls : List (Nat × Contribution)) :
    let start := h₀.withPartitioner p
    (∀ goal, (start.emitted calls).filter (·.barrier? = goal) = [] ∨
      Announces pes ((start.emitted calls).filter (·.barrier? = goal)) goal) ∧
    (∀ early pe c late, calls = early ++ (pe, c) :: late →
      let now := told ((start.after early).contribute pe c)
      (∀ d ∈ now, start.Completes d.barrier? early (pe, c) ∧ Announces pes now d.barrier?) ∧
      ∀ goal ≠ some .partition, start.Completes goal early (pe, c) → Announces pes now goal) ∧
    ∀ early pe c late early' pe' c' late', calls = early ++ (pe, c) :: late →
      calls = early' ++ (pe', c') :: late' → ∀ input parts input' parts',
      (start.after early).Consults pe c input parts →
      (start.after early').Consults pe' c' input' parts' →
      start.Completes (some .partition) early (pe, c) ∧ early = early' ∧ input = input' ∧
        parts = parts' := by
  intro start
  have hn : start.New pes := new_create hc p
  have ht : start.Tallied := tallied_create hc p
  refine ⟨?_, ?_, ?_⟩
  · intro goal
    exact (hn.told_once ht goal calls).imp id And.right
  · intro early pe c late _ now
    constructor
    · intro d hd
      exact hn.completes_of_told ht hd
    · intro goal hgoal hcompletes
      exact hn.announces_of_completes ht hgoal hcompletes
  · intro early pe c late early' pe' c' late' hcalls hcalls' input parts input' parts' hx hx'
    have hfirst := hn.completes_of_consults ht hx
    have hsecond := hn.completes_of_consults ht hx'
    have hsplit := hcalls.symm.trans hcalls'
    obtain rfl := hfirst.unique hsecond hsplit
    cases List.append_cancel_left hsplit
    exact ⟨hfirst, rfl, (ht.after early).eq_of_consults hx hx'⟩

/-- One rank and all that it has to contribute, with a rank that is not there, a second load, and
the element and the nodes once more. -/
def loneRun : List (Nat × Contribution) :=
  loneCalls ++ [(1, .setup), (0, .load 1), (0, loneElement), (0, .distributed), (0, .flattened),
    (0, .nodes [10, 11, 12, 13]), (0, .nodes [10, 11, 12, 13]), (0, .flattened), (0, .cost .one),
    (0, .deviation .one)]

/-- The question that is asked about the element of the rank. -/
def loneInput : PartitionInput := ⟨[10, 11, 12, 13], none, [0], 1⟩

theorem consults_lone :
    (lone.after [(0, .load 1), (0, .setup)]).Consults 0 loneElement loneInput 1 := by
  refine ⟨{ lone.partitioner with
    assign := fun i n => if (i, n) = (loneInput, 1) then .ok [] else lone.partitioner.assign i n },
    rfl, ?_, ?_⟩
  · intro i n hne
    exact if_neg hne
  · decide

/-- The rank is told everything once and in its order, and its element is what the partitioner is
asked about. -/
theorem barriers_passed_by_lone :
    create 1 lone.settings = .ok lone ∧
    (lone.emitted loneRun).map Directive.barrier? =
      [some .partition, some .flatten, some .reorder, some .deviation, none] ∧
    Announces 1 ((lone.emitted loneRun).filter (·.barrier? = some .reorder)) (some .reorder) ∧
    lone.Completes none (loneRun.take 12) (0, .deviation .one) ∧
    lone.Completes (some .partition) (loneRun.take 2) (0, loneElement) := by
  have hc : create 1 lone.settings = .ok lone := rfl
  obtain ⟨honce, hnow, hasks⟩ := barriers_pass_once hc lone.partitioner loneRun
  refine ⟨hc, by decide, ?_, ?_, ?_⟩
  · exact (honce (some .reorder)).resolve_left (by decide)
  · obtain ⟨htold, -⟩ := hnow (loneRun.take 12) 0 (.deviation .one) [] rfl
    obtain ⟨r, hr⟩ : ∃ r, .finished r ∈ told ((lone.after (loneRun.take 12)).contribute 0
        (.deviation .one)) := ⟨_, List.mem_cons_self⟩
    exact (htold (.finished r) hr).1
  · exact (hasks _ 0 loneElement _ _ 0 loneElement _ rfl rfl loneInput 1 loneInput 1 consults_lone
      consults_lone).1

end Host
end MeshDecomp
