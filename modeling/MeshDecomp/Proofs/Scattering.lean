import Mathlib.Algebra.BigOperators.Group.Finset.Basic
import Mathlib.Algebra.Order.BigOperators.Group.Finset
import MeshDecomp.Partition.Elementary
import MeshDecomp.Proofs.Barriers

/-!
The call that completes the first barrier. The host partitions the mesh only if the slices of the
ranks cover it without a gap, and hands all of the answer out again, to each rank the part of its
own slice. Otherwise it fails, and tells nobody anything.
-/

namespace MeshDecomp

open Scenario (barrier?)

theorem Centroids.append_empty (c : Centroids) : c ++ empty = c := by
  show Centroids.mk (_ ++ []) (_ ++ []) (_ ++ []) = c
  simp only [List.append_nil]

namespace Host

variable {h h' start : Host} {pe q pes : Nat} {c c' : Contribution} {k : Contribution.Kind}
  {calls early : List (Nat × Contribution)} {goal : Option Barrier}

/-! ### What the host keeps of each rank -/

/-- The contribution of one kind that the host holds from a rank. -/
def kept? (h : Host) (q : Nat) : Contribution.Kind → Option Contribution
  | .load => (h.loads.slots.get? q).map .load
  | .setup => (h.setups.slots.get? q).map fun _ => .setup
  | .elements => (h.slices.slots.get? q).map .elements
  | .distributed => (h.distributions.slots.get? q).map fun _ => .distributed
  | .flattened => (h.flattenings.slots.get? q).map fun _ => .flattened
  | .nodes => (h.nodeSets.slots.get? q).map .nodes
  | .cost => (h.costs.slots.get? q).map .cost
  | .deviation => (h.deviations.slots.get? q).map .deviation

theorem mem_held_of_kept? (hq : h.kept? q k = some c) : q ∈ h.held k := by
  cases k <;>
  · obtain ⟨a, ha, -⟩ := Option.map_eq_some_iff.1 hq
    exact IdMap.mem_keys_iff.2 ⟨a, ha⟩

theorem kept?_taken :
    (h.taken pe c).kept? q k = if k = c.kind ∧ q = pe then some c else h.kept? q k := by
  by_cases hq : q = pe <;> cases c <;> cases k <;>
    simp [kept?, taken, Tally.put, IdMap.get?_insert, Contribution.kind, hq]

theorem Moves.kept? (hmv : h.Moves h') (ho : h.Orderly) (hk : h'.letsGo k = false) :
    h'.kept? q k = h.kept? q k := by
  cases hmv with
  | counts => cases k <;> rfl
  | partitions elements units _ hu =>
    cases k with
    | elements =>
      have hunits : units = 0 := not_not.1 (of_decide_eq_false hk)
      have hpos := ho.pos
      omega
    | _ => rfl
  | reorders =>
    cases k with
    | nodes => cases hk
    | _ => rfl

namespace Orderly

/-- What the host holds it keeps until it lets go of the kind. -/
theorem kept?_contribute (ho : h.Orderly) (hk : (h.contribute pe c).state.letsGo k = false)
    (hq : h.kept? q k = some c') : (h.contribute pe c).state.kept? q k = some c' := by
  by_cases ha : h.Accepts pe c
  · have hpe := ho.lt_room ha
    rw [(ho.moves hpe ha.2).kept? (ho.taken hpe ha.2) hk, kept?_taken, if_neg]
    · exact hq
    · rintro ⟨rfl, rfl⟩
      exact ha.2 (mem_held_of_kept? hq)
  · obtain ⟨v, hv⟩ := ho.contribute_of_not_accepts ha
    rwa [hv]

theorem kept?_after (ho : h.Orderly) (hk : (h.after calls).letsGo k = false)
    (hq : h.kept? q k = some c') : (h.after calls).kept? q k = some c' := by
  induction calls generalizing h with
  | nil => exact hq
  | cons call calls ih =>
    have hfirst : (h.contribute call.1 call.2).state.letsGo k = false := by
      rw [Bool.eq_false_iff]
      intro hgone
      have hlater := ho.contribute.letsGo_after calls hgone
      rw [Host.after, List.foldl_cons] at hk
      exact Bool.false_ne_true (hk.symm.trans hlater)
    exact ih ho.contribute hk (ho.kept?_contribute hfirst hq)

end Orderly

/-- Some of the calls brings this very contribution of the rank, and the host that it comes to
accepts it. -/
def Takes (start : Host) (q : Nat) (c : Contribution) (calls : List (Nat × Contribution)) : Prop :=
  ∃ early late, calls = early ++ (q, c) :: late ∧ (start.after early).Accepts q c

namespace New

theorem kept?_of_takes (hn : start.New pes) (hk : (start.after calls).letsGo c.kind = false)
    (htakes : start.Takes q c calls) : (start.after calls).kept? q c.kind = some c := by
  obtain ⟨early, late, rfl, ha⟩ := htakes
  have ho : (start.after early).Orderly := hn.orderly.after early
  have hpe := ho.lt_room ha
  have hafter : start.after (early ++ (q, c) :: late) =
      ((start.after early).contribute q c).state.after late := after_append
  rw [hafter] at hk ⊢
  apply ho.contribute.kept?_after hk
  have hnow : ((start.after early).contribute q c).state.letsGo c.kind = false := by
    rw [Bool.eq_false_iff]
    intro hgone
    exact Bool.false_ne_true (hk.symm.trans (ho.contribute.letsGo_after late hgone))
  rw [(ho.moves hpe ha.2).kept? (ho.taken hpe ha.2) hnow, kept?_taken, if_pos ⟨rfl, rfl⟩]

/-- At the call that completes a barrier the host has what every rank contributed to it. -/
theorem kept?_of_completes (hn : start.New pes) (ht : start.Tallied)
    (hc : start.Completes goal early (pe, c)) (hk : barrier? c'.kind = goal)
    (htakes : start.Takes q c' (early ++ [(pe, c)])) :
    ((start.after early).taken pe c).kept? q c'.kind = some c' := by
  obtain ⟨-, ha, hready⟩ := (hn.completes_iff ht).1 hc
  have hkeeps : (start.after early).letsGo c'.kind = false := by
    have hready' := (hready c'.kind hk).1
    rwa [letsGo_taken] at hready'
  obtain ⟨before, behind, hcalls, haccepts⟩ := htakes
  rw [kept?_taken]
  -- the contribution is the one of this call, or an earlier one
  rcases List.eq_nil_or_concat' behind with rfl | ⟨late, last, rfl⟩
  · obtain ⟨-, hlast⟩ := List.append_inj' hcalls rfl
    cases hlast
    rw [if_pos ⟨rfl, rfl⟩]
  · rw [← List.cons_append, ← List.append_assoc] at hcalls
    obtain ⟨rfl, -⟩ := List.append_inj' hcalls rfl
    have hkept := hn.kept?_of_takes hkeeps ⟨before, late, rfl, haccepts⟩
    rw [if_neg, hkept]
    rintro ⟨hkind, rfl⟩
    exact ha.2 (hkind ▸ mem_held_of_kept? hkept)

end New

theorem values_eq_map {α : Type} {t : Tally α} {f : Nat → α} {n : Nat}
    (hlt : ∀ q ∈ t.slots.keys, q < n) (hget : ∀ q < n, t.slots.get? q = some (f q)) :
    t.values = (List.range n).map f := by
  rw [Tally.values, IdMap.values_eq_filterMap hlt, ← List.filterMap_eq_map]
  apply List.filterMap_congr
  intro q hq
  exact hget q (List.mem_range.1 hq)

/-! ### What never changes -/

theorem Moves.decides (hmv : h.Moves h') :
    h'.settings = h.settings ∧ h'.partitioner = h.partitioner := by
  cases hmv <;> exact ⟨rfl, rfl⟩

theorem decides_taken (h : Host) (pe : Nat) (c : Contribution) :
    (h.taken pe c).settings = h.settings ∧ (h.taken pe c).partitioner = h.partitioner := by
  cases c <;> exact ⟨rfl, rfl⟩

theorem Orderly.decides_after (ho : h.Orderly) (calls : List (Nat × Contribution)) :
    (h.after calls).settings = h.settings ∧ (h.after calls).partitioner = h.partitioner := by
  induction calls generalizing h with
  | nil => exact ⟨rfl, rfl⟩
  | cons call calls ih =>
    have ho' : (h.contribute call.1 call.2).state.Orderly := ho.contribute
    obtain ⟨hsettings, hpartitioner⟩ := ih ho'
    have hcall : (h.contribute call.1 call.2).state.settings = h.settings ∧
        (h.contribute call.1 call.2).state.partitioner = h.partitioner := by
      obtain ⟨he, -⟩ | ⟨-, -, hmv⟩ := ho.contribute_cases call.1 call.2
      · rw [he]
        exact ⟨rfl, rfl⟩
      · obtain ⟨hs, hp⟩ := hmv.decides
        obtain ⟨hs', hp'⟩ := decides_taken h call.1 call.2
        exact ⟨hs.trans hs', hp.trans hp'⟩
    exact ⟨hsettings.trans hcall.1, hpartitioner.trans hcall.2⟩

theorem decideUnits_congr (hs : h'.settings = h.settings) (hp : h'.pes = h.pes) (n : Nat) :
    h'.decideUnits n = h.decideUnits n := by
  rw [decideUnits, decideUnits, hs, hp]

/-! ### Slices that are gathered -/

section Slices

variable {slices : Nat → ElementSlice} {geometric : Bool} {n total : Nat}

/-- The slices of the ranks cover the elements below `total` in the order of the ranks: each holds
whole elements, and starts where the one before it ends. -/
structure Tiles (pes : Nat) (slices : Nat → ElementSlice) (total : Nat) : Prop where
  whole : ∀ q < pes, 4 ∣ (slices q).connectivity.length
  first : ∀ q < pes, (slices q).first = ∑ r ∈ Finset.range q, (slices r).size
  total : ∑ q ∈ Finset.range pes, (slices q).size = total

/-- Every rank brings points. -/
def AllPointed (pes : Nat) (slices : Nat → ElementSlice) : Prop :=
  ∀ q < pes, (slices q).centroids.isSome

instance : Decidable (AllPointed pes slices) := inferInstanceAs (Decidable (∀ q < pes, _))

/-- Slices with points bring one for each element. -/
def PointsFit (pes : Nat) (slices : Nat → ElementSlice) : Prop :=
  ∀ q < pes, ∀ c, (slices q).centroids = some c → c.size = (slices q).size

/-- The slices of the first `n` ranks in their order. -/
def gathered (geometric : Bool) (slices : Nat → ElementSlice) (n : Nat) : Gathered where
  connectivity := (List.range n).flatMap fun q => (slices q).connectivity
  elements := ∑ q ∈ Finset.range n, (slices q).size
  centroids :=
    if geometric then
      (List.range n).foldl (fun c q => c ++ (slices q).centroids.getD .empty) .empty
    else .empty

/-- The question to the partitioner: all connectivities in the order of the ranks, all elements by
number, and all points if every rank brings some. -/
def inputFrom (pes : Nat) (slices : Nat → ElementSlice) (total : Nat) : PartitionInput where
  connectivity := (List.range pes).flatMap fun q => (slices q).connectivity
  centroids :=
    if AllPointed pes slices then
      some ((List.range pes).foldl (fun c q => c ++ (slices q).centroids.getD .empty) .empty)
    else none
  elements := List.range total
  total := total

theorem add_eq_ok_iff {g g' : Gathered} {s : ElementSlice} :
    g.add geometric s = .ok g' ↔ 4 ∣ s.connectivity.length ∧ s.first = g.elements ∧
      (geometric → ∀ c, s.centroids = some c → c.size = s.size) ∧
      g' = {
        connectivity := g.connectivity ++ s.connectivity
        elements := g.elements + s.size
        centroids :=
          if geometric then g.centroids ++ s.centroids.getD .empty else g.centroids } := by
  have hwhole : s.connectivity.length = 4 * s.size ↔ 4 ∣ s.connectivity.length := by
    rw [ElementSlice.size]
    omega
  unfold Gathered.add
  by_cases hw : s.connectivity.length = 4 * s.size
  · by_cases hf : s.first = g.elements
    · rw [if_neg (not_not.2 hw), if_neg (not_not.2 hf)]
      have hw' := hwhole.1 hw
      cases hc : s.centroids with
      | none => cases geometric <;> simp [hw', hf, Centroids.append_empty, eq_comm]
      | some c =>
        by_cases hsize : c.size = s.size <;> cases geometric <;>
          simp [hw', hf, hsize, eq_comm]
    · rw [if_neg (not_not.2 hw), if_pos hf]
      simp [hf]
  · rw [if_pos hw]
    simp [mt hwhole.2 hw]

theorem addAll_concat {first : Nat} {g : Gathered} (l : List ElementSlice) (s : ElementSlice) :
    Gathered.addAll geometric first g (l ++ [s]) =
      (Gathered.addAll geometric first g l).bind fun g =>
        (g.add geometric s).mapError (.internal (first + l.length)) := by
  induction l generalizing first g with
  | nil =>
    cases h : g.add geometric s <;> simp [Gathered.addAll, Except.bind, Except.mapError, h]
  | cons a l ih =>
    rw [List.cons_append, Gathered.addAll, Gathered.addAll]
    cases g.add geometric a with
    | error v => rfl
    | ok g =>
      dsimp only
      rw [ih, List.length_cons, Nat.add_right_comm, Nat.add_assoc]

/-- The slices are gathered if each fits to those before it. -/
theorem addAll_eq_ok_iff {g : Gathered} :
    Gathered.addAll geometric 0 {} ((List.range n).map slices) = .ok g ↔
      (∀ q < n, 4 ∣ (slices q).connectivity.length ∧
        (slices q).first = ∑ r ∈ Finset.range q, (slices r).size ∧
        (geometric → ∀ c, (slices q).centroids = some c → c.size = (slices q).size)) ∧
      g = gathered geometric slices n := by
  induction n generalizing g with
  | zero =>
    have hempty : ({} : Gathered) = gathered geometric slices 0 := by cases geometric <;> rfl
    simp [Gathered.addAll, hempty, eq_comm]
  | succ n ih =>
    have hstep : Gathered.addAll geometric 0 {} ((List.range (n + 1)).map slices) = .ok g ↔
        ∃ g₀, Gathered.addAll geometric 0 {} ((List.range n).map slices) = .ok g₀ ∧
          g₀.add geometric (slices n) = .ok g := by
      rw [List.range_succ, List.map_append, List.map_singleton, addAll_concat]
      cases Gathered.addAll geometric 0 {} ((List.range n).map slices) with
      | error e => simp [Except.bind]
      | ok g₀ => cases h : g₀.add geometric (slices n) <;> simp [Except.bind, Except.mapError, h]
    have hnext : gathered geometric slices (n + 1) = {
        connectivity := (gathered geometric slices n).connectivity ++ (slices n).connectivity
        elements := (gathered geometric slices n).elements + (slices n).size
        centroids :=
          if geometric then
            (gathered geometric slices n).centroids ++ (slices n).centroids.getD .empty
          else (gathered geometric slices n).centroids } := by
      unfold gathered
      rw [List.range_succ, List.flatMap_append, List.flatMap_singleton, List.foldl_append,
        Finset.sum_range_succ]
      cases geometric <;> rfl
    rw [hstep]
    constructor
    · rintro ⟨g₀, hg₀, hadd⟩
      obtain ⟨hbefore, rfl⟩ := ih.1 hg₀
      obtain ⟨hwhole, hfirst, hpoints, rfl⟩ := add_eq_ok_iff.1 hadd
      refine ⟨?_, hnext.symm⟩
      intro q hq
      rcases Nat.lt_succ_iff_lt_or_eq.1 hq with hlt | rfl
      · exact hbefore q hlt
      · exact ⟨hwhole, hfirst, hpoints⟩
    · rintro ⟨hall, rfl⟩
      obtain ⟨hwhole, hfirst, hpoints⟩ := hall n (Nat.lt_succ_self n)
      refine ⟨gathered geometric slices n, ih.2 ⟨?_, rfl⟩, ?_⟩
      · intro q hq
        exact hall q (Nat.lt_succ_of_lt hq)
      · exact add_eq_ok_iff.2 ⟨hwhole, hfirst, hpoints, hnext⟩

/-! ### An answer that is shared out -/

/-- What a rank gets of an answer on all elements. -/
def shareOf (slices : Nat → ElementSlice) (ids : List Nat) (q : Nat) : List Nat :=
  (ids.drop (∑ r ∈ Finset.range q, (slices r).size)).take (slices q).size

theorem scatter_concat {units first : Nat} {ids : List Nat} (l : List ElementSlice)
    (s : ElementSlice) :
    scatter units first (l ++ [s]) ids = scatter units first l ids ++
      [.tell (first + l.length)
        (.partition units ((ids.drop (l.map ElementSlice.size).sum).take s.size))] := by
  induction l generalizing first ids with
  | nil => rfl
  | cons a l ih =>
    rw [List.cons_append, scatter, scatter, ih, List.drop_drop, List.map_cons, List.sum_cons,
      List.length_cons, Nat.add_right_comm, Nat.add_assoc, List.cons_append]

theorem scatter_eq_map_shareOf (units : Nat) (ids : List Nat) (n : Nat) :
    scatter units 0 ((List.range n).map slices) ids =
      (List.range n).map fun q => .tell q (.partition units (shareOf slices ids q)) := by
  induction n with
  | zero => rfl
  | succ n ih =>
    have hsum : (((List.range n).map slices).map ElementSlice.size).sum =
        ∑ r ∈ Finset.range n, (slices r).size := by
      rw [List.map_map]
      rfl
    rw [List.range_succ, List.map_append, List.map_singleton, scatter_concat, ih, hsum,
      List.length_map, List.length_range, Nat.zero_add, List.map_append, List.map_singleton]
    rfl

/-- The shares are as long as the slices, and nothing of the answer is left over. -/
theorem shares_of_total {ids : List Nat}
    (hids : ids.length = ∑ q ∈ Finset.range pes, (slices q).size) :
    (∀ q < pes, (shareOf slices ids q).length = (slices q).size) ∧
      (List.range pes).flatMap (shareOf slices ids) = ids := by
  constructor
  · intro q hq
    have hle : ∑ r ∈ Finset.range (q + 1), (slices r).size ≤ ids.length := by
      rw [hids]
      exact Finset.sum_le_sum_of_subset (Finset.range_mono hq)
    rw [Finset.sum_range_succ] at hle
    rw [shareOf, List.length_take, List.length_drop]
    omega
  · have hfirst : ∀ n, (List.range n).flatMap (shareOf slices ids) =
        ids.take (∑ q ∈ Finset.range n, (slices q).size) := by
      intro n
      induction n with
      | zero => rfl
      | succ n ih =>
        rw [List.range_succ, List.flatMap_append, List.flatMap_singleton, ih, shareOf,
          Finset.sum_range_succ, List.take_add]
    rw [hfirst, ← hids, List.take_length]

/-! ### The partitioning -/

theorem all_pointed : (((List.range pes).map slices).all fun s => s.centroids.isSome) =
    decide (AllPointed pes slices) := by
  rw [Bool.eq_iff_iff, List.all_eq_true, decide_eq_true_iff]
  constructor
  · intro hall q hq
    exact hall _ (List.mem_map_of_mem (List.mem_range.2 hq))
  · intro hall s hs
    obtain ⟨q, hq, rfl⟩ := List.mem_map.1 hs
    exact hall q (List.mem_range.1 hq)

theorem inputFrom_eq (hn : ∑ q ∈ Finset.range pes, (slices q).size = total) :
    inputFrom pes slices total = {
      connectivity := (gathered (decide (AllPointed pes slices)) slices pes).connectivity
      centroids := if decide (AllPointed pes slices) then
        some (gathered (decide (AllPointed pes slices)) slices pes).centroids else none
      elements := List.range (gathered (decide (AllPointed pes slices)) slices pes).elements
      total := total } := by
  unfold inputFrom gathered
  rw [hn]
  by_cases hp : AllPointed pes slices <;> simp [hp]

theorem tiles_iff : Tiles pes slices total ∧ (AllPointed pes slices → PointsFit pes slices) ↔
    (∀ q < pes, 4 ∣ (slices q).connectivity.length ∧
      (slices q).first = ∑ r ∈ Finset.range q, (slices r).size ∧
      (decide (AllPointed pes slices) → ∀ c, (slices q).centroids = some c →
        c.size = (slices q).size)) ∧
    ∑ q ∈ Finset.range pes, (slices q).size = total := by
  constructor
  · rintro ⟨⟨hwhole, hfirst, htotal⟩, hpoints⟩
    refine ⟨?_, htotal⟩
    intro q hq
    exact ⟨hwhole q hq, hfirst q hq, fun hall => hpoints (of_decide_eq_true hall) q hq⟩
  · rintro ⟨hall, htotal⟩
    refine ⟨⟨fun q hq => (hall q hq).1, fun q hq => (hall q hq).2.1, htotal⟩, ?_⟩
    intro hpointed q hq
    exact (hall q hq).2.2 (decide_eq_true hpointed)

theorem assign_of_max_lt (l : List ElementSlice) (hmax : Gathered.maxElements < h.elements) :
    h.assign l = .error (.crash .outOfRoom) := by
  unfold assign
  rw [if_pos hmax]
  rfl

/-- Slices that do not cover the mesh are refused, and the partitioner is not asked. -/
theorem assign_of_not_tiles (hmax : h.elements ≤ Gathered.maxElements)
    (hn : ¬ (Tiles pes slices h.elements ∧ (AllPointed pes slices → PointsFit pes slices))) :
    ∃ e, h.assign ((List.range pes).map slices) = .error (.error e) := by
  have hmax' := Nat.not_lt.2 hmax
  cases hg : Gathered.addAll (decide (AllPointed pes slices)) 0 {}
      ((List.range pes).map slices) with
  | error e =>
    use e
    simp only [assign, hmax', all_pointed, hg, ↓reduceIte, bind, Except.bind, Except.mapError]
  | ok g =>
    obtain ⟨hall, rfl⟩ := addAll_eq_ok_iff.1 hg
    have htotal : (gathered (decide (AllPointed pes slices)) slices pes).elements ≠ h.elements :=
      fun htotal => hn (tiles_iff.2 ⟨hall, htotal⟩)
    simp only [assign, hmax', all_pointed, hg, htotal, ↓reduceIte, bind, Except.bind,
      Except.mapError, ne_eq, not_false_eq_true, throw, throwThe, MonadExceptOf.throw]
    exact ⟨_, rfl⟩

/-- Slices that cover the mesh are partitioned by one question. -/
theorem assign_of_tiles (hmax : h.elements ≤ Gathered.maxElements)
    (ht : Tiles pes slices h.elements) (hp : AllPointed pes slices → PointsFit pes slices) :
    h.assign ((List.range pes).map slices) =
      match h.partitioner.assign (inputFrom pes slices h.elements) h.units with
      | .error e => .error (e.map .partition)
      | .ok ids =>
          if ids.length = h.elements then .ok ids
          else .error (.error (.internal 0
            (.assigned h.partitioner.name ids.length h.elements))) := by
  obtain ⟨hall, htotal⟩ := tiles_iff.1 ⟨ht, hp⟩
  have hg := addAll_eq_ok_iff.2 ⟨hall, rfl⟩
  have htotal' : (gathered (decide (AllPointed pes slices)) slices pes).elements = h.elements :=
    htotal
  simp only [assign, Nat.not_lt.2 hmax, all_pointed, hg, htotal', inputFrom_eq htotal, ↓reduceIte,
    bind, Except.bind, Except.mapError, ne_eq, not_true_eq_false]
  generalize h.partitioner.assign _ h.units = answer
  cases answer with
  | error e => rfl
  | ok ids => rfl

/-- The host has an answer exactly if the mesh is covered, and the partitioner gives as many parts
as there are elements. -/
theorem assign_eq_ok_iff {ids : List Nat} : h.assign ((List.range pes).map slices) = .ok ids ↔
    h.elements ≤ Gathered.maxElements ∧ Tiles pes slices h.elements ∧
      (AllPointed pes slices → PointsFit pes slices) ∧
      h.partitioner.assign (inputFrom pes slices h.elements) h.units = .ok ids ∧
      ids.length = h.elements := by
  by_cases hmax : Gathered.maxElements < h.elements
  · rw [assign_of_max_lt _ hmax]
    simp [Nat.not_le.2 hmax]
  have hroom := Nat.not_lt.1 hmax
  by_cases ht : Tiles pes slices h.elements ∧ (AllPointed pes slices → PointsFit pes slices)
  · rw [assign_of_tiles hroom ht.1 ht.2, and_iff_right hroom, and_iff_right ht.1,
      and_iff_right ht.2]
    cases h.partitioner.assign (inputFrom pes slices h.elements) h.units with
    | error e => simp
    | ok answer =>
      dsimp only
      split
      · next hlen =>
        constructor
        · rintro ⟨⟩
          exact ⟨rfl, hlen⟩
        · rintro ⟨⟨⟩, -⟩
          rfl
      · next hlen =>
        constructor
        · rintro ⟨⟩
        · rintro ⟨⟨⟩, hlen'⟩
          exact absurd hlen' hlen
  · obtain ⟨e, he⟩ := assign_of_not_tiles hroom ht
    rw [he]
    constructor
    · rintro ⟨⟩
    · rintro ⟨-, htiles, hpoints, -⟩
      exact absurd ⟨htiles, hpoints⟩ ht

/-- Unless the partitioner crashes, only the number of elements makes the host crash. -/
theorem of_assign_eq_crash {cause : Crash}
    (hp : ∀ input parts cause, h.partitioner.assign input parts ≠ .error (.crash cause))
    (hcrash : h.assign ((List.range pes).map slices) = .error (.crash cause)) :
    Gathered.maxElements < h.elements ∧ cause = .outOfRoom := by
  by_cases hmax : Gathered.maxElements < h.elements
  · rw [assign_of_max_lt _ hmax] at hcrash
    cases hcrash
    exact ⟨hmax, rfl⟩
  have hroom := Nat.not_lt.1 hmax
  exfalso
  by_cases ht : Tiles pes slices h.elements ∧ (AllPointed pes slices → PointsFit pes slices)
  · rw [assign_of_tiles hroom ht.1 ht.2] at hcrash
    cases hanswer : h.partitioner.assign (inputFrom pes slices h.elements) h.units with
    | error e =>
      rw [hanswer] at hcrash
      cases e with
      | error e => cases hcrash
      | crash cause => exact hp _ _ _ hanswer
    | ok answer =>
      rw [hanswer] at hcrash
      dsimp only at hcrash
      split at hcrash <;> cases hcrash
  · obtain ⟨e, he⟩ := assign_of_not_tiles hroom ht
    cases he.symm.trans hcrash

end Slices

/-! ### The last contribution -/

section Last

variable {slices : Nat → ElementSlice} {loads : Nat → Nat}

/-- The slices cover a mesh of `total` elements, and the partitioner gives each of them a part. -/
structure Answers (h : Host) (slices : Nat → ElementSlice) (total units : Nat) (ids : List Nat) :
    Prop where
  room : total ≤ Gathered.maxElements
  decided : h.decideUnits total = .ok units
  tiles : Tiles h.pes slices total
  points : AllPointed h.pes slices → PointsFit h.pes slices
  assigned : h.partitioner.assign (inputFrom h.pes slices total) units = .ok ids
  length : ids.length = total

/-- At the call that completes the first barrier the host has all loads and slices. -/
theorem New.values_of_completes (hn : start.New pes) (ht : start.Tallied)
    (hlast : start.Completes (some .partition) early (pe, c))
    (hloads : ∀ q < pes, start.Takes q (.load (loads q)) (early ++ [(pe, c)]))
    (hslices : ∀ q < pes, start.Takes q (.elements (slices q)) (early ++ [(pe, c)])) :
    ((start.after early).taken pe c).loads.values = (List.range pes).map loads ∧
      ((start.after early).taken pe c).slices.values = (List.range pes).map slices := by
  obtain ⟨-, ha, -⟩ := (hn.completes_iff ht).1 hlast
  have hlt := ((ht.after early).taken ha).lt
  rw [pes_taken, hn.pes_after] at hlt
  constructor
  · apply values_eq_map (hlt .load)
    intro q hq
    have hkept := hn.kept?_of_completes ht hlast rfl (hloads q hq)
    obtain ⟨n, hn, heq⟩ := Option.map_eq_some_iff.1 hkept
    rw [hn, Contribution.load.inj heq]
  · apply values_eq_map (hlt .elements)
    intro q hq
    have hkept := hn.kept?_of_completes ht hlast rfl (hslices q hq)
    obtain ⟨s, hs, heq⟩ := Option.map_eq_some_iff.1 hkept
    rw [hs, Contribution.elements.inj heq]

/-- The last contribution makes the host decide on a number of units, gather the slices and share
out the answer of the partitioner. -/
theorem New.result_of_completes (hn : start.New pes) (ht : start.Tallied)
    (hlast : start.Completes (some .partition) early (pe, c))
    (hloads : ∀ q < pes, start.Takes q (.load (loads q)) (early ++ [(pe, c)]))
    (hslices : ∀ q < pes, start.Takes q (.elements (slices q)) (early ++ [(pe, c)])) :
    let total := ∑ q ∈ Finset.range pes, loads q
    let answer := ((start.after early).contribute pe c).result
    (∃ e, start.decideUnits total = .error e ∧ answer = .error (.error e)) ∨
      ∃ units, ∃ g : Host, start.decideUnits total = .ok units ∧ g.elements = total ∧
        g.units = units ∧ g.partitioner = start.partitioner ∧
        answer = (g.assign ((List.range pes).map slices)).map
          (scatter units 0 ((List.range pes).map slices)) := by
  intro total answer
  obtain ⟨hk, ha, hready⟩ := (hn.completes_iff ht).1 hlast
  obtain ⟨hvalues, hslices'⟩ := hn.values_of_completes ht hlast hloads hslices
  obtain ⟨-, hl, hs, he⟩ := ready_partition_iff.1 hready
  have hall : (((start.after early).taken pe c).loads.complete &&
      ((start.after early).taken pe c).setups.complete &&
      ((start.after early).taken pe c).slices.complete) = true := by
    rw [hl, hs, he]
    rfl
  have hsum : ((start.after early).taken pe c).loads.values.foldr (· + ·) 0 = total := by
    rw [hvalues]
    rfl
  have hanswer : answer = ((start.after early).taken pe c).tryPartition.result := by
    rw [← contribute_of_partition ((ht.after early).orderly.lt_room ha) ha.2 hk]
  have hdecides := hn.orderly.decides_after early
  have htaken := decides_taken (start.after early) pe c
  have hpes : ((start.after early).taken pe c).pes = start.pes :=
    pes_taken.trans (hn.orderly.pes_after early)
  have hunits := decideUnits_congr (htaken.1.trans hdecides.1) hpes total
  cases hd : start.decideUnits total with
  | error e =>
    left
    rw [hd] at hunits
    have hfails := tryPartition_of_error hall hsum hunits
    exact ⟨e, rfl, hanswer.trans (congrArg Outcome.result hfails)⟩
  | ok units =>
    right
    rw [hd] at hunits
    have hpartition := tryPartition_of_ok hall hsum hunits
    rw [hslices'] at hpartition
    refine ⟨units, _, rfl, ?_, ?_, ?_, hanswer.trans (congrArg Outcome.result hpartition)⟩
    · rfl
    · rfl
    · exact htaken.2.trans hdecides.2

theorem answers_iff {g : Host} {total units : Nat} {ids : List Nat}
    (hd : start.decideUnits total = .ok g.units) (helements : g.elements = total)
    (hpartitioner : g.partitioner = start.partitioner) :
    start.Answers slices total units ids ↔
      units = g.units ∧ g.assign ((List.range start.pes).map slices) = .ok ids := by
  rw [assign_eq_ok_iff, helements, hpartitioner]
  constructor
  · rintro ⟨hroom, hdecided, htiles, hpoints, hassigned, hlen⟩
    cases hd.symm.trans hdecided
    exact ⟨rfl, hroom, htiles, hpoints, hassigned, hlen⟩
  · rintro ⟨rfl, hroom, htiles, hpoints, hassigned, hlen⟩
    exact ⟨hroom, hd, htiles, hpoints, hassigned, hlen⟩

/-- The call that completes the first barrier partitions the mesh exactly if the slices of the ranks
cover as many elements as the ranks reported, with a point for each if all bring points, and the
partitioner answers with one part for every element. Then every rank is told the parts of its own
elements, in the order of the ranks, and nothing of the answer is left over. Otherwise the call
fails and tells nobody anything; it crashes only where there is no room for as many elements as
were reported. What the ranks report must add up to a machine word. -/
theorem partitions_covered_mesh {settings : Settings} {h₀ : Host}
    (hc : create pes settings = .ok h₀) {p : Partitioner}
    (hp : ∀ input parts cause, p.assign input parts ≠ .error (.crash cause))
    (hlast : (h₀.withPartitioner p).Completes (some .partition) early (pe, c))
    (hloads : ∀ q < pes,
      (h₀.withPartitioner p).Takes q (.load (loads q)) (early ++ [(pe, c)]))
    (hslices : ∀ q < pes,
      (h₀.withPartitioner p).Takes q (.elements (slices q)) (early ++ [(pe, c)])) :
    let start := h₀.withPartitioner p
    let total := ∑ q ∈ Finset.range pes, loads q
    let answer := ((start.after early).contribute pe c).result
    total < 2 ^ 64 →
    (∀ ds, answer = .ok ds → ∃ units ids, start.Answers slices total units ids ∧
      ∃ shares : Nat → List Nat,
        ds = (List.range pes).map (fun q => .tell q (.partition units (shares q))) ∧
        (∀ q < pes, (shares q).length = (slices q).size) ∧
        (List.range pes).flatMap shares = ids) ∧
    ((∃ units ids, start.Answers slices total units ids) → ∃ ds, answer = .ok ds) ∧
    ((∃ ds, answer = .ok ds) ∨ (∃ e, answer = .error (.error e)) ∨
      Gathered.maxElements < total ∧ answer = .error (.crash .outOfRoom)) := by
  intro start total answer _
  have hn : start.New pes := new_create hc p
  have ht : start.Tallied := tallied_create hc p
  obtain ⟨e, hd, hanswer⟩ | ⟨units, g, hd, helements, rfl, hpartitioner, hanswer⟩ :=
    hn.result_of_completes ht hlast hloads hslices
  · -- there is no number of units for as many elements
    refine ⟨?_, ?_, .inr (.inl ⟨e, hanswer⟩)⟩
    · intro ds hds
      cases hanswer.symm.trans hds
    · rintro ⟨units, ids, hyes⟩
      cases hd.symm.trans hyes.decided
  have hiff {units ids} : start.Answers slices total units ids ↔ _ :=
    answers_iff hd helements hpartitioner
  rw [hn.pes] at hiff
  have hanswer' : answer = (g.assign ((List.range pes).map slices)).map
      (scatter g.units 0 ((List.range pes).map slices)) := hanswer
  cases hg : g.assign ((List.range pes).map slices) with
  | ok ids =>
    have hyes : start.Answers slices total g.units ids := hiff.2 ⟨rfl, hg⟩
    rw [hg] at hanswer'
    refine ⟨?_, ?_, .inl ⟨_, hanswer'⟩⟩
    · intro ds hds
      cases hanswer'.symm.trans hds
      obtain ⟨hlens, hall⟩ := shares_of_total (hyes.length.trans (hn.pes ▸ hyes.tiles.total).symm)
      exact ⟨g.units, ids, hyes, _, scatter_eq_map_shareOf g.units ids pes, hlens, hall⟩
    · rintro -
      exact ⟨_, hanswer'⟩
  | error e =>
    rw [hg] at hanswer'
    have hnone : ¬ ∃ units ids, start.Answers slices total units ids := by
      rintro ⟨units, ids, hyes⟩
      cases hg.symm.trans (hiff.1 hyes).2
    refine ⟨?_, ?_, .inr ?_⟩
    · intro ds hds
      cases hanswer'.symm.trans hds
    · intro hyes
      exact absurd hyes hnone
    · cases e with
      | error e => exact .inl ⟨e, hanswer'⟩
      | crash cause =>
        obtain ⟨hmax, rfl⟩ := of_assign_eq_crash (hpartitioner ▸ hp) hg
        exact .inr ⟨hmax.trans_eq helements, hanswer'⟩

/-- A host for two ranks and two units of work. -/
def ofPair : Host where
  pes := 2
  settings := { algorithm := .elementOrder, units := some 2 }
  partitioner := Algorithm.elementOrder.partitioner
  loads := .empty 2
  setups := .empty 2
  slices := .empty 2
  distributions := .empty 2
  flattenings := .empty 2
  nodeSets := .empty 2
  costs := .empty 2
  deviations := .empty 2

/-- Three elements, of which the second rank reads two. -/
def pairSlices (q : Nat) : ElementSlice :=
  if q = 0 then ⟨0, [10, 11, 12, 13], none⟩ else ⟨1, [11, 12, 13, 14, 12, 13, 14, 15], none⟩

/-- All but the slice of the first rank, out of turn, and a second load that is refused. -/
def pairCalls : List (Nat × Contribution) :=
  [(1, .elements (pairSlices 1)), (0, .setup), (1, .load 2), (1, .load 5), (0, .load 1),
    (1, .setup)]

/-- Three answers are shared out to two ranks. -/
theorem pair_partitions_covered_mesh :
    let start := ofPair.withPartitioner (.constant "fixed" false [1, 0, 0])
    create 2 ofPair.settings = .ok ofPair ∧
    start.Completes (some .partition) pairCalls (0, .elements (pairSlices 0)) ∧
    ((start.after pairCalls).contribute 0 (.elements (pairSlices 0))).result =
      .ok [.tell 0 (.partition 2 [1]), .tell 1 (.partition 2 [0, 0])] ∧
    ∃ units ids, start.Answers pairSlices 3 units ids := by
  intro start
  have hc : create 2 ofPair.settings = .ok ofPair := rfl
  have hp : ∀ input parts cause, (Partitioner.constant "fixed" false [1, 0, 0]).assign input parts ≠
      .error (.crash cause) := nofun
  have hlast : start.Completes (some .partition) pairCalls (0, .elements (pairSlices 0)) := by
    rw [(new_create hc _).completes_iff (tallied_create hc _)]
    exact ⟨rfl, by decide, ready_partition_iff.2 (by decide)⟩
  have hloads : ∀ q < 2, start.Takes q (.load (q + 1))
      (pairCalls ++ [(0, .elements (pairSlices 0))]) := by
    intro q hq
    match q, hq with
    | 0, _ => exact ⟨pairCalls.take 4, _, rfl, by decide⟩
    | 1, _ => exact ⟨pairCalls.take 2, _, rfl, by decide⟩
  have hslices : ∀ q < 2, start.Takes q (.elements (pairSlices q))
      (pairCalls ++ [(0, .elements (pairSlices 0))]) := by
    intro q hq
    match q, hq with
    | 0, _ => exact ⟨pairCalls, [], rfl, by decide⟩
    | 1, _ => exact ⟨[], _, rfl, by decide⟩
  have htold : ((start.after pairCalls).contribute 0 (.elements (pairSlices 0))).result =
      .ok [.tell 0 (.partition 2 [1]), .tell 1 (.partition 2 [0, 0])] := by decide
  obtain ⟨hshared, -, -⟩ := partitions_covered_mesh hc hp hlast hloads hslices (by decide)
  obtain ⟨units, ids, hanswers, -⟩ := hshared _ htold
  exact ⟨hc, hlast, htold, units, ids, hanswers⟩

/-- The host makes room for as many elements as the ranks report, before it compares their number
with that of the gathered ones. A report out of all proportion makes it crash. -/
theorem reported_elements_crash :
    let start := lone.withPartitioner (.constant "fixed" false [])
    let calls := [(0, .load (2 ^ 58)), (0, .setup)]
    create 1 lone.settings = .ok lone ∧
    start.Completes (some .partition) calls (0, .elements ⟨0, [], none⟩) ∧
    ((start.after calls).contribute 0 (.elements ⟨0, [], none⟩)).result =
      .error (.crash .outOfRoom) := by
  intro start calls
  have hc : create 1 lone.settings = .ok lone := rfl
  refine ⟨hc, ?_, by decide⟩
  rw [(new_create hc _).completes_iff (tallied_create hc _)]
  exact ⟨rfl, by decide, ready_partition_iff.2 (by decide)⟩

end Last

end Host
end MeshDecomp
