import MeshDecomp.Proofs.GrowthLookups
import MeshDecomp.Proofs.Validity

/-!
What validated input cannot do. With every look-up, write and division checked, a partitioner either
settles on an answer or an error, or it needs a point and an axis other than the first ends early:
only the first axis is compared with the elements.
-/

namespace MeshDecomp

open Checked

variable {i : PartitionInput} {m : Nat}

namespace Partitioner

/-- The runs in the order of the elements, with checked divisions. -/
def elementOrderIn (i : PartitionInput) (m : Nat) : Except (Failure PartitionError) (List Nat) :=
  i.elements.mapM fun e =>
    if i.total ≤ e then .error (.error (.invalidInput (.beyondMesh e i.total)))
    else (quotient (e * m) i.total).mapError .crash

/-- Grown parts of a graph that is built and read with checks. -/
def graphGrowingIn (i : PartitionInput) (m : Nat) : Except (Failure PartitionError) (List Nat) :=
  let ids := i.connectivity
  if ids.length % 4 ≠ 0 then
    .error (.error (.invalidInput (.connectivity (.malformedConnectivity ids.length))))
  else do
    let g ← (FaceGraph.buildIn ids).mapError .crash
    (Growth.growIn g m).mapError .crash

theorem elementOrderIn_eq (hi : i.validate = .ok ()) (hm : 0 < m) :
    elementOrderIn i m = elementOrder.assign i m := by
  rw [elementOrder_of_valid hi hm]
  unfold elementOrderIn
  generalize i.elements = es
  induction es with
  | nil => rfl
  | cons e es ih =>
    rw [List.mapM_cons, List.mapM_cons, ih, elementOrder.part]
    by_cases hbeyond : i.total ≤ e
    · rw [if_pos hbeyond, if_pos hbeyond]
      rfl
    · have htotal : 0 < i.total := Nat.zero_lt_of_lt (Nat.lt_of_not_le hbeyond)
      rw [if_neg hbeyond, if_neg hbeyond, quotient_of_pos htotal]
      change Except.ok _ >>= _ = Except.mapError _ (Except.ok _ >>= _)
      rw [ok_bind, ok_bind]
      cases es.mapM (elementOrder.part i.total m) <;> rfl

theorem graphGrowingIn_eq (hi : i.validate = .ok ()) (hm : 0 < m) :
    graphGrowingIn i m = graphGrowing.assign i m := by
  have hlen := (PartitionInput.validate_eq_ok_iff.1 hi).1
  have hwhole : ¬ i.connectivity.length % 4 ≠ 0 := by
    rw [hlen, Nat.mul_mod_right]
    exact not_not.2 rfl
  rw [(graphGrowing_of_valid hi hm).2, graphGrowingIn, if_neg hwhole, FaceGraph.buildIn_eq]
  change Except.mapError Failure.crash (Growth.growIn _ m) = _
  rw [Growth.growIn_eq (FaceGraph.readable_ofTets _) hm]
  rfl

end Partitioner

namespace Algorithm

open Partitioner (guarded ofCentroids)

/-- The partitioners with all checks, for any selection at the cuts. -/
def answerIn (S : Bisection.Selection) :
    Algorithm → PartitionInput → Nat → Except (Failure PartitionError) (List Nat)
  | coordinateBisection => (ofCentroids "rcb" (Bisection.partsIn S Bisection.widestAxis)).assign
  | inertialBisection => (ofCentroids "rib" (Bisection.partsIn S Bisection.principalAxis)).assign
  | hilbertCurve => (ofCentroids "hsfc" Hilbert.partsIn).assign
  | elementOrder => guarded Partitioner.elementOrderIn
  | graphGrowing => guarded Partitioner.graphGrowingIn
  | multilevel => multilevel.partitioner.assign

/-- Whether points are read for `n` elements and `m` parts. -/
def ReadsPoints (n m : Nat) : Algorithm → Prop
  | coordinateBisection | inertialBisection => ¬ (m ≤ 1 ∨ n ≤ 1)
  | hilbertCurve => True
  | elementOrder | graphGrowing | multilevel => False

/-- A point is read that an axis does not have. -/
def MissesPoints (a : Algorithm) (i : PartitionInput) (m : Nat) : Prop :=
  a.ReadsPoints i.size m ∧ ∃ c, i.centroids = some c ∧ ¬ c.Reaches i.size

end Algorithm

/-- An answer, or an error that is handed to the caller. -/
def Settled (r : Except (Failure ε) α) : Prop :=
  (∃ x, r = .ok x) ∨ ∃ e, r = .error (.error e)

theorem settled_mapError (r : Except ε α) : Settled (r.mapError Failure.error) := by
  cases r with
  | ok x => exact .inl ⟨x, rfl⟩
  | error e => exact .inr ⟨e, rfl⟩

namespace Partitioner

theorem settled_ofCentroids (hi : i.validate = .ok ()) (hm : 0 < m) (name : String)
    {assign : Centroids → (size parts : Nat) → Except Crash (List Nat)}
    (h : ∀ c, i.centroids = some c → ∃ ids, assign c i.size m = .ok ids) :
    Settled ((ofCentroids name assign).assign i m) := by
  cases hc : i.centroids with
  | none =>
    refine .inr ⟨.missingCentroids name, ?_⟩
    apply (guarded_of_valid hi hm _).trans
    rw [hc]
  | some c =>
    obtain ⟨ids, hids⟩ := h c hc
    refine .inl ⟨ids, ?_⟩
    rw [ofCentroids_of_valid hi hm hc, hids]
    rfl

theorem ofCentroids_congr (name : String)
    {assign assign' : Centroids → (size parts : Nat) → Except Crash (List Nat)}
    (h : 0 < m → ∀ c, c.size = i.size → assign c i.size m = assign' c i.size m) :
    (ofCentroids name assign).assign i m = (ofCentroids name assign').assign i m := by
  apply guarded_congr
  intro hi hm
  cases hc : i.centroids with
  | none => rfl
  | some c =>
    have hsame := h hm c ((PartitionInput.validate_eq_ok_iff.1 hi).2 c hc)
    dsimp only
    rw [hsame]

theorem settled_elementOrder (hi : i.validate = .ok ()) (hm : 0 < m) :
    Settled (elementOrder.assign i m) := by
  rw [elementOrder_of_valid hi hm]
  exact settled_mapError _

theorem settled_graphGrowing (hi : i.validate = .ok ()) (hm : 0 < m) :
    Settled (graphGrowing.assign i m) := by
  rw [(graphGrowing_of_valid hi hm).2]
  exact .inl ⟨_, rfl⟩

end Partitioner

namespace Algorithm

theorem answerIn_sorting (a : Algorithm) (i : PartitionInput) (m : Nat) :
    a.answerIn .sorting i m = a.partitioner.assign i m := by
  cases a with
  | coordinateBisection =>
    exact Partitioner.ofCentroids_congr _ fun _ c hc => Bisection.partsIn_sorting _ hc m
  | inertialBisection =>
    exact Partitioner.ofCentroids_congr _ fun _ c hc => Bisection.partsIn_sorting _ hc m
  | hilbertCurve =>
    change (Partitioner.ofCentroids _ Hilbert.partsIn).assign i m =
      Partitioner.hilbertCurve.assign i m
    unfold Partitioner.hilbertCurve
    apply Partitioner.ofCentroids_congr
    intro hm c hc
    exact Hilbert.partsIn_eq hm hc
  | elementOrder =>
    apply Partitioner.guarded_congr
    intro hi hm
    rw [Partitioner.elementOrderIn_eq hi hm]
    exact Partitioner.elementOrder_of_valid hi hm
  | graphGrowing =>
    apply Partitioner.guarded_congr
    intro hi hm
    rw [Partitioner.graphGrowingIn_eq hi hm]
    unfold Partitioner.graphGrowing
    dsimp only
    rw [Partitioner.guarded_of_valid hi hm]
  | multilevel => rfl

/-- With points for all elements, or none to read, bisection has an answer. -/
theorem exists_partsIn (S : Bisection.Selection) (toward : List Bisection.Item → Point)
    {c : Centroids} {n : Nat} (h : m ≤ 1 ∨ n ≤ 1 ∨ c.Reaches n) :
    ∃ ids, Bisection.partsIn S toward c n m = .ok ids := by
  rw [← or_assoc] at h
  rcases h with hfew | hreach
  · exact ⟨_, Bisection.partsIn_of_few S toward c hfew⟩
  · exact ⟨_, Bisection.partsIn_of_reaches S toward hreach m⟩

theorem settled_answerIn (hi : i.validate = .ok ()) (hm : 0 < m) (S : Bisection.Selection)
    {a : Algorithm} (h : ¬ a.MissesPoints i m) : Settled (a.answerIn S i m) := by
  have hreach {c : Centroids} (hc : i.centroids = some c) (hreads : a.ReadsPoints i.size m) :
      c.Reaches i.size := by
    by_contra hshort
    exact h ⟨hreads, c, hc, hshort⟩
  have hcuts {c : Centroids} (hc : i.centroids = some c)
      (hreads : ¬ (m ≤ 1 ∨ i.size ≤ 1) → a.ReadsPoints i.size m) :
      m ≤ 1 ∨ i.size ≤ 1 ∨ c.Reaches i.size := by
    by_cases hfew : m ≤ 1 ∨ i.size ≤ 1
    · exact hfew.imp_right .inl
    · exact .inr (.inr (hreach hc (hreads hfew)))
  cases a with
  | coordinateBisection =>
    exact Partitioner.settled_ofCentroids hi hm _ fun c hc => exists_partsIn S _ (hcuts hc id)
  | inertialBisection =>
    exact Partitioner.settled_ofCentroids hi hm _ fun c hc => exists_partsIn S _ (hcuts hc id)
  | hilbertCurve =>
    exact Partitioner.settled_ofCentroids hi hm _ fun c hc =>
      ⟨_, Hilbert.partsIn_of_reaches hm (hreach hc trivial)⟩
  | elementOrder =>
    have heq : answerIn S elementOrder i m = Partitioner.elementOrder.assign i m :=
      answerIn_sorting elementOrder i m
    rw [heq]
    exact Partitioner.settled_elementOrder hi hm
  | graphGrowing =>
    have heq : answerIn S graphGrowing i m = Partitioner.graphGrowing.assign i m :=
      answerIn_sorting graphGrowing i m
    rw [heq]
    exact Partitioner.settled_graphGrowing hi hm
  | multilevel => exact .inr ⟨_, rfl⟩

theorem answerIn_of_missesPoints (hi : i.validate = .ok ()) (hm : 0 < m)
    (S : Bisection.Selection) {a : Algorithm} (h : a.MissesPoints i m) :
    a.answerIn S i m = .error (.crash .indexOutOfBounds) := by
  obtain ⟨hreads, c, hc, hshort⟩ := h
  have hcrash {name : String} {assign : Centroids → (size parts : Nat) → Except Crash (List Nat)}
      (h : assign c i.size m = .error .indexOutOfBounds) :
      (Partitioner.ofCentroids name assign).assign i m = .error (.crash .indexOutOfBounds) := by
    rw [Partitioner.ofCentroids_of_valid hi hm hc, h]
    rfl
  cases a with
  | coordinateBisection => exact hcrash (Bisection.partsIn_of_not_reaches S _ hshort hreads)
  | inertialBisection => exact hcrash (Bisection.partsIn_of_not_reaches S _ hshort hreads)
  | hilbertCurve => exact hcrash (Hilbert.partsIn_of_not_reaches hshort)
  | elementOrder => exact hreads.elim
  | graphGrowing => exact hreads.elim
  | multilevel => exact hreads.elim

/-- The partitioner with a routine of one's own at its cuts. -/
def selecting (S : Bisection.Selection) (a : Algorithm) : Partitioner where
  name := a.name
  geometric := a.geometric
  assign := a.answerIn S

theorem selecting_sorting (a : Algorithm) : a.selecting .sorting = a.partitioner := by
  have hassign : a.answerIn .sorting = a.partitioner.assign := by
    funext i m
    exact a.answerIn_sorting i m
  rw [selecting, hassign, ← name_partitioner]
  rfl

/-- Only cuts are made by selection. -/
theorem selecting_of_other {a : Algorithm} (hc : a ≠ coordinateBisection)
    (hi : a ≠ inertialBisection) (S : Bisection.Selection) : a.selecting S = a.partitioner := by
  rw [← a.selecting_sorting]
  cases a with
  | coordinateBisection => exact absurd rfl hc
  | inertialBisection => exact absurd rfl hi
  | _ => rfl

end Algorithm

/-- On input that has passed validation, a partitioner that checks everything it does answers what
the partitioner answers; it crashes where it reads a point that an axis does not have, and settles
everywhere else. -/
theorem validated_input_settles (hi : i.validate = .ok ()) (hm : 0 < m) (S : Bisection.Selection)
    (a : Algorithm) :
    (¬ a.MissesPoints i m → Settled (a.answerIn S i m)) ∧
      (a.MissesPoints i m → a.answerIn S i m = .error (.crash .indexOutOfBounds)) ∧
      a.answerIn .sorting i m = a.partitioner.assign i m :=
  ⟨a.settled_answerIn hi hm S, a.answerIn_of_missesPoints hi hm S, a.answerIn_sorting i m⟩

/-- Three elements with a coordinate too many. -/
def surplusCoordinate : PartitionInput where
  connectivity := List.range 12
  centroids := some ⟨[.one, .zero, .one], [.one, .zero, .zero, .one], [.zero, .zero, .zero]⟩
  elements := [0, 1, 2]
  total := 3

theorem not_missesPoints_surplusCoordinate (a : Algorithm) (m : Nat) :
    ¬ a.MissesPoints surplusCoordinate m := by
  rintro ⟨-, c, ⟨⟩, hshort⟩
  apply hshort
  intro a
  cases a <;> decide

theorem surplus_coordinate_settles :
    surplusCoordinate.validate = .ok () ∧ 0 < 2 ∧
      ¬ Algorithm.coordinateBisection.MissesPoints surplusCoordinate 2 ∧
      Settled (Algorithm.coordinateBisection.answerIn .turned surplusCoordinate 2) :=
  ⟨by decide, Nat.two_pos, not_missesPoints_surplusCoordinate _ _,
    (validated_input_settles (by decide) Nat.two_pos .turned .coordinateBisection).1
      (not_missesPoints_surplusCoordinate _ _)⟩

/-- Three elements with one coordinate on the second axis. -/
def shortAxis : PartitionInput where
  connectivity := List.range 12
  centroids := some ⟨[.one, ⟨0x4000000000000000⟩, ⟨0x4008000000000000⟩], [.one],
    [.zero, .zero, .zero]⟩
  elements := [0, 1, 2]
  total := 3

/-- Validation passes an axis that ends early, and the cut reads beyond its end. -/
theorem validated_short_axis_crashes :
    shortAxis.validate = .ok () ∧
      Algorithm.coordinateBisection.partitioner.assign shortAxis 2 =
        .error (.crash .indexOutOfBounds) :=
  ⟨by decide, rfl⟩

end MeshDecomp
