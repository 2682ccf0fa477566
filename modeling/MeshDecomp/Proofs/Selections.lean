import MeshDecomp.Proofs.Shares

/-!
Bisection by selection. A cut only has to bring the first elements of an order before the others,
and may leave both groups in any arrangement: since the order tells all elements apart, the two
groups are sets that depend on nothing else, and so does every part that comes of them.
-/

namespace MeshDecomp.Bisection

/-! ### Orders, selections and cuts -/

/-- The element with its point in a cloud. -/
def itemOf (cloud : Nat → Point) (e : Nat) : Item := ⟨e, cloud e⟩

/-- The order of the elements along `d`: by the place of their projections, then by number. -/
def along (cloud : Nat → Point) (d : Point) (a b : Nat) : Bool :=
  (itemOf cloud a).before d (itemOf cloud b)

/-- An order that tells all elements apart. -/
structure Linear (order : Nat → Nat → Bool) : Prop where
  total : ∀ a b, (order a b || order b a) = true
  trans : ∀ a b c, order a b = true → order b c = true → order a c = true
  antisymm : ∀ a b, order a b = true → order b a = true → a = b

theorem linear_along (cloud : Nat → Point) (d : Point) : Linear (along cloud d) where
  total _ _ := Projected.before_total _ _
  trans _ _ _ := Projected.before_trans
  antisymm a b hab hba := by
    simp only [along, Item.before, Item.project, itemOf, Projected.before] at hab hba
    grind

/-- A routine that brings the first `k` elements of an order before the others. -/
structure Selection where
  rearrange : (order : Nat → Nat → Bool) → (k : Nat) → List Nat → List Nat
  perm : ∀ order k idx, (rearrange order k idx).Perm idx
  first : ∀ order k idx, Linear order → k < idx.length →
    ∀ a ∈ (rearrange order k idx).take k, ∀ b ∈ (rearrange order k idx).drop k, order a b = true

/-- Takes apart the elements before and after position `k`. -/
abbrev Cut := (order : Nat → Nat → Bool) → (k : Nat) → List Nat → List Nat × List Nat

/-- A selection is only made where there is something on both sides. -/
def Selection.cut (S : Selection) : Cut := fun order k idx =>
  let idx := if 0 < k ∧ k < idx.length then S.rearrange order k idx else idx
  (idx.take k, idx.drop k)

/-- Sorts all elements. -/
def sortedCut : Cut := fun order k idx =>
  ((idx.mergeSort order).take k, (idx.mergeSort order).drop k)

/-- The first `k` elements of the order, and the others. -/
structure Separates (order : Nat → Nat → Bool) (k : Nat) (idx : List Nat)
    (halves : List Nat × List Nat) : Prop where
  perm : (halves.1 ++ halves.2).Perm idx
  length : halves.1.length = k
  before : ∀ a ∈ halves.1, ∀ b ∈ halves.2, order a b = true

theorem Separates.length_others {order : Nat → Nat → Bool} {k : Nat} {idx : List Nat}
    {halves : List Nat × List Nat} (h : Separates order k idx halves) :
    halves.2.length = idx.length - k := by
  have hlen := h.perm.length_eq
  rw [List.length_append, h.length] at hlen
  omega

def Cut.Separating (cut : Cut) : Prop :=
  ∀ order k idx, Linear order → k ≤ idx.length → Separates order k idx (cut order k idx)

variable {order : Nat → Nat → Bool} {k : Nat} {idx idx' : List Nat}

theorem Selection.separating (S : Selection) : Cut.Separating S.cut := by
  intro order k idx horder hk
  unfold Selection.cut
  split
  · next h =>
    have hperm := S.perm order k idx
    exact
      { perm := by rwa [List.take_append_drop]
        length := by rw [List.length_take, hperm.length_eq, Nat.min_eq_left hk]
        before := S.first order k idx horder h.2 }
  · next h =>
    refine ⟨by rw [List.take_append_drop], by rw [List.length_take, Nat.min_eq_left hk], ?_⟩
    intro a ha b hb
    -- one of the two sides is empty
    have hlen := List.length_pos_of_mem ha
    have hlen' := List.length_pos_of_mem hb
    rw [List.length_take] at hlen
    rw [List.length_drop] at hlen'
    omega

theorem Linear.pairwise_mergeSort (horder : Linear order) (idx : List Nat) :
    (idx.mergeSort order).Pairwise fun a b => order a b = true :=
  List.pairwise_mergeSort horder.trans horder.total idx

/-- Sorted lists of the same elements are equal. -/
theorem Linear.eq_of_pairwise (horder : Linear order)
    (h : idx.Pairwise fun a b => order a b = true)
    (h' : idx'.Pairwise fun a b => order a b = true) (hp : idx.Perm idx') : idx = idx' :=
  hp.eq_of_pairwise (fun a b _ _ => horder.antisymm a b) h h'

theorem separating_sortedCut : Cut.Separating sortedCut := by
  intro order k idx horder hk
  have hperm := List.mergeSort_perm idx order
  refine ⟨by rwa [sortedCut, List.take_append_drop], ?_, ?_⟩
  · rw [sortedCut, List.length_take, hperm.length_eq, Nat.min_eq_left hk]
  · have hsorted := horder.pairwise_mergeSort idx
    rw [← List.take_append_drop k (idx.mergeSort order), List.pairwise_append] at hsorted
    exact hsorted.2.2

/-- Both sides sorted one after the other are all elements sorted. -/
theorem Separates.mergeSort_append {halves : List Nat × List Nat} (horder : Linear order)
    (h : Separates order k idx halves) :
    halves.1.mergeSort order ++ halves.2.mergeSort order = idx.mergeSort order := by
  have hsorted : (halves.1.mergeSort order ++ halves.2.mergeSort order).Pairwise
      fun a b => order a b = true := by
    rw [List.pairwise_append]
    refine ⟨horder.pairwise_mergeSort _, horder.pairwise_mergeSort _, ?_⟩
    intro a ha b hb
    exact h.before a (List.mem_mergeSort.1 ha) b (List.mem_mergeSort.1 hb)
  apply horder.eq_of_pairwise hsorted (horder.pairwise_mergeSort idx)
  have hboth : (halves.1.mergeSort order ++ halves.2.mergeSort order).Perm (halves.1 ++ halves.2) :=
    (List.mergeSort_perm _ _).append (List.mergeSort_perm _ _)
  exact hboth.trans (h.perm.trans (List.mergeSort_perm _ _).symm)

/-- The two sides of a cut are told by the set of elements. -/
theorem Separates.unique {halves halves' : List Nat × List Nat} (horder : Linear order)
    (h : Separates order k idx halves) (h' : Separates order k idx' halves')
    (hp : idx.Perm idx') : halves.1.Perm halves'.1 ∧ halves.2.Perm halves'.2 := by
  have hsort : idx.mergeSort order = idx'.mergeSort order := by
    apply horder.eq_of_pairwise (horder.pairwise_mergeSort idx) (horder.pairwise_mergeSort idx')
    exact (List.mergeSort_perm _ _).trans (hp.trans (List.mergeSort_perm _ _).symm)
  have happend := (h.mergeSort_append horder).trans (hsort.trans (h'.mergeSort_append horder).symm)
  have hlen : (halves.1.mergeSort order).length = (halves'.1.mergeSort order).length := by
    rw [List.length_mergeSort, List.length_mergeSort, h.length, h'.length]
  obtain ⟨hleft, hright⟩ := List.append_inj happend hlen
  have hperm {l l' : List Nat} (h : l.mergeSort order = l'.mergeSort order) : l.Perm l' :=
    (List.mergeSort_perm l order).symm.trans (h ▸ List.mergeSort_perm l' order)
  exact ⟨hperm hleft, hperm hright⟩

/-! ### Bisection in place -/

/-- Writes the part of every element at its place in `out`. -/
def bisect (cut : Cut) (direction : List Nat → Point) (cloud : Nat → Point) (first parts : Nat)
    (idx : List Nat) (out : Array Nat) : Array Nat :=
  if parts ≤ 1 ∨ idx.length ≤ 1 then idx.foldl (fun out e => out.setIfInBounds e first) out
  else
    let left := parts / 2
    let halves := cut (along cloud (direction idx)) (idx.length * left / parts) idx
    bisect cut direction cloud (first + left) (parts - left) halves.2
      (bisect cut direction cloud first left halves.1 out)
termination_by parts
decreasing_by all_goals omega

/-- A cut that was made: its direction, and the elements on both sides. -/
structure Made where
  direction : Point
  left : List Nat
  right : List Nat

/-- All cuts of a bisection. -/
def cuts (cut : Cut) (direction : List Nat → Point) (cloud : Nat → Point) (parts : Nat)
    (idx : List Nat) : List Made :=
  if parts ≤ 1 ∨ idx.length ≤ 1 then []
  else
    let left := parts / 2
    let halves := cut (along cloud (direction idx)) (idx.length * left / parts) idx
    ⟨direction idx, halves.1, halves.2⟩ :: cuts cut direction cloud left halves.1 ++
      cuts cut direction cloud (parts - left) halves.2
termination_by parts
decreasing_by all_goals omega

variable {cut cut' : Cut} {direction : List Nat → Point} {cloud : Nat → Point}

theorem bisect_of_few {first parts : Nat} (h : parts ≤ 1 ∨ idx.length ≤ 1) (out : Array Nat) :
    bisect cut direction cloud first parts idx out =
      idx.foldl (fun out e => out.setIfInBounds e first) out := by
  rw [bisect, if_pos h]

theorem bisect_of_many {first parts : Nat} (h : ¬ (parts ≤ 1 ∨ idx.length ≤ 1)) (out : Array Nat) :
    bisect cut direction cloud first parts idx out =
      let left := parts / 2
      let halves := cut (along cloud (direction idx)) (idx.length * left / parts) idx
      bisect cut direction cloud (first + left) (parts - left) halves.2
        (bisect cut direction cloud first left halves.1 out) := by
  rw [bisect, if_neg h]

/-- Writes of one part are made in any order. -/
theorem foldl_write_perm (hp : idx.Perm idx') (part : Nat) (out : Array Nat) :
    idx.foldl (fun out e => out.setIfInBounds e part) out =
      idx'.foldl (fun out e => out.setIfInBounds e part) out := by
  apply hp.foldl_eq'
  intro a _ b _ out
  rcases eq_or_ne a b with rfl | hne
  · rfl
  · exact Array.setIfInBounds_comm _ _ hne

/-- Neither the arrangement of the elements nor what a cut does to it shows in the parts. -/
theorem bisect_congr (hcut : cut.Separating) (hcut' : cut'.Separating)
    (hdirection : ∀ idx idx', idx.Perm idx' → direction idx = direction idx') (first parts : Nat)
    (hp : idx.Perm idx') (out : Array Nat) :
    bisect cut direction cloud first parts idx out =
      bisect cut' direction cloud first parts idx' out := by
  induction parts using Nat.strong_induction_on generalizing first idx idx' out with
  | _ parts ih =>
    have hlen := hp.length_eq
    by_cases h : parts ≤ 1 ∨ idx.length ≤ 1
    · rw [bisect_of_few h, bisect_of_few (hlen ▸ h), foldl_write_perm hp]
    · have h' : ¬ (parts ≤ 1 ∨ idx'.length ≤ 1) := hlen ▸ h
      rw [bisect_of_many h, bisect_of_many h', ← hdirection idx idx' hp, ← hlen]
      have hlinear := linear_along cloud (direction idx)
      have hk : idx.length * (parts / 2) / parts ≤ idx.length := left_le (Nat.div_le_self parts 2) _
      have hsep := hcut _ _ idx hlinear hk
      have hsep' := hcut' _ _ idx' hlinear (hlen ▸ hk)
      rw [← hlen] at hsep'
      obtain ⟨hleft, hright⟩ := hsep.unique hlinear hsep' hp
      dsimp only
      rw [ih _ (by omega) _ hleft, ih _ (by omega) _ hright]

/-! ### The cuts that are made -/

/-- The projection of `a` comes first, or it ties with that of `b` and `a` is the lower number. -/
def Precedes (cloud : Nat → Point) (d : Point) (a b : Nat) : Prop :=
  let place := fun e => ((cloud e).dot d).place
  place a < place b ∨ place a = place b ∧ a < b

theorem precedes_of_along {d : Point} {a b : Nat} (h : along cloud d a b = true) (hne : a ≠ b) :
    Precedes cloud d a b := by
  simp only [along, Item.before, Item.project, itemOf, Projected.before] at h
  unfold Precedes
  grind

/-- Nothing that a cut sends left lies behind anything that it sends right. -/
theorem precedes_of_mem_cuts (hcut : cut.Separating) {parts : Nat} (hnodup : idx.Nodup) {c : Made}
    (hc : c ∈ cuts cut direction cloud parts idx) :
    ∀ a ∈ c.left, ∀ b ∈ c.right, Precedes cloud c.direction a b := by
  fun_induction cuts cut direction cloud parts idx with
  | case1 => exact absurd hc List.not_mem_nil
  | case2 parts idx h left halves ihl ihr =>
    have hlinear := linear_along cloud (direction idx)
    have hsep := hcut _ _ idx hlinear (left_le (Nat.div_le_self parts 2) _)
    have hboth : (halves.1 ++ halves.2).Nodup := hsep.perm.nodup_iff.2 hnodup
    obtain ⟨hleft, hright, hdisjoint⟩ := List.nodup_append.1 hboth
    rw [List.cons_append, List.mem_cons, List.mem_append] at hc
    rcases hc with rfl | hc | hc
    · intro a ha b hb
      exact precedes_of_along (hsep.before a ha b hb) (hdisjoint a ha b hb)
    · exact ihl hleft hc
    · exact ihr hright hc

/-! ### Parts in the order of the elements -/

/-- Writes every part at the place of its element. -/
def write (pairs : List (Nat × Nat)) (out : Array Nat) : Array Nat :=
  pairs.foldl (fun out e => out.setIfInBounds e.1 e.2) out

@[simp] theorem size_write (pairs : List (Nat × Nat)) (out : Array Nat) :
    (write pairs out).size = out.size := by
  induction pairs generalizing out with
  | nil => rfl
  | cons e pairs ih => exact (ih _).trans Array.size_setIfInBounds

theorem getElem?_write_of_not_mem {pairs : List (Nat × Nat)} {e : Nat}
    (he : e ∉ pairs.map Prod.fst) (out : Array Nat) : (write pairs out)[e]? = out[e]? := by
  induction pairs generalizing out with
  | nil => rfl
  | cons f pairs ih =>
    rw [List.map_cons, List.mem_cons, not_or] at he
    exact (ih he.2 _).trans (Array.getElem?_setIfInBounds_ne (Ne.symm he.1))

theorem getElem?_write {pairs : List (Nat × Nat)} (hnodup : (pairs.map Prod.fst).Nodup)
    {e p : Nat} (he : (e, p) ∈ pairs) {out : Array Nat} (hlt : e < out.size) :
    (write pairs out)[e]? = some p := by
  induction pairs generalizing out with
  | nil => exact absurd he List.not_mem_nil
  | cons f pairs ih =>
    rw [List.map_cons, List.nodup_cons] at hnodup
    rcases List.mem_cons.1 he with rfl | he
    · apply (getElem?_write_of_not_mem hnodup.1 _).trans
      exact Array.getElem?_setIfInBounds_self_of_lt hlt
    · exact ih hnodup.2 he (by rwa [Array.size_setIfInBounds])

/-- The elements in the order in which bisection comes to them, each with its part. -/
def pairs (cut : Cut) (direction : List Nat → Point) (cloud : Nat → Point) (first parts : Nat)
    (idx : List Nat) : List (Nat × Nat) :=
  if parts ≤ 1 ∨ idx.length ≤ 1 then idx.map fun e => (e, first)
  else
    let left := parts / 2
    let halves := cut (along cloud (direction idx)) (idx.length * left / parts) idx
    pairs cut direction cloud first left halves.1 ++
      pairs cut direction cloud (first + left) (parts - left) halves.2
termination_by parts
decreasing_by all_goals omega

theorem bisect_eq_write (cut : Cut) (direction : List Nat → Point) (cloud : Nat → Point)
    (first parts : Nat) (idx : List Nat) (out : Array Nat) :
    bisect cut direction cloud first parts idx out =
      write (pairs cut direction cloud first parts idx) out := by
  fun_induction pairs cut direction cloud first parts idx generalizing out with
  | case1 first parts idx h => rw [bisect_of_few h, write, List.foldl_map]
  | case2 first parts idx h left halves ihl ihr =>
    rw [bisect_of_many h]
    dsimp only
    rw [ihl, ihr, write, write, ← List.foldl_append]
    rfl

/-- Every element gets one part. -/
theorem map_fst_perm_pairs (hcut : cut.Separating) (direction : List Nat → Point)
    (cloud : Nat → Point) (first parts : Nat) (idx : List Nat) :
    ((pairs cut direction cloud first parts idx).map Prod.fst).Perm idx := by
  fun_induction pairs cut direction cloud first parts idx with
  | case1 first parts idx h =>
    rw [List.map_map]
    exact List.Perm.of_eq (List.map_id idx)
  | case2 first parts idx h left halves ihl ihr =>
    have hlinear := linear_along cloud (direction idx)
    have hsep := hcut _ _ idx hlinear (left_le (Nat.div_le_self parts 2) _)
    rw [List.map_append]
    exact (ihl.append ihr).trans hsep.perm

/-- The order in which the parts are put. -/
def byElement (a b : Nat × Nat) : Bool := a.1 ≤ b.1

theorem pairwise_mergeSort_byElement (pairs : List (Nat × Nat)) :
    ((pairs.mergeSort byElement).map Prod.fst).Pairwise (· ≤ ·) := by
  have hpairwise : (pairs.mergeSort byElement).Pairwise fun a b => byElement a b = true := by
    apply List.pairwise_mergeSort
    · intro a b c hab hbc
      exact decide_eq_true (Nat.le_trans (of_decide_eq_true hab) (of_decide_eq_true hbc))
    · intro a b
      simpa [byElement] using Nat.le_total a.1 b.1
  exact List.pairwise_map.2 (hpairwise.imp of_decide_eq_true)

theorem map_fst_mergeSort {pairs : List (Nat × Nat)} {n : Nat}
    (hperm : (pairs.map Prod.fst).Perm (List.range n)) :
    (pairs.mergeSort byElement).map Prod.fst = List.range n := by
  have hsame : ((pairs.mergeSort byElement).map Prod.fst).Perm (List.range n) :=
    ((List.mergeSort_perm pairs _).map Prod.fst).trans hperm
  exact hsame.eq_of_pairwise (fun _ _ _ _ => Nat.le_antisymm)
    (pairwise_mergeSort_byElement pairs) (List.pairwise_lt_range.imp Nat.le_of_lt)

theorem getElem?_inOrder {pairs : List (Nat × Nat)} {n : Nat}
    (hperm : (pairs.map Prod.fst).Perm (List.range n)) {e p : Nat} (he : (e, p) ∈ pairs) :
    (inOrder pairs)[e]? = some p := by
  have hmem : (e, p) ∈ pairs.mergeSort byElement := List.mem_mergeSort.2 he
  obtain ⟨k, hk⟩ := List.mem_iff_getElem?.1 hmem
  have hpos : (List.range n)[k]? = some e := by
    rw [← map_fst_mergeSort hperm, List.getElem?_map, hk]
    rfl
  obtain ⟨hlt, heq⟩ := List.getElem?_eq_some_iff.1 hpos
  obtain rfl : k = e := by rwa [List.getElem_range] at heq
  change ((pairs.mergeSort byElement).map Prod.snd)[k]? = some p
  rw [List.getElem?_map, hk]
  rfl

/-- All parts are written when every element has one. -/
theorem toList_write {pairs : List (Nat × Nat)} {n : Nat}
    (hperm : (pairs.map Prod.fst).Perm (List.range n)) {out : Array Nat} (hsize : out.size = n) :
    (write pairs out).toList = inOrder pairs := by
  have hnodup : (pairs.map Prod.fst).Nodup := hperm.nodup_iff.2 List.nodup_range
  have hlen : (inOrder pairs).length = n := by
    rw [(perm_inOrder pairs).length_eq, List.length_map, ← List.length_map (f := Prod.fst),
      hperm.length_eq, List.length_range]
  apply List.ext_getElem?
  intro e
  rw [Array.getElem?_toList]
  rcases Nat.lt_or_ge e n with hlt | hge
  · have hmem := hperm.mem_iff.2 (List.mem_range.2 hlt)
    obtain ⟨⟨_, p⟩, he, rfl⟩ := List.mem_map.1 hmem
    rw [getElem?_write hnodup he (hsize.symm ▸ hlt), getElem?_inOrder hperm he]
  · rw [List.getElem?_eq_none (hlen.symm ▸ hge), Array.getElem?_eq_none]
    rwa [size_write, hsize]

/-- Sorting selects, too. -/
def Selection.sorting : Selection where
  rearrange order _ idx := idx.mergeSort order
  perm order _ idx := List.mergeSort_perm idx order
  first _ _ _ horder hk := (separating_sortedCut _ _ _ horder hk.le).before

theorem cut_map_itemOf (d : Point) (k : Nat) (idx : List Nat) :
    Bisection.cut d k (idx.map (itemOf cloud)) =
      Prod.map (List.map (itemOf cloud)) (List.map (itemOf cloud))
        (Selection.sorting.cut (along cloud d) k idx) := by
  have hsort : (idx.map (itemOf cloud)).mergeSort (Item.before d) =
      (idx.mergeSort (along cloud d)).map (itemOf cloud) :=
    (List.map_mergeSort (r := along cloud d) (f := itemOf cloud) fun _ _ _ _ => rfl).symm
  unfold Bisection.cut Selection.cut
  rw [List.length_map]
  split
  · rw [Item.sortAlong_eq, hsort]
    dsimp only
    rw [← List.map_take, ← List.map_drop]
    rfl
  · rw [← List.map_take, ← List.map_drop]
    rfl

/-- The partitioners put into order what bisection by sorting writes. -/
theorem assign_map_itemOf (toward : List Item → Point) (first parts : Nat) (idx : List Nat) :
    assign toward first parts (idx.map (itemOf cloud)) =
      pairs Selection.sorting.cut (fun idx => toward (idx.map (itemOf cloud))) cloud first parts
        idx := by
  induction parts using Nat.strong_induction_on generalizing first idx with
  | _ parts ih =>
    have hlen : (idx.map (itemOf cloud)).length = idx.length := List.length_map _
    rw [assign, pairs, hlen]
    split
    · rw [List.map_map]
      rfl
    · dsimp only
      rw [cut_map_itemOf, ← ih _ (by omega), ← ih _ (by omega)]
      rfl

theorem write_replicate_zero (idx : List Nat) (n : Nat) :
    idx.foldl (fun out e => out.setIfInBounds e 0) (Array.replicate n 0) = Array.replicate n 0 := by
  induction idx with
  | nil => rfl
  | cons e idx ih =>
    have hsame : (Array.replicate n 0).setIfInBounds e 0 = Array.replicate n 0 := by
      simp
    rw [List.foldl_cons, hsame, ih]

/-- The partitioners write in place what they answer. -/
theorem parts_eq_bisect (toward : List Item → Point) {c : Centroids} {n : Nat}
    (hc : c.points? = some ((List.range n).map cloud)) (m : Nat) :
    parts toward c n m =
      .ok (bisect Selection.sorting.cut (fun idx => toward (idx.map (itemOf cloud))) cloud 0 m
        (List.range n) (Array.replicate n 0)).toList := by
  unfold parts
  split
  · next h =>
    have hfew : m ≤ 1 ∨ (List.range n).length ≤ 1 := by rwa [List.length_range]
    rw [bisect_of_few hfew, write_replicate_zero, Array.toList_replicate]
  · have hitems : ((List.range n).map cloud).zipIdx.map (fun p => (⟨p.2, p.1⟩ : Item)) =
        (List.range n).map (itemOf cloud) := by
      apply List.ext_getElem
      · simp
      · intro e _ _
        simp [itemOf]
    have hperm := map_fst_perm_pairs Selection.sorting.separating
      (fun idx => toward (idx.map (itemOf cloud))) cloud 0 m (List.range n)
    rw [bisect_eq_write, toList_write hperm Array.size_replicate, ← assign_map_itemOf,
      Partitioner.points, hc]
    change Except.ok (inOrder (assign toward 0 m (List.map _ _))) = _
    rw [hitems]

/-- Bisection by selection writes the same parts for all arrangements of the elements and all
selections, the parts that come of sorting at every cut; each cut takes the elements apart in their
order; and the partitioners answer these parts. -/
theorem bisection_by_any_selection
    (hdirection : ∀ idx idx', idx.Perm idx' → direction idx = direction idx') (S T : Selection)
    (hnodup : idx.Nodup) (hp : idx.Perm idx') (first parts : Nat) (out : Array Nat) :
    bisect S.cut direction cloud first parts idx out =
        bisect T.cut direction cloud first parts idx' out ∧
      bisect S.cut direction cloud first parts idx out =
        bisect sortedCut direction cloud first parts idx out ∧
      (∀ c ∈ cuts S.cut direction cloud parts idx,
        ∀ a ∈ c.left, ∀ b ∈ c.right, Precedes cloud c.direction a b) ∧
      ∀ n (c : Centroids), c.points? = some ((List.range n).map cloud) →
        idx.Perm (List.range n) →
        Bisection.parts (fun items => direction (items.map Item.element)) c n parts =
          .ok (bisect S.cut direction cloud 0 parts idx (Array.replicate n 0)).toList := by
  refine ⟨bisect_congr S.separating T.separating hdirection first parts hp out,
    bisect_congr S.separating separating_sortedCut hdirection first parts (List.Perm.refl idx) out,
    fun c hc => precedes_of_mem_cuts S.separating hnodup hc, ?_⟩
  intro n c hc hrange
  have htoward :
      (fun idx => direction ((idx.map (itemOf cloud)).map Item.element)) = direction := by
    funext idx
    rw [List.map_map]
    exact congrArg direction (List.map_id idx)
  rw [parts_eq_bisect _ hc, htoward,
    bisect_congr Selection.sorting.separating S.separating hdirection 0 parts hrange.symm]

/-- Sorts, and turns both groups around. -/
def Selection.turned : Selection where
  rearrange order k idx :=
    ((idx.mergeSort order).take k).reverse ++ ((idx.mergeSort order).drop k).reverse
  perm order k idx := by
    apply ((List.reverse_perm _).append (List.reverse_perm _)).trans
    rw [List.take_append_drop]
    exact List.mergeSort_perm idx order
  first order k idx horder hk := by
    have hlen : ((idx.mergeSort order).take k).reverse.length = k := by
      rw [List.length_reverse, List.length_take, List.length_mergeSort, Nat.min_eq_left hk.le]
    rw [List.take_left' hlen, List.drop_left' hlen]
    intro a ha b hb
    exact (separating_sortedCut order k idx horder hk.le).before a (List.mem_reverse.1 ha) b
      (List.mem_reverse.1 hb)

/-- A direction that depends on how many elements there are. -/
def bySize (idx : List Nat) : Point := if idx.length ≤ 2 then .origin else unit .x

theorem bySize_perm (h : idx.Perm idx') : bySize idx = bySize idx' := by
  rw [bySize, bySize, h.length_eq]

theorem equal_points_by_any_selection :
    (∀ idx idx', idx.Perm idx' → bySize idx = bySize idx') ∧ [0, 1, 2].Nodup ∧
      [0, 1, 2].Perm [2, 0, 1] ∧
      bisect Selection.sorting.cut bySize (fun _ => .origin) 0 2 [0, 1, 2] #[9, 9, 9] =
        bisect Selection.turned.cut bySize (fun _ => .origin) 0 2 [2, 0, 1] #[9, 9, 9] :=
  ⟨fun _ _ => bySize_perm, by decide, by decide,
    (bisection_by_any_selection (fun _ _ => bySize_perm) .sorting .turned (by decide) (by decide)
      0 2 #[9, 9, 9]).1⟩

end MeshDecomp.Bisection
