import MeshDecomp.Block
import MeshDecomp.Proofs.Selections

/-!
The geometric partitioners with every look-up, every write and every division checked. As long as
each axis reaches as far as the elements, no check fails, and the answers are the same.
-/

namespace MeshDecomp

/-! ### Checks -/

namespace Checked

def found : Option α → Except Crash α
  | some x => .ok x
  | none => .error .indexOutOfBounds

@[simp] theorem found_some (x : α) : found (some x) = .ok x := rfl

def put (xs : Array α) (k : Nat) (x : α) : Except Crash (Array α) :=
  if k < xs.size then .ok (xs.setIfInBounds k x) else .error .indexOutOfBounds

def quotient (a b : Nat) : Except Crash Nat := Block.checked b (a / b)

@[simp] theorem ok_bind (x : α) (f : α → Except ε β) : (Except.ok x >>= f) = f x := rfl

theorem put_of_lt {xs : Array α} {k : Nat} (h : k < xs.size) (x : α) :
    put xs k x = .ok (xs.setIfInBounds k x) :=
  if_pos h

theorem quotient_of_pos {b : Nat} (h : 0 < b) (a : Nat) : quotient a b = .ok (a / b) :=
  Block.checked_of_pos h _

/-- One failed look-up among others ends a walk. -/
theorem mapM_eq_error {f : α → Except ε β} {e : ε} {l : List α}
    (h : ∀ x ∈ l, (∃ y, f x = .ok y) ∨ f x = .error e) (hbad : ∃ x ∈ l, f x = .error e) :
    l.mapM f = .error e := by
  induction l with
  | nil =>
    obtain ⟨x, hx, -⟩ := hbad
    exact absurd hx List.not_mem_nil
  | cons x l ih =>
    obtain ⟨hx, hl⟩ := List.forall_mem_cons.1 h
    rw [List.mapM_cons]
    rcases hx with ⟨y, hy⟩ | hx
    · obtain ⟨z, hz, hbad⟩ := hbad
      have hz : z ∈ l := by
        refine (List.mem_cons.1 hz).resolve_left ?_
        rintro rfl
        rw [hy] at hbad
        cases hbad
      rw [hy, ih hl ⟨z, hz, hbad⟩]
      rfl
    · rw [hx]
      rfl

end Checked

open Checked

/-! ### Points -/

namespace Centroids

variable {c : Centroids} {n e : Nat}

/-- An element with its point, read axis by axis. -/
def itemAt (c : Centroids) (e : Nat) : Except Crash Bisection.Item := do
  let x ← found c.xs[e]?
  let y ← found c.ys[e]?
  let z ← found c.zs[e]?
  return ⟨e, ⟨x, y, z⟩⟩

theorem itemAt_of_reaches (h : c.Reaches n) (he : e < n) :
    c.itemAt e = .ok (Bisection.itemOf c.cloud e) := by
  have hx : e < c.xs.length := he.trans_le (h .x)
  have hy : e < c.ys.length := he.trans_le (h .y)
  have hz : e < c.zs.length := he.trans_le (h .z)
  rw [itemAt, Bisection.itemOf, cloud]
  simp only [List.getD_eq_getElem?_getD, List.getElem?_eq_getElem hx, List.getElem?_eq_getElem hy,
    List.getElem?_eq_getElem hz]
  rfl

theorem itemAt_of_not_reaches (h : ¬ c.Reaches (e + 1)) :
    c.itemAt e = .error .indexOutOfBounds := by
  unfold itemAt
  cases hx : c.xs[e]? with
  | none => rfl
  | some x =>
    cases hy : c.ys[e]? with
    | none => rfl
    | some y =>
      cases hz : c.zs[e]? with
      | none => rfl
      | some z =>
        refine absurd ?_ h
        intro a
        cases a with
        | x => exact (List.getElem?_eq_some_iff.1 hx).1
        | y => exact (List.getElem?_eq_some_iff.1 hy).1
        | z => exact (List.getElem?_eq_some_iff.1 hz).1

theorem mapM_itemAt {idx : List Nat} (h : c.Reaches n) (hidx : ∀ e ∈ idx, e < n) :
    idx.mapM c.itemAt = .ok (idx.map (Bisection.itemOf c.cloud)) :=
  mapM_eq_ok fun e he => itemAt_of_reaches h (hidx e he)

theorem mapM_itemAt_of_not_reaches (h : ¬ c.Reaches n) :
    (List.range n).mapM c.itemAt = .error .indexOutOfBounds := by
  obtain ⟨a, ha⟩ := not_forall.1 h
  apply mapM_eq_error
  · intro e _
    by_cases he : c.Reaches (e + 1)
    · exact .inl ⟨_, itemAt_of_reaches he (Nat.lt_succ_self e)⟩
    · exact .inr (itemAt_of_not_reaches he)
  · refine ⟨(c.axis a).length, List.mem_range.2 (Nat.lt_of_not_le ha), itemAt_of_not_reaches ?_⟩
    exact fun he => Nat.not_succ_le_self _ (he a)

end Centroids

/-! ### Bisection -/

namespace Bisection

variable {c : Centroids} {n parts : Nat} {idx : List Nat} {out : Array Nat}

/-- Bisection that reads the points of its elements at every cut. -/
def bisectIn (S : Selection) (toward : List Item → Point) (c : Centroids) (first parts : Nat)
    (idx : List Nat) (out : Array Nat) : Except Crash (Array Nat) :=
  if parts ≤ 1 ∨ idx.length ≤ 1 then idx.foldlM (fun out e => put out e first) out
  else do
    let left := parts / 2
    let k ← quotient (idx.length * left) parts
    let items ← idx.mapM c.itemAt
    if idx.length < k then .error .indexOutOfBounds
    else
      let halves := S.cut (along c.cloud (toward items)) k idx
      let out ← bisectIn S toward c first left halves.1 out
      bisectIn S toward c (first + left) (parts - left) halves.2 out
termination_by parts
decreasing_by all_goals omega

theorem foldlM_put (hidx : ∀ e ∈ idx, e < out.size) (part : Nat) :
    idx.foldlM (fun out e => put out e part) out =
      .ok (idx.foldl (fun out e => out.setIfInBounds e part) out) := by
  induction idx generalizing out with
  | nil => rfl
  | cons e idx ih =>
    obtain ⟨he, hidx⟩ := List.forall_mem_cons.1 hidx
    rw [List.foldlM_cons, put_of_lt he]
    exact ih fun e he => by rw [Array.size_setIfInBounds]; exact hidx e he

theorem size_foldl_write (idx : List Nat) (part : Nat) (out : Array Nat) :
    (idx.foldl (fun out e => out.setIfInBounds e part) out).size = out.size := by
  induction idx generalizing out with
  | nil => rfl
  | cons e idx ih => rw [List.foldl_cons, ih, Array.size_setIfInBounds]

theorem size_bisect (cut : Cut) (direction : List Nat → Point) (cloud : Nat → Point)
    (first parts : Nat) (idx : List Nat) (out : Array Nat) :
    (bisect cut direction cloud first parts idx out).size = out.size := by
  induction parts using Nat.strong_induction_on generalizing first idx out with
  | _ parts ih =>
    by_cases h : parts ≤ 1 ∨ idx.length ≤ 1
    · rw [bisect_of_few h, size_foldl_write]
    · rw [bisect_of_many h]
      dsimp only
      rw [ih _ (by omega), ih _ (by omega)]

/-- No check of a bisection fails while the points reach. -/
theorem bisectIn_of_reaches (S : Selection) (toward : List Item → Point) (h : c.Reaches n)
    (first : Nat) (hidx : ∀ e ∈ idx, e < n) (hout : out.size = n) :
    bisectIn S toward c first parts idx out =
      .ok (bisect S.cut (fun idx => toward (idx.map (itemOf c.cloud))) c.cloud first parts idx
        out) := by
  induction parts using Nat.strong_induction_on generalizing first idx out with
  | _ parts ih =>
    rw [bisectIn]
    by_cases hfew : parts ≤ 1 ∨ idx.length ≤ 1
    · rw [if_pos hfew, bisect_of_few hfew, foldlM_put (hout ▸ hidx)]
    · have hlinear := linear_along c.cloud (toward (idx.map (itemOf c.cloud)))
      have hk : idx.length * (parts / 2) / parts ≤ idx.length := left_le (Nat.div_le_self parts 2) _
      have hsep := S.separating _ _ idx hlinear hk
      have hleft : ∀ e ∈ (S.cut _ _ idx).1, e < n := fun e he =>
        hidx e (hsep.perm.mem_iff.1 (List.mem_append_left _ he))
      have hright : ∀ e ∈ (S.cut _ _ idx).2, e < n := fun e he =>
        hidx e (hsep.perm.mem_iff.1 (List.mem_append_right _ he))
      have hparts : 0 < parts := by omega
      rw [if_neg hfew, bisect_of_many hfew]
      dsimp only
      rw [quotient_of_pos hparts, Centroids.mapM_itemAt h hidx, ok_bind, ok_bind, if_neg hk.not_gt,
        ih _ (by omega) _ hleft hout, ok_bind, ih _ (by omega) _ hright]
      rw [size_bisect, hout]

/-- Where an axis ends early, the first cut of all elements reads beyond its end. -/
theorem bisectIn_of_not_reaches (S : Selection) (toward : List Item → Point) (h : ¬ c.Reaches n)
    (first : Nat) (hparts : 1 < parts) (hn : 1 < n) :
    bisectIn S toward c first parts (List.range n) out = .error .indexOutOfBounds := by
  have hmany : ¬ (parts ≤ 1 ∨ (List.range n).length ≤ 1) := by
    rw [List.length_range]
    omega
  rw [bisectIn, if_neg hmany]
  dsimp only
  rw [quotient_of_pos (Nat.zero_lt_of_lt hparts), Centroids.mapM_itemAt_of_not_reaches h]
  rfl

/-- One part or one element needs no point. -/
theorem bisectIn_of_few (S : Selection) (toward : List Item → Point) (c : Centroids)
    (h : parts ≤ 1 ∨ n ≤ 1) :
    bisectIn S toward c 0 parts (List.range n) (Array.replicate n 0) =
      .ok (Array.replicate n 0) := by
  have hfew : parts ≤ 1 ∨ (List.range n).length ≤ 1 := by rwa [List.length_range]
  rw [bisectIn, if_pos hfew, foldlM_put, write_replicate_zero]
  intro e he
  rw [Array.size_replicate]
  exact List.mem_range.1 he

/-- The parts of all elements. -/
def partsIn (S : Selection) (toward : List Item → Point) (c : Centroids) (n m : Nat) :
    Except Crash (List Nat) :=
  Array.toList <$> bisectIn S toward c 0 m (List.range n) (Array.replicate n 0)

theorem partsIn_of_reaches (S : Selection) (toward : List Item → Point) (h : c.Reaches n)
    (m : Nat) :
    partsIn S toward c n m =
      .ok (bisect S.cut (fun idx => toward (idx.map (itemOf c.cloud))) c.cloud 0 m (List.range n)
        (Array.replicate n 0)).toList := by
  rw [partsIn, bisectIn_of_reaches S toward h 0 (fun e he => List.mem_range.1 he)
    Array.size_replicate]
  rfl

theorem partsIn_of_few (S : Selection) (toward : List Item → Point) (c : Centroids) {m : Nat}
    (h : m ≤ 1 ∨ n ≤ 1) : partsIn S toward c n m = .ok (List.replicate n 0) := by
  rw [partsIn, bisectIn_of_few S toward c h, ← Array.toList_replicate]
  rfl

theorem partsIn_of_not_reaches (S : Selection) (toward : List Item → Point) (h : ¬ c.Reaches n)
    {m : Nat} (hmany : ¬ (m ≤ 1 ∨ n ≤ 1)) :
    partsIn S toward c n m = .error .indexOutOfBounds := by
  rw [partsIn, bisectIn_of_not_reaches S toward h 0 (by omega) (by omega)]
  rfl

/-- Sorting at every cut answers what bisection answers, and fails where it fails. -/
theorem partsIn_sorting (toward : List Item → Point) (hn : c.size = n) (m : Nat) :
    partsIn .sorting toward c n m = Bisection.parts toward c n m := by
  by_cases hfew : m ≤ 1 ∨ n ≤ 1
  · rw [partsIn_of_few _ _ _ hfew, Bisection.parts, if_pos hfew]
  · by_cases h : c.Reaches n
    · rw [partsIn_of_reaches _ _ h, parts_eq_bisect toward (Centroids.points?_eq h hn)]
    · rw [partsIn_of_not_reaches _ _ h hfew, Bisection.parts, if_neg hfew, Partitioner.points,
        Centroids.points?_of_not_reaches h hn]
      rfl

end Bisection

/-! ### Runs along the curve -/

namespace Hilbert

variable {n m k part : Nat}

/-- Moves on from run `part` to the run that holds position `k`. -/
def advance (n m k part : Nat) : Except Crash Nat :=
  if part + 1 < m then do
    let start ← quotient ((part + 1) * n) m
    if start ≤ k then advance n m k (part + 1) else return part
  else return part
termination_by m - part

theorem advance_eq {part : Nat} (hk : k < n) (hm : 0 < m) (h : part ≤ Run.holding n m k) :
    advance n m k part = .ok (Run.holding n m k) := by
  have hlt := Run.holding_lt hk hm
  have hstart : (part + 1) * n / m ≤ k ↔ part + 1 ≤ Run.holding n m k := Run.start_le_iff hk hm
  rw [advance]
  by_cases hnext : part + 1 ≤ Run.holding n m k
  · have hmore : part + 1 < m := by omega
    rw [if_pos hmore, quotient_of_pos hm, ok_bind, if_pos (hstart.2 hnext)]
    exact advance_eq hk hm hnext
  · have hpart : part = Run.holding n m k := by omega
    rw [quotient_of_pos hm, ok_bind, if_neg (mt hstart.1 hnext), ite_self, hpart]
    rfl
termination_by m - part

theorem holding_le_succ (n m k : Nat) : Run.holding n m k ≤ Run.holding n m (k + 1) := by
  apply Nat.div_le_div_right
  have hmul : (k + 1) * m ≤ (k + 1 + 1) * m := Nat.mul_le_mul_right m (Nat.le_succ _)
  omega

/-- Walks along the elements from position `k` on and writes their parts. -/
def walk (n m : Nat) : (k part : Nat) → List Nat → Array Nat → Except Crash (Array Nat)
  | _, _, [], out => return out
  | k, part, e :: rest, out => do
      let part ← advance n m k part
      let out ← put out e part
      walk n m (k + 1) part rest out

theorem walk_eq {rest : List Nat} {out : Array Nat} (hm : 0 < m) (hlen : k + rest.length ≤ n)
    (h : part ≤ Run.holding n m k) (hrest : ∀ e ∈ rest, e < out.size) :
    walk n m k part rest out =
      .ok (Bisection.write ((rest.zipIdx k).map fun e => (e.1, Run.holding n m e.2)) out) := by
  induction rest generalizing k part out with
  | nil => rfl
  | cons e rest ih =>
    obtain ⟨he, hrest⟩ := List.forall_mem_cons.1 hrest
    rw [List.length_cons] at hlen
    rw [walk, advance_eq (by omega) hm h, ok_bind, put_of_lt he, ok_bind,
      ih (by omega) (holding_le_succ n m k) (by simpa using hrest)]
    rfl

/-- The parts of all elements. -/
def partsIn (c : Centroids) (n m : Nat) : Except Crash (List Nat) := do
  let items ← (List.range n).mapM c.itemAt
  let sorted := (keys (items.map Bisection.Item.point)).zipIdx.mergeSort fun a b =>
    a.1 < b.1 || (a.1 = b.1 && a.2 ≤ b.2)
  Array.toList <$> walk n m 0 0 (sorted.map Prod.snd) (Array.replicate n 0)

theorem partsIn_of_reaches {c : Centroids} (hm : 0 < m) (h : c.Reaches n) :
    partsIn c n m = .ok (runs m (keys ((List.range n).map c.cloud))) := by
  have hpoints : ((List.range n).map (Bisection.itemOf c.cloud)).map Bisection.Item.point =
      (List.range n).map c.cloud := by
    rw [List.map_map]
    rfl
  have hkeys : (keys ((List.range n).map c.cloud)).length = n := by
    rw [keys, List.length_map, List.length_map, List.length_range]
  rw [partsIn, Centroids.mapM_itemAt h fun e he => List.mem_range.1 he, ok_bind, hpoints]
  generalize keys ((List.range n).map c.cloud) = ks at *
  dsimp only
  have hsorted := List.mergeSort_perm ks.zipIdx fun a b => a.1 < b.1 || (a.1 = b.1 && a.2 ≤ b.2)
  rw [runs, hkeys]
  generalize ks.zipIdx.mergeSort _ = sorted at *
  have helements : (sorted.map Prod.snd).Perm (List.range n) := by
    have hperm := hsorted.map Prod.snd
    rwa [List.zipIdx_map_snd, hkeys, ← List.range_eq_range'] at hperm
  have hlen : (sorted.map Prod.snd).length = n := by
    rw [helements.length_eq, List.length_range]
  have hlt : ∀ e ∈ sorted.map Prod.snd, e < (Array.replicate n 0).size := by
    intro e he
    rw [Array.size_replicate]
    exact List.mem_range.1 (helements.mem_iff.1 he)
  have hpairs : ((sorted.map Prod.snd).zipIdx.map fun e => (e.1, Run.holding n m e.2)) =
      sorted.zipIdx.map fun e => (e.1.2, Run.holding n m e.2) := by
    rw [List.zipIdx_map, List.map_map]
    rfl
  have hfirst : ((sorted.zipIdx.map fun e => (e.1.2, Run.holding n m e.2)).map Prod.fst).Perm
      (List.range n) := by
    rw [List.map_map]
    change (sorted.zipIdx.map (Prod.snd ∘ Prod.fst)).Perm _
    rwa [← List.map_map, List.zipIdx_map_fst]
  rw [walk_eq hm (by omega) (Nat.zero_le _) hlt, hpairs]
  change Except.ok (Bisection.write _ _).toList = _
  rw [Bisection.toList_write hfirst Array.size_replicate]

theorem partsIn_of_not_reaches {c : Centroids} (h : ¬ c.Reaches n) :
    partsIn c n m = .error .indexOutOfBounds := by
  rw [partsIn, Centroids.mapM_itemAt_of_not_reaches h]
  rfl

/-- The walk answers what the runs answer, and fails where they fail. -/
theorem partsIn_eq {c : Centroids} (hm : 0 < m) (hn : c.size = n) :
    partsIn c n m =
      if n = 0 then .ok [] else do return runs m (keys (← Partitioner.points c)) := by
  by_cases h : c.Reaches n
  · rw [partsIn_of_reaches hm h, Partitioner.points, Centroids.points?_eq h hn]
    split
    · next hzero =>
      subst hzero
      exact congrArg Except.ok (List.length_eq_zero_iff.1 (balanced_runs hm []).length)
    · rfl
  · have hpos : n ≠ 0 := by
      rintro rfl
      exact h fun a => Nat.zero_le _
    rw [partsIn_of_not_reaches h, if_neg hpos, Partitioner.points,
      Centroids.points?_of_not_reaches h hn]
    rfl

end Hilbert

end MeshDecomp
