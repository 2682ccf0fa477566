import Mathlib.Algebra.Order.Floor.Div
import Mathlib.Tactic.Linarith
import MeshDecomp.Partition.Hilbert
import MeshDecomp.Proofs.Clouds
import MeshDecomp.Proofs.Lists

/-!
Parts of even size. Runs of a sequence and the halves of repeated cuts have as many members as there
are things for each part, rounded down or up.
-/

namespace MeshDecomp

variable {n m first lo hi : Nat} {ids : List Nat}

/-- `n` things in `m` parts of even size. -/
structure Balanced (n m : Nat) (ids : List Nat) : Prop where
  length : ids.length = n
  lt : ∀ p ∈ ids, p < m
  count : ∀ p < m, ids.count p = n / m ∨ ids.count p = n ⌈/⌉ m

/-- The parts from `first` on share `n` things: where bounds enclose all things together, they
enclose those of each part. -/
def Even (n first m : Nat) (ids : List Nat) : Prop :=
  ∀ lo hi, lo * m ≤ n → n ≤ hi * m → ∀ p, first ≤ p → p < first + m →
    lo ≤ ids.count p ∧ ids.count p ≤ hi

theorem Even.balanced (h : Even n 0 m ids) (hlen : ids.length = n) (hlt : ∀ p ∈ ids, p < m) :
    Balanced n m ids := by
  refine ⟨hlen, hlt, ?_⟩
  intro p hp
  have hm : 0 < m := Nat.zero_lt_of_lt hp
  have hup : n ≤ n ⌈/⌉ m * m := by
    rw [Nat.mul_comm]
    exact le_smul_ceilDiv hm
  have hnear : n ⌈/⌉ m ≤ n / m + 1 := by
    rw [ceilDiv_le_iff_le_smul hm, smul_eq_mul]
    exact (Nat.lt_mul_div_succ n hm).le
  obtain ⟨hlo, hhi⟩ := h (n / m) (n ⌈/⌉ m) (Nat.div_mul_le_self n m) hup p (Nat.zero_le p)
    (hp.trans_eq (Nat.zero_add m).symm)
  omega

/-- As many things as parts leave no part empty. -/
theorem Balanced.mem (h : Balanced n m ids) (hle : m ≤ n) {p : Nat} (hp : p < m) : p ∈ ids := by
  have hm : 0 < m := Nat.zero_lt_of_lt hp
  have hpos : 0 < n / m := Nat.div_pos hle hm
  have hup : n / m ≤ n ⌈/⌉ m := by
    rw [← Nat.floorDiv_eq_div]
    exact floorDiv_le_ceilDiv
  rw [← List.count_pos_iff]
  rcases h.count p hp with hcount | hcount <;> omega

/-! ### Runs of a sequence -/

namespace Run

theorem start_le_succ (n m k : Nat) : start n m k ≤ start n m (k + 1) :=
  Nat.div_le_div_right (Nat.mul_le_mul_right n (Nat.le_succ k))

theorem le_share (hm : 0 < m) (h : lo * m ≤ n) (k : Nat) : lo ≤ share n m k := by
  have hstep : start n m k + lo ≤ start n m (k + 1) := by
    rw [start, start, ← Nat.add_mul_div_right _ _ hm, Nat.add_mul, Nat.one_mul]
    exact Nat.div_le_div_right (Nat.add_le_add_left h _)
  rw [share]
  omega

theorem share_le (hm : 0 < m) (h : n ≤ hi * m) (k : Nat) : share n m k ≤ hi := by
  have hstep : start n m (k + 1) ≤ start n m k + hi := by
    rw [start, start, ← Nat.add_mul_div_right _ _ hm, Nat.add_mul, Nat.one_mul]
    exact Nat.div_le_div_right (Nat.add_le_add_left h _)
  rw [share]
  omega

theorem countP_range_between (a b n : Nat) :
    (List.range n).countP (fun i => a ≤ i ∧ i < b) = min b n - a := by
  induction n with
  | zero => simp
  | succ n ih =>
    rw [List.range_succ, List.countP_append, ih, List.countP_singleton]
    split
    · next h =>
      have := of_decide_eq_true h
      omega
    · next h =>
      have : ¬ (a ≤ n ∧ n < b) := by simpa using h
      omega

/-- Every run holds its share of the positions. -/
theorem count_holding {p : Nat} (hp : p < m) :
    ((List.range n).map (holding n m)).count p = share n m p := by
  have hm : 0 < m := Nat.zero_lt_of_lt hp
  have hends : start n m (p + 1) ≤ n := start_le hp
  rw [List.count, List.countP_map, share, ← Nat.min_eq_left hends, ← countP_range_between]
  apply List.countP_congr
  intro i hi
  have hlow := start_le_iff (k := p) (List.mem_range.1 hi) hm
  have hhigh := start_le_iff (k := p + 1) (List.mem_range.1 hi) hm
  simp only [Function.comp_apply, beq_iff_eq, decide_eq_true_eq]
  omega

/-- The parts that rounding down gives are the runs counted from the end of the sequence. -/
theorem mul_div_eq {i : Nat} (hi : i < n) :
    i * m / n = m - 1 - holding n m (n - 1 - i) := by
  have hn : 0 < n := Nat.zero_lt_of_lt hi
  rcases Nat.eq_zero_or_pos m with rfl | hm
  · simp
  have hlt : i * m / n < m := by
    rw [Nat.div_lt_iff_lt_mul hn, Nat.mul_comm m n]
    exact Nat.mul_lt_mul_of_pos_right hi hm
  have hback : (n - 1 - i + 1) * m = n * m - i * m := by
    rw [← Nat.sub_mul]
    congr 1
    omega
  have hdiv := Nat.div_add_mod (i * m) n
  have hmod := Nat.mod_lt (i * m) hn
  generalize i * m / n = a at *
  have hle : n * a + n ≤ n * m := by
    rw [← Nat.mul_succ]
    exact Nat.mul_le_mul_left n hlt
  -- what is left of the sequence ends within run `a` from the end
  have hrun : holding n m (n - 1 - i) = m - 1 - a := by
    have hleft : (m - 1 - a) * n = n * m - n - n * a := by
      rw [Nat.sub_mul, Nat.sub_mul, Nat.one_mul, Nat.mul_comm m n, Nat.mul_comm a n]
    have hright : (m - 1 - a + 1) * n = (m - 1 - a) * n + n := Nat.succ_mul _ n
    rw [holding, hback]
    apply Nat.div_eq_of_lt_le <;> omega
  omega

/-- The same shares, with the last part first. -/
theorem count_mul_div {p : Nat} (hp : p < m) :
    ((List.range n).map (· * m / n)).count p = share n m (m - 1 - p) := by
  have hm : 0 < m := Nat.zero_lt_of_lt hp
  have hback : (List.range n).map (· * m / n) =
      ((List.range n).map fun i => m - 1 - holding n m i).reverse := by
    rw [← List.map_reverse, List.range_eq_range', List.reverse_range', List.map_map,
      ← List.range_eq_range']
    apply List.map_congr_left
    intro i hi
    rw [Function.comp_apply, Nat.zero_add]
    exact mul_div_eq (List.mem_range.1 hi)
  rw [hback, List.count_reverse, ← count_holding (by omega), List.count, List.count,
    List.countP_map, List.countP_map]
  apply List.countP_congr
  intro i hi
  have hlt := holding_lt (List.mem_range.1 hi) hm
  simp only [Function.comp_apply, beq_iff_eq]
  omega

/-- Runs have even sizes, and so have parts that are runs up to their order. -/
theorem even_of_shares (hm : 0 < m) (h : ∀ p < m, ∃ k, ids.count p = share n m k) :
    Even n 0 m ids := by
  intro lo hi hlo hhi p _ hp
  obtain ⟨k, hk⟩ := h p (hp.trans_eq (Nat.zero_add m))
  rw [hk]
  exact ⟨le_share hm hlo k, share_le hm hhi k⟩

end Run

/-! ### Parts in the order of the elements -/

namespace Bisection

theorem perm_inOrder (pairs : List (Nat × Nat)) : (inOrder pairs).Perm (pairs.map Prod.snd) :=
  (List.mergeSort_perm pairs _).map _

/-! ### Halves of repeated cuts -/

/-- What a cut puts to the left, if `left` of `parts` parts lie there. -/
theorem left_le {left parts : Nat} (h : left ≤ parts) (n : Nat) : n * left / parts ≤ n :=
  Nat.div_le_of_le_mul (Nat.mul_comm parts n ▸ Nat.mul_le_mul_left n h)

/-- A cut keeps to the bounds on both sides. -/
theorem bounds_cut {left parts : Nat} (hlt : left < parts) (hlo : lo * parts ≤ n)
    (hhi : n ≤ hi * parts) :
    (lo * left ≤ n * left / parts ∧ n * left / parts ≤ hi * left) ∧
      lo * (parts - left) ≤ n - n * left / parts ∧ n - n * left / parts ≤ hi * (parts - left) := by
  obtain ⟨right, rfl⟩ := Nat.exists_eq_add_of_le hlt.le
  have hpos : 0 < left + right := Nat.zero_lt_of_lt hlt
  have hle : n * left / (left + right) * (left + right) ≤ n * left := Nat.div_mul_le_self _ _
  have hlt' : n * left < (left + right) * (n * left / (left + right) + 1) :=
    Nat.lt_mul_div_succ _ hpos
  have hup : n * left / (left + right) ≤ n := left_le hlt.le n
  generalize n * left / (left + right) = q at *
  obtain ⟨rest, rfl⟩ := Nat.exists_eq_add_of_le hup
  rw [Nat.add_sub_cancel_left, Nat.add_sub_cancel_left]
  -- each bound is compared after a multiplication by the number of parts
  refine ⟨⟨?_, ?_⟩, ?_, ?_⟩
  · apply Nat.le_of_lt_succ
    apply Nat.lt_of_mul_lt_mul_left (a := left + right)
    nlinarith [Nat.mul_le_mul_right left hlo]
  · apply Nat.le_of_mul_le_mul_right _ hpos
    nlinarith [Nat.mul_le_mul_right left hhi]
  · apply Nat.le_of_mul_le_mul_right _ hpos
    nlinarith [Nat.mul_le_mul_right right hlo]
  · apply Nat.le_of_lt_succ
    apply Nat.lt_of_mul_lt_mul_left (a := left + right)
    nlinarith [Nat.mul_le_mul_right right hhi]

/-- One part takes everything, and one thing goes to one part. -/
theorem even_replicate {parts : Nat} (hparts : 0 < parts) (h : parts ≤ 1 ∨ n ≤ 1) :
    Even n first parts (List.replicate n first) := by
  intro lo hi hlo hhi p hp hp'
  rw [List.count_replicate]
  rcases Nat.lt_or_ge 1 parts with htwo | hone
  · -- there is at most one thing, so nothing is promised below and it fits above
    have hn : n ≤ 1 := h.resolve_left htwo.not_ge
    have hlo' : lo = 0 := by nlinarith
    have hhi' : n ≤ hi := by nlinarith
    split <;> omega
  · obtain rfl : parts = 1 := by omega
    obtain rfl : p = first := by omega
    rw [beq_self_eq_true, if_pos rfl]
    omega

end Bisection

/-! ### Runs along the curve -/

/-- The keys decide which element goes where, not how many go there. -/
theorem Hilbert.balanced_runs (hm : 0 < m) (keys : List Nat) :
    Balanced keys.length m (runs m keys) := by
  have hperm : (runs m keys).Perm ((List.range keys.length).map (Run.holding keys.length m)) := by
    apply (Bisection.perm_inOrder _).trans
    rw [List.map_map]
    change (List.map (Run.holding keys.length m ∘ Prod.snd) _).Perm _
    rw [← List.map_map, List.zipIdx_map_snd, List.length_mergeSort, List.length_zipIdx,
      ← List.range_eq_range']
  have heven : Even keys.length 0 m (runs m keys) := by
    apply Run.even_of_shares hm
    intro p hp
    exact ⟨p, by rw [hperm.count_eq, Run.count_holding hp]⟩
  apply heven.balanced
  · rw [hperm.length_eq, List.length_map, List.length_range]
  · intro p hp
    obtain ⟨i, hi, rfl⟩ := List.mem_map.1 (hperm.mem_iff.1 hp)
    exact Run.holding_lt (List.mem_range.1 hi) hm

/-! ### Runs in the order of the elements -/

theorem Partitioner.balanced_elementOrder (hm : 0 < m) :
    ∃ ids, (List.range n).mapM (elementOrder.part n m) = .ok ids ∧ Balanced n m ids := by
  have hpart : ∀ e ∈ List.range n, elementOrder.part n m e = .ok (e * m / n) := fun e he =>
    if_neg (List.mem_range.1 he).not_ge
  refine ⟨_, mapM_eq_ok hpart, ?_⟩
  have heven : Even n 0 m ((List.range n).map (· * m / n)) := by
    apply Run.even_of_shares hm
    intro p hp
    exact ⟨m - 1 - p, Run.count_mul_div hp⟩
  apply heven.balanced
  · rw [List.length_map, List.length_range]
  · intro p hp
    obtain ⟨e, he, rfl⟩ := List.mem_map.1 hp
    have he := List.mem_range.1 he
    rw [Nat.div_lt_iff_lt_mul (Nat.zero_lt_of_lt he), Nat.mul_comm m n]
    exact Nat.mul_lt_mul_of_pos_right he hm

end MeshDecomp
