import MeshDecomp.Block
import Mathlib.Data.List.Basic
import Mathlib.Order.Monotone.Basic
import Mathlib.Tactic.Common

/-! Blocks follow one another without a gap, and every thing lies in the block of its owner. -/
namespace MeshDecomp

/-- Spans that follow one another from zero on are all numbers below the last stop. -/
theorem Span.flatMap_toList {s : Nat → Span} {edge : Nat → Nat} {n : Nat} (h0 : edge 0 = 0)
    (hs : ∀ k < n, s k = ⟨edge k, edge (k + 1)⟩) (hle : ∀ k < n, edge k ≤ edge (k + 1)) :
    (List.range n).flatMap (fun k => (s k).toList) = List.range (edge n) := by
  induction n with
  | zero => rw [h0]; rfl
  | succ n ih =>
    have hn : n < n + 1 := Nat.lt_succ_self n
    have hadd : edge n + (edge (n + 1) - edge n) = edge (n + 1) := Nat.add_sub_cancel' (hle n hn)
    rw [List.range_succ, List.flatMap_append, List.flatMap_singleton,
      ih (fun k hk => hs k (hk.trans hn)) (fun k hk => hle k (hk.trans hn)), hs n hn, toList, size,
      List.range_eq_range', List.range_eq_range', ← hadd, Nat.add_sub_cancel_left,
      ← List.range'_append_1, Nat.zero_add]

namespace Block

/-- Where the block of a rank starts; behind the last rank, the end of everything. -/
def mark (total pes rank : Nat) : Nat := if rank < pes then rank * width total pes else total

variable {total pes rank : Nat}

theorem first_span (h : rank < pes) : (span total pes rank).first = mark total pes rank := by
  simp [span, mark, h]

theorem stop_span (h : rank < pes) : (span total pes rank).stop = mark total pes (rank + 1) := by
  have hd := Nat.div_add_mod total pes
  by_cases hl : rank + 1 = pes
  · subst hl
    have hm : (rank + 1) * (total / (rank + 1)) =
        rank * (total / (rank + 1)) + total / (rank + 1) := Nat.succ_mul _ _
    simp only [span, mark, count, width, ↓reduceIte, Nat.lt_irrefl]
    omega
  · have hr : rank + 1 < pes := by omega
    simp [span, mark, count, hl, hr, Nat.succ_mul]

theorem mark_zero (h : 0 < pes) : mark total pes 0 = 0 := by simp [mark, h]

theorem mark_self : mark total pes pes = total := by simp [mark]

theorem mark_le_succ : mark total pes rank ≤ mark total pes (rank + 1) := by
  by_cases h : rank < pes
  · rw [← first_span h, ← stop_span h]
    simp [span]
  · simp [mark, h, show ¬ rank + 1 < pes by omega]

theorem stop_span_le (h : rank < pes) : (span total pes rank).stop ≤ total := by
  have hm : ∀ k, mark total pes k ≤ mark total pes (k + 1) := fun k => mark_le_succ
  have hle := monotone_nat_of_le_succ hm h
  rw [mark_self] at hle
  exact (stop_span h).trans_le hle

theorem owner_lt (h : 0 < pes) (i : Nat) : owner total pes i < pes := by
  unfold owner
  split
  · omega
  · exact Nat.lt_of_le_of_lt (Nat.min_le_right _ _) (by omega)

theorem owner_eq_iff {i : Nat} (hr : rank < pes) (hi : i < total) :
    owner total pes i = rank ↔ i ∈ span total pes rank := by
  have hd : pes * width total pes + total % pes = total := Nat.div_add_mod total pes
  simp only [Span.mem_def, owner, span, count]
  generalize width total pes = w at *
  rcases Nat.eq_zero_or_pos w with rfl | hw
  · -- every block but the last one is empty
    rw [Nat.mul_zero, Nat.zero_add] at hd
    rw [if_pos rfl, hd]
    split <;> omega
  · rw [if_neg (by omega)]
    have hlow : rank ≤ i / w ↔ rank * w ≤ i := Nat.le_div_iff_mul_le hw
    have hhigh : i / w < rank + 1 ↔ i < (rank + 1) * w := Nat.div_lt_iff_lt_mul hw
    have hs : (rank + 1) * w = rank * w + w := Nat.succ_mul _ _
    by_cases hl : rank + 1 = pes
    · rw [← hl] at hd ⊢
      rw [if_pos rfl]
      omega
    · rw [if_neg hl]
      omega

/-- The blocks of a list, one after the other. -/
theorem flatMap_slices (l : List α) (k : Nat) (hk : k ≤ pes) (hp : 0 < pes) :
    (List.range k).flatMap (fun r =>
      (l.drop (span l.length pes r).first).take (span l.length pes r).size) =
      l.take (mark l.length pes k) := by
  induction k with
  | zero => simp [mark_zero hp]
  | succ k ih =>
    have hlt : k < pes := hk
    have hsize : (span l.length pes k).size =
        mark l.length pes (k + 1) - mark l.length pes k := by
      rw [← stop_span hlt, ← first_span hlt, Span.size]
    have hmark : mark l.length pes k + (mark l.length pes (k + 1) - mark l.length pes k) =
        mark l.length pes (k + 1) := Nat.add_sub_cancel' mark_le_succ
    rw [List.range_succ, List.flatMap_append, ih (by omega), List.flatMap_singleton, hsize,
      first_span hlt, ← List.take_add, hmark]

/-- The blocks before a rank end where its own one starts. -/
theorem length_flatMap {f : Nat → List α} {k : Nat} (hp : 0 < pes) (hk : k ≤ pes)
    (hf : ∀ r < pes, (f r).length = (span total pes r).size) :
    ((List.range k).flatMap f).length = mark total pes k := by
  induction k with
  | zero => rw [mark_zero hp]; rfl
  | succ k ih =>
    have hlt : k < pes := hk
    rw [List.range_succ, List.flatMap_append, List.length_append, ih (Nat.le_of_lt hlt),
      List.flatMap_singleton, hf k hlt, Span.size, stop_span hlt, first_span hlt]
    exact Nat.add_sub_cancel' mark_le_succ

/-- The block of a rank in what all ranks bring, one after the other. -/
theorem slice_flatMap {f : Nat → List α} (h : rank < pes)
    (hf : ∀ r < pes, (f r).length = (span total pes r).size) :
    (((List.range pes).flatMap f).drop (span total pes rank).first).take
      (span total pes rank).size = f rank := by
  have hlen := length_flatMap (Nat.zero_lt_of_lt h) (Nat.le_of_lt h) hf
  have hsplit : List.range pes =
      List.range rank ++ rank :: List.range' (rank + 1) (pes - (rank + 1)) := by
    have hcount : rank + (pes - (rank + 1) + 1) = pes := by omega
    conv_lhs => rw [List.range_eq_range', ← hcount, ← List.range'_append_1, Nat.zero_add]
    rw [List.range'_succ, List.range_eq_range']
  rw [hsplit, List.flatMap_append, List.flatMap_cons, first_span h, List.drop_left' hlen,
    List.take_left' (hf rank h)]

theorem sum_size (hp : 0 < pes) :
    ((List.range pes).map fun r => (span total pes r).size).foldr (· + ·) 0 = total := by
  have hlen := length_flatMap (f := fun r => (span total pes r).toList) hp (Nat.le_refl pes)
    fun r _ => Span.length_toList _
  rw [mark_self, List.length_flatMap] at hlen
  simp only [Span.length_toList] at hlen
  exact hlen

/-- All blocks, one after the other, are all things. -/
theorem flatMap_span (hp : 0 < pes) :
    (List.range pes).flatMap (fun rank => (span total pes rank).toList) = List.range total := by
  have hspan : ∀ rank < pes,
      span total pes rank = ⟨mark total pes rank, mark total pes (rank + 1)⟩ := by
    intro rank h
    rw [← first_span h, ← stop_span h]
  have hall := Span.flatMap_toList (mark_zero hp) hspan fun rank _ => mark_le_succ
  rwa [mark_self] at hall

/-- No sum or product on the way to a block exceeds the total. -/
theorem span_within (h : rank < pes) :
    (span total pes rank).first ≤ (span total pes rank).stop ∧ count total pes rank ≤ total ∧
      (span total pes rank).stop ≤ total := by
  have hstop : (span total pes rank).stop ≤ total := stop_span_le h
  simp only [span] at hstop ⊢
  omega

/-- No two blocks have a thing in common. -/
theorem eq_of_mem_span {i other : Nat} (h : rank < pes) (ho : other < pes)
    (hi : i ∈ span total pes rank) (hio : i ∈ span total pes other) : rank = other := by
  have hlt : i < total := hi.2.trans_le (stop_span_le h)
  have hrank := (owner_eq_iff h hlt).2 hi
  have hother := (owner_eq_iff ho hlt).2 hio
  omega

/-- However elements or work units divide, their blocks start at zero, follow one another without a
gap up to the total and meet nowhere, and a rank owns exactly what lies in its block. -/
theorem blocks_tile_and_name_owners {pes : Nat} (hp : 0 < pes) (total : Nat) :
    ((span total pes 0).first = 0 ∧
      (∀ rank, rank + 1 < pes → (span total pes rank).stop = (span total pes (rank + 1)).first) ∧
      (span total pes (pes - 1)).stop = total) ∧
    (∀ rank < pes, (span total pes rank).first ≤ (span total pes rank).stop ∧
      count total pes rank ≤ total ∧ (span total pes rank).stop ≤ total) ∧
    (∀ rank < pes, ∀ other < pes, ∀ i,
      i ∈ span total pes rank → i ∈ span total pes other → rank = other) ∧
    (List.range pes).flatMap (fun rank => (span total pes rank).toList) = List.range total ∧
    ∀ i < total, ∀ rank < pes, owner total pes i = rank ↔ i ∈ span total pes rank := by
  have hfirst : (span total pes 0).first = 0 := by rw [first_span hp, mark_zero hp]
  have hnext : ∀ rank, rank + 1 < pes →
      (span total pes rank).stop = (span total pes (rank + 1)).first := by
    intro rank h
    rw [stop_span (by omega), first_span h]
  have hlast : (span total pes (pes - 1)).stop = total := by
    have hpes : pes - 1 + 1 = pes := by omega
    rw [stop_span (by omega), hpes, mark_self]
  exact ⟨⟨hfirst, hnext, hlast⟩, fun rank h => span_within h,
    fun rank h other ho i => eq_of_mem_span h ho, flatMap_span hp,
    fun i hi rank h => owner_eq_iff h hi⟩

/-- Two units on three ranks: the blocks of the first two are empty and the last one owns both. -/
theorem last_of_three_owns_two :
    0 < 3 ∧ span 2 3 0 = ⟨0, 0⟩ ∧ span 2 3 2 = ⟨0, 2⟩ ∧
      (span 2 3 1).stop = (span 2 3 2).first ∧ (owner 2 3 1 = 2 ↔ 1 ∈ span 2 3 2) := by
  have hp : 0 < 3 := by decide
  obtain ⟨⟨-, hnext, -⟩, -, -, -, howner⟩ := blocks_tile_and_name_owners hp 2
  exact ⟨hp, by decide, by decide, hnext 1 (by decide), howner 1 (by decide) 2 (by decide)⟩

end Block
end MeshDecomp
