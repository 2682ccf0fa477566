import Mathlib.Data.List.Nodup
import Mathlib.Data.List.Perm.Subperm
import Mathlib.Data.List.Range

/-! Lists in which nothing occurs twice, and walks along a list. -/
namespace MeshDecomp

variable {l m : List α}

theorem length_eq_iff_subset (hl : l.Nodup) (hm : m.Nodup) (h : l ⊆ m) :
    l.length = m.length ↔ m ⊆ l := by
  constructor
  · intro he x hx
    exact ((hl.subperm h).perm_of_length_le (Nat.le_of_eq he.symm)).mem_iff.2 hx
  · intro hs
    exact Nat.le_antisymm (hl.subperm h).length_le (hm.subperm hs).length_le

theorem length_lt_of_not_mem (hl : l.Nodup) (h : l ⊆ m) {x : α} (hx : x ∈ m) (hn : x ∉ l) :
    l.length < m.length := by
  have hs : (x :: l) ⊆ m := List.cons_subset.2 ⟨hx, h⟩
  exact ((List.nodup_cons.2 ⟨hn, hl⟩).subperm hs).length_le

theorem countP_eq_of_nodup {p q : α → Bool} (hl : l.Nodup) (hm : m.Nodup)
    (h : ∀ x, x ∈ l ∧ p x ↔ x ∈ m ∧ q x) : l.countP p = m.countP q := by
  rw [List.countP_eq_length_filter, List.countP_eq_length_filter]
  refine ((List.perm_ext_iff_of_nodup (hl.filter p) (hm.filter q)).2 fun x => ?_).length_eq
  rw [List.mem_filter, List.mem_filter, h]

theorem findIdx_congr {p q : α → Bool} (h : ∀ x ∈ l, p x = q x) : l.findIdx p = l.findIdx q := by
  induction l with
  | nil => rfl
  | cons x l ih =>
    obtain ⟨hx, hl⟩ := List.forall_mem_cons.1 h
    rw [List.findIdx_cons, List.findIdx_cons, hx, ih hl]

theorem mapM_eq_ok {f : α → Except ε β} {g : α → β} (h : ∀ x ∈ l, f x = .ok (g x)) :
    l.mapM f = .ok (l.map g) := by
  induction l with
  | nil => rfl
  | cons x l ih =>
    obtain ⟨hx, hl⟩ := List.forall_mem_cons.1 h
    rw [List.mapM_cons, hx, ih hl]
    rfl

/-- A walk through all of a list has a result for each member. -/
theorem length_of_mapM {f : α → Except ε β} {ys : List β} (h : l.mapM f = .ok ys) :
    ys.length = l.length := by
  induction l generalizing ys with
  | nil =>
    cases h
    rfl
  | cons x l ih =>
    rw [List.mapM_cons] at h
    cases hx : f x with
    | error e =>
      rw [hx] at h
      cases h
    | ok y =>
      cases hl : l.mapM f with
      | error e =>
        rw [hx, hl] at h
        cases h
      | ok zs =>
        rw [hx, hl] at h
        cases h
        rw [List.length_cons, List.length_cons, ih hl]

theorem exists_of_mapM_error {f : α → Except ε β} {e : ε} (h : l.mapM f = .error e) :
    ∃ x ∈ l, f x = .error e := by
  induction l with
  | nil => cases h
  | cons x l ih =>
    rw [List.mapM_cons] at h
    cases hx : f x with
    | error e' =>
      rw [hx] at h
      cases h
      exact ⟨x, List.mem_cons_self, hx⟩
    | ok y =>
      cases hl : l.mapM f with
      | error e' =>
        rw [hx, hl] at h
        cases h
        exact (ih hl).imp fun x hx => ⟨List.mem_cons_of_mem _ hx.1, hx.2⟩
      | ok zs =>
        rw [hx, hl] at h
        cases h

theorem exists_of_mapM_ok {f : α → Except ε β} {ys : List β} (h : l.mapM f = .ok ys) {x : α}
    (hx : x ∈ l) : ∃ y, f x = .ok y := by
  induction l generalizing ys with
  | nil => cases hx
  | cons a l ih =>
    rw [List.mapM_cons] at h
    cases ha : f a with
    | error e =>
      rw [ha] at h
      cases h
    | ok y =>
      cases hl : l.mapM f with
      | error e =>
        rw [ha, hl] at h
        cases h
      | ok zs =>
        rcases List.mem_cons.1 hx with rfl | hx
        · exact ⟨y, ha⟩
        · exact ih hl hx

theorem perm_append_swap (l : List α) (a b : α) : (l ++ [a] ++ [b]).Perm (l ++ [b] ++ [a]) := by
  rw [List.append_assoc, List.append_assoc]
  exact (List.Perm.swap b a []).append_left l

theorem perm_swap_ends (l : List α) (a b : α) : (a :: l ++ [b]).Perm (b :: l ++ [a]) :=
  calc
    (a :: l ++ [b]).Perm (a :: b :: l) := (List.perm_append_singleton b l).cons a
    List.Perm _ (b :: a :: l) := .swap b a l
    List.Perm _ (b :: l ++ [a]) := (List.perm_append_singleton a l).symm.cons b

/-- The maximum of a list, as a walk with the highest number so far. -/
theorem foldl_max_le_iff {l : List Nat} {a b : Nat} :
    l.foldl max a ≤ b ↔ a ≤ b ∧ ∀ x ∈ l, x ≤ b := by
  induction l generalizing a with
  | nil => simp
  | cons x l ih => rw [List.foldl_cons, ih, Nat.max_le, List.forall_mem_cons, and_assoc]

end MeshDecomp
