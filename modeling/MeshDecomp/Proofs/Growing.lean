import MeshDecomp.Partition.Growth
import MeshDecomp.Proofs.Shares

/-!
The growth of parts over the face graph. Whatever the graph, the growth of a part gives it as many
free elements as it lacks, so that every part reaches its share and no element is left.
-/

namespace MeshDecomp

namespace IdMap

variable {α : Type} {m : IdMap α} {k : Nat}

theorem perm_entries_insert (hk : k ∉ m.keys) (v : α) :
    (m.insert k v).entries.Perm ((k, v) :: m.entries) := by
  have hnodup (m : IdMap α) : m.entries.Nodup := m.nodup_keys.of_map
  have hnew : (k, v) ∉ m.entries := fun h => hk (List.mem_map_of_mem h)
  rw [List.perm_ext_iff_of_nodup (hnodup _) (List.nodup_cons.2 ⟨hnew, hnodup _⟩)]
  rintro ⟨j, w⟩
  rw [mem_entries_iff, get?_insert, List.mem_cons, mem_entries_iff]
  by_cases hj : j = k
  · subst hj
    have hnone : m.get? j ≠ some w := fun h => hk (mem_keys_iff.2 ⟨w, h⟩)
    simp [hnone, eq_comm]
  · simp [hj]

theorem perm_values_insert (hk : k ∉ m.keys) (v : α) :
    (m.insert k v).values.Perm (v :: m.values) :=
  (perm_entries_insert hk v).map Prod.snd

theorem size_erase (hk : k ∈ m.keys) : (m.erase k).size + 1 = m.size := by
  have hmem : k ∈ m.tree := mem_tree.2 hk
  have hpos : 0 < m.size := by
    rw [← length_keys]
    exact List.length_pos_of_mem hk
  have herase : (m.erase k).size = m.size - 1 := by
    rw [erase, size, Std.ExtTreeMap.size_erase, if_pos (Std.ExtTreeMap.mem_iff_contains.1 hmem)]
    rfl
  omega

theorem mem_keys_erase {j : Nat} : j ∈ (m.erase k).keys ↔ j ≠ k ∧ j ∈ m.keys := by
  rw [mem_keys_iff, mem_keys_iff, get?_erase]
  by_cases hj : j = k <;> simp [hj]

theorem mem_keys_insert {v : α} {j : Nat} : j ∈ (m.insert k v).keys ↔ j = k ∨ j ∈ m.keys := by
  rw [mem_keys_iff, mem_keys_iff, get?_insert]
  by_cases hj : j = k <;> simp [hj]

theorem keys_eq_nil_of_first? (h : m.first? = none) : m.keys = [] := by
  have hempty : m = ∅ := congrArg IdMap.mk (Std.ExtTreeMap.minKey?_eq_none_iff.1 h)
  rw [hempty, keys_empty]

end IdMap

namespace Growth

variable {g : FaceGraph} {n p : Nat}

/-- `t` comes from `s` by gifts of `k` elements to part `p`, each of them free at its turn. -/
inductive Given (p : Nat) : Nat → Growth → Growth → Prop
  | none (s : Growth) : Given p 0 s s
  | more {k e : Nat} {s t : Growth} (he : e ∈ s.free.keys) (rest : Given p k (s.give e p) t) :
      Given p (k + 1) s t

theorem size_free_give {s : Growth} {e : Nat} (he : e ∈ s.free.keys) :
    (s.give e p).free.size + 1 = s.free.size :=
  IdMap.size_erase he

/-- A part takes what it lacks from the free elements, in whatever order they are reached. -/
theorem given_fill {need : Nat} {front back : List Nat} {s : Growth} (h : need ≤ s.free.size) :
    Given p need s (fill g p need front back s) := by
  fun_induction fill g p need front back s with
  | case1 => exact .none _
  | case2 s need e front back hfree s' ih =>
    have hmem := IdMap.contains_iff.1 hfree
    have hsize : s'.free.size + 1 = s.free.size := size_free_give hmem
    exact .more hmem (ih (by omega))
  | case3 s need e front back hfree ih => exact ih h
  | case4 s need e back ih => exact ih h
  | case5 s need e hfirst s' ih =>
    have hmem := (IdMap.first?_eq_some_iff.1 hfirst).1
    have hsize : s'.free.size + 1 = s.free.size := size_free_give hmem
    exact .more hmem (ih (by omega))
  | case6 s need hfirst =>
    have hnil := IdMap.keys_eq_nil_of_first? hfirst
    rw [← IdMap.length_keys, hnil] at h
    exact absurd h (Nat.not_succ_le_zero need)

/-- Of the elements below `n`, those are free that have no part. -/
structure Complete (n : Nat) (s : Growth) : Prop where
  free : ∀ e, e ∈ s.free.keys ↔ e < n ∧ e ∉ s.parts.keys
  below : ∀ e ∈ s.parts.keys, e < n

theorem Complete.give {s : Growth} (h : Complete n s) {e : Nat} (he : e ∈ s.free.keys) :
    Complete n (s.give e p) := by
  obtain ⟨hlt, hnot⟩ := (h.free e).1 he
  constructor
  · intro j
    rw [Growth.give, IdMap.mem_keys_erase, IdMap.mem_keys_insert, h.free]
    tauto
  · intro j hj
    rcases IdMap.mem_keys_insert.1 hj with rfl | hj
    · exact hlt
    · exact h.below j hj

namespace Given

variable {k : Nat} {s t : Growth}

theorem complete (h : Given p k s t) (hs : Complete n s) : Complete n t := by
  induction h with
  | none s => exact hs
  | more he rest ih => exact ih (hs.give he)

theorem size_free (h : Given p k s t) : t.free.size + k = s.free.size := by
  induction h with
  | none s => rfl
  | more he rest ih =>
    have hsize := size_free_give (p := p) he
    omega

/-- The part grows by the gifts, and no other does. -/
theorem count (h : Given p k s t) (hs : Complete n s) (q : Nat) :
    t.parts.values.count q = s.parts.values.count q + if p = q then k else 0 := by
  induction h with
  | none s => simp
  | @more k e s t he rest ih =>
    have hnew := ((hs.free e).1 he).2
    have hcons : (s.give e p).parts.values.count q = (p :: s.parts.values).count q :=
      (IdMap.perm_values_insert hnew p).count_eq q
    rw [ih (hs.give he), hcons, List.count_cons]
    by_cases hq : p = q
    · rw [if_pos hq, if_pos hq, if_pos (beq_iff_eq.2 hq)]
      omega
    · rw [if_neg hq, if_neg hq, if_neg (mt beq_iff_eq.1 hq)]

end Given

/-! ### One part after the other -/

/-- The first `k` parts have grown to their shares. -/
structure Grown (n m k : Nat) (s : Growth) : Prop where
  complete : Complete n s
  free : s.free.size + Run.start n m k = n
  count : ∀ p, s.parts.values.count p = if p < k then Run.share n m p else 0

theorem grown_bare (n m : Nat) : Grown n m 0 (bare n) where
  complete :=
    { free := by simp [bare]
      below := by simp [bare] }
  free := by
    have hsize : (bare n).free.size = n := by
      rw [bare, IdSet.ofList, IdMap.size_ofList_map _ List.nodup_range, List.length_range]
    rw [hsize, Run.start, Nat.zero_mul, Nat.zero_div, Nat.add_zero]
  count p := by simp [bare, IdMap.values]

theorem Grown.fill {m k : Nat} {s : Growth} (h : Grown n m k s) (hk : k < m) :
    Grown n m (k + 1) (fill g k (Run.share n m k) [] [] s) := by
  have hnext : Run.start n m (k + 1) ≤ n := Run.start_le hk
  have hstep : Run.start n m k + Run.share n m k = Run.start n m (k + 1) :=
    Nat.add_sub_cancel' (Run.start_le_succ n m k)
  have hfree := h.free
  have hgiven : Given k _ s (Growth.fill g k (Run.share n m k) [] [] s) :=
    given_fill (by omega)
  refine ⟨hgiven.complete h.complete, ?_, ?_⟩
  · have := hgiven.size_free
    omega
  · intro p
    rw [hgiven.count h.complete, h.count]
    split <;> split <;> grind

/-- Parts that are to stay empty change nothing. -/
theorem grow_eq_foldl_range (g : FaceGraph) (m : Nat) :
    grow g m = (List.range m).foldl
      (fun s p => fill g p (Run.share g.size m p) [] [] s) (bare g.size) := by
  have hocc : Run.occupied g.size m =
      (List.range m).filter fun p => 0 < Run.share g.size m p := by
    apply eq_of_ascending (Run.pairwise_occupied _ _) (List.pairwise_lt_range.filter _)
    simp [Run.mem_occupied]
  rw [grow, hocc, List.foldl_filter]
  apply List.foldl_ext
  intro s p _
  split
  · rfl
  · next hzero =>
    have hshare : Run.share g.size m p = 0 := by simpa using hzero
    rw [hshare, Growth.fill]

theorem grown_foldl (g : FaceGraph) {m k : Nat} (hk : k ≤ m) :
    Grown g.size m k ((List.range k).foldl
      (fun s p => Growth.fill g p (Run.share g.size m p) [] [] s) (bare g.size)) := by
  induction k with
  | zero => exact grown_bare g.size m
  | succ k ih =>
    rw [List.range_succ, List.foldl_concat]
    exact (ih (Nat.le_of_succ_le hk)).fill hk

theorem grown_grow (g : FaceGraph) (m : Nat) : Grown g.size m m (grow g m) := by
  rw [grow_eq_foldl_range]
  exact grown_foldl g (Nat.le_refl m)

theorem mem_keys_grow (g : FaceGraph) {m : Nat} (hm : 0 < m) {e : Nat} (he : e < g.size) :
    e ∈ (grow g m).parts.keys := by
  have hgrown := grown_grow g m
  have hnone : (grow g m).free.keys = [] := by
    have hfree := hgrown.free
    rw [Run.start, Nat.mul_div_cancel_left _ hm] at hfree
    rw [← List.length_eq_zero_iff, IdMap.length_keys]
    omega
  by_contra hnot
  have hmem := (hgrown.complete.free e).2 ⟨he, hnot⟩
  rw [hnone] at hmem
  exact List.not_mem_nil hmem

/-- The parts in the order of the elements. -/
theorem values_grow (g : FaceGraph) {m : Nat} (hm : 0 < m) :
    (List.range g.size).map (fun e => ((grow g m).parts.get? e).getD 0) =
      (grow g m).parts.values := by
  rw [IdMap.values_eq_filterMap (grown_grow g m).complete.below, ← List.filterMap_eq_map]
  apply List.filterMap_congr
  intro e he
  obtain ⟨p, hp⟩ := IdMap.mem_keys_iff.1 (mem_keys_grow g hm (List.mem_range.1 he))
  simp [hp]

/-- Grown parts are of even size on every graph, connected or not. -/
theorem balanced_grow (g : FaceGraph) {m : Nat} (hm : 0 < m) :
    Balanced g.size m ((List.range g.size).map fun e => ((grow g m).parts.get? e).getD 0) := by
  have hcount := (grown_grow g m).count
  rw [← values_grow g hm] at hcount
  have heven : Even g.size 0 m
      ((List.range g.size).map fun e => ((grow g m).parts.get? e).getD 0) := by
    apply Run.even_of_shares hm
    intro p hp
    exact ⟨p, by rw [hcount, if_pos hp]⟩
  apply heven.balanced
  · rw [List.length_map, List.length_range]
  · intro p hp
    by_contra hge
    have hpos := List.count_pos_iff.2 hp
    rw [hcount, if_neg hge] at hpos
    exact Nat.lt_irrefl 0 hpos

end Growth

end MeshDecomp
