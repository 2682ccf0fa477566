import MeshDecomp.Proofs.GraphBuilding
import MeshDecomp.Proofs.Growing

/-!
The growth of parts with every look-up checked: in the offsets and rows of the graph, in the part of
each element, and in the scan for the next seed. On a face graph no check fails, since elements are
left as long as a part lacks some.
-/

namespace MeshDecomp

open Checked

/-! ### Rows of the graph -/

namespace FaceGraph

def neighboursAt (g : FaceGraph) (e : Nat) : Except Crash (List Nat) := do
  let start ← found g.offsets[e]?
  let stop ← found g.offsets[e + 1]?
  if start ≤ stop ∧ stop ≤ g.targets.size then return (g.targets.extract start stop).toList
  else .error .indexOutOfBounds

/-- A graph whose rows can be read, and hold elements only. -/
structure Readable (g : FaceGraph) : Prop where
  row : ∀ e < g.size, g.neighboursAt e = .ok (g.neighbours e)
  below : ∀ e < g.size, ∀ u ∈ g.neighbours e, u < g.size

theorem Compressed.neighboursAt {g : FaceGraph} {n e : Nat} (h : g.Compressed n) (he : e < n) :
    g.neighboursAt e = .ok (g.neighbours e) := by
  obtain ⟨start, stop, hstart, hstop, hle, hsize, hrow⟩ := h.row he
  rw [FaceGraph.neighboursAt, hstart, hstop, hrow]
  change (if _ then _ else _) = _
  rw [if_pos ⟨hle, hsize⟩]
  rfl

theorem readable_ofTets (ts : List Tet) : (ofTets ts).Readable where
  row e he := by
    rw [size_ofTets] at he
    exact (compressed_ofTets ts).neighboursAt he
  below e he u hu := by
    rw [size_ofTets] at he ⊢
    exact lt_of_mem_neighbours he hu

end FaceGraph

namespace Growth

variable {g : FaceGraph} {n p e : Nat}

/-! ### The parts of the elements, cell by cell -/

/-- The part of each element that has one, and where the scan for a seed goes on. -/
structure Cells where
  parts : Array (Option Nat)
  seed : Nat

/-- The lowest element without a part, from element `e` on. -/
def scan (parts : Array (Option Nat)) (e : Nat) : Except Crash Nat :=
  match _h : parts[e]? with
  | none => .error .indexOutOfBounds
  | some none => .ok e
  | some (some _) => scan parts (e + 1)
termination_by parts.size - e
decreasing_by
  have := (Array.getElem?_eq_some_iff.1 _h).1
  omega

def reachedIn (g : FaceGraph) (parts : Array (Option Nat)) (e : Nat) :
    Except Crash (List Nat) := do
  let row ← g.neighboursAt e
  let cells ← row.mapM fun u => do return (u, ← found parts[u]?)
  return (cells.filter fun c => c.2.isNone).map Prod.fst

def fillIn (g : FaceGraph) (p need : Nat) (queue : List Nat) (t : Cells) : Except Crash Cells :=
  match need, queue with
  | 0, _ => return t
  | need + 1, e :: queue => do
      let part ← found t.parts[e]?
      if part.isSome then fillIn g p (need + 1) queue t
      else do
        let parts ← put t.parts e (some p)
        let fresh ← reachedIn g parts e
        fillIn g p need (queue ++ fresh) { t with parts }
  | need + 1, [] => do
      let e ← scan t.parts t.seed
      let parts ← put t.parts e (some p)
      let fresh ← reachedIn g parts e
      fillIn g p need fresh ⟨parts, e⟩
termination_by (need, queue.length)

/-- Stands for no part. -/
def unassigned : Nat := 2 ^ 64 - 1

def growIn (g : FaceGraph) (m : Nat) : Except Crash (List Nat) := do
  let t ← (List.range m).foldlM (fun t p => do
    let stop ← quotient ((p + 1) * g.size) m
    let start ← quotient (p * g.size) m
    fillIn g p (stop - start) [] t) ⟨Array.replicate g.size none, 0⟩
  return t.parts.toList.map fun part => part.getD unassigned

/-- Cells that hold a growth. -/
structure Cells.Of (n : Nat) (s : Growth) (t : Cells) : Prop where
  size : t.parts.size = n
  parts : ∀ e < n, t.parts[e]? = some (s.parts.get? e)
  seed : ∀ e < t.seed, e ∈ s.parts.keys

variable {s : Growth} {t : Cells}

theorem Cells.of_bare (n : Nat) : Cells.Of n (bare n) ⟨Array.replicate n none, 0⟩ where
  size := Array.size_replicate
  parts e he := by
    rw [Array.getElem?_replicate, if_pos he]
    simp [bare]
  seed e he := absurd he (Nat.not_lt_zero e)

theorem Complete.get?_eq_none_iff (hs : Complete n s) (he : e < n) :
    s.parts.get? e = none ↔ e ∈ s.free.keys := by
  rw [hs.free, IdMap.mem_keys_iff, ← Option.isSome_iff_exists, Option.not_isSome_iff_eq_none]
  exact (and_iff_right he).symm

theorem Cells.Of.give (ht : t.Of n s) (he : e < n) (p : Nat) {seed : Nat}
    (hseed : ∀ j < seed, j ∈ (s.give e p).parts.keys) :
    Cells.Of n (s.give e p) ⟨t.parts.setIfInBounds e (some p), seed⟩ where
  size := Array.size_setIfInBounds.trans ht.size
  parts j hj := by
    rw [Growth.give, IdMap.get?_insert]
    rcases eq_or_ne j e with rfl | hne
    · rw [if_pos rfl, Array.getElem?_setIfInBounds_self_of_lt (he.trans_eq ht.size.symm)]
    · rw [if_neg hne, Array.getElem?_setIfInBounds_ne hne.symm, ht.parts j hj]
  seed := hseed

/-- The scan finds the lowest free element. -/
theorem scan_eq (hs : Complete n s) (ht : t.Of n s) (hfirst : s.free.first? = some e) {k : Nat}
    (hk : k ≤ e) : scan t.parts k = .ok e := by
  obtain ⟨hfree, hlowest⟩ := IdMap.first?_eq_some_iff.1 hfirst
  have hlt := ((hs.free e).1 hfree).1
  have hcell := ht.parts k (hk.trans_lt hlt)
  rw [scan]
  rcases hk.lt_or_eq with hless | rfl
  · -- an element below the lowest free one has a part
    cases hpart : s.parts.get? k with
    | none =>
      have := hlowest k ((hs.get?_eq_none_iff (hless.trans hlt)).1 hpart)
      omega
    | some q =>
      rw [hpart] at hcell
      split
      · next h => rw [hcell] at h; cases h
      · next h => rw [hcell] at h; cases h
      · exact scan_eq hs ht hfirst hless
  · rw [(hs.get?_eq_none_iff hlt).2 hfree] at hcell
    split
    · next h => rw [hcell] at h; cases h
    · rfl
    · next h => rw [hcell] at h; cases h
termination_by e - k

theorem reachedIn_eq (hg : g.Readable) (hs : Complete g.size s) (ht : t.Of g.size s)
    (he : e < g.size) : reachedIn g t.parts e = .ok (reached g s e) := by
  have hread : (g.neighbours e).mapM (fun u => do return (u, ← found t.parts[u]?)) =
      .ok ((g.neighbours e).map fun u => (u, s.parts.get? u)) := by
    apply mapM_eq_ok
    intro u hu
    rw [ht.parts u (hg.below e he u hu)]
    rfl
  rw [reachedIn, hg.row e he, ok_bind, hread, ok_bind, List.filter_map, List.map_map]
  change Except.ok (List.map id _) = _
  rw [List.map_id, reached]
  congr 1
  apply List.filter_congr
  intro u hu
  rw [Function.comp_apply, Bool.eq_iff_iff, IdMap.contains_iff, Option.isNone_iff_eq_none]
  exact hs.get?_eq_none_iff (hg.below e he u hu)

/-- The writes and look-ups with which an element joins a part. -/
theorem Cells.Of.join (ht : t.Of g.size s) (hg : g.Readable) (hs : Complete g.size s)
    (he : e ∈ s.free.keys) (p : Nat) {seed : Nat}
    (hseed : ∀ j < seed, j ∈ (s.give e p).parts.keys) :
    ∃ parts, put t.parts e (some p) = .ok parts ∧
      reachedIn g parts e = .ok (reached g (s.give e p) e) ∧
      Cells.Of g.size (s.give e p) ⟨parts, seed⟩ := by
  have hlt : e < g.size := ((hs.free e).1 he).1
  have ht' := ht.give hlt p hseed
  have hput := put_of_lt (hlt.trans_eq ht.size.symm) (some p)
  have hreached := reachedIn_eq hg (hs.give (p := p) he) ht' hlt
  exact ⟨_, hput, hreached, ht'⟩

theorem lt_of_mem_reached (hg : g.Readable) (he : e < g.size) :
    ∀ u ∈ reached g s e, u < g.size :=
  fun u hu => hg.below e he u (List.mem_of_mem_filter hu)

/-- No check fails while a part grows, as long as there are as many free elements as it lacks. -/
theorem fillIn_eq (hg : g.Readable) {need : Nat} {front back : List Nat}
    (hs : Complete g.size s) (ht : t.Of g.size s)
    (hqueue : ∀ e ∈ front ++ back.reverse, e < g.size) (hneed : need ≤ s.free.size) :
    ∃ t', fillIn g p need (front ++ back.reverse) t = .ok t' ∧
      t'.Of g.size (fill g p need front back s) := by
  fun_induction fill g p need front back s generalizing t with
  | case1 =>
    refine ⟨t, ?_, ht⟩
    rw [fillIn]
    rfl
  | case2 s need e front back hfree s' =>
    rename_i ih
    have hmem := IdMap.contains_iff.1 hfree
    obtain ⟨he, hrest⟩ := List.forall_mem_cons.1 hqueue
    have hcell := ht.parts e he
    rw [(hs.get?_eq_none_iff he).2 hmem] at hcell
    obtain ⟨parts, hput, hreached, ht'⟩ := ht.join hg hs hmem p fun j hj =>
      IdMap.mem_keys_insert.2 (.inr (ht.seed j hj))
    have hsize : s'.free.size + 1 = s.free.size := size_free_give hmem
    have hback : front ++ ((reached g (s.give e p) e).reverse ++ back).reverse =
        front ++ back.reverse ++ reached g (s.give e p) e := by simp
    rw [hback] at ih
    obtain ⟨t', hfill, hof⟩ := ih (hs.give hmem) ht' (by
      intro u hu
      rcases List.mem_append.1 hu with hu | hu
      · exact hrest u hu
      · exact lt_of_mem_reached hg he u hu) (by omega)
    refine ⟨t', ?_, hof⟩
    rw [List.cons_append, fillIn, hcell, found_some, ok_bind, Option.isSome_none,
      if_neg Bool.false_ne_true, hput, ok_bind, hreached, ok_bind, hfill]
  | case3 s need e front back hfree ih =>
    obtain ⟨he, hrest⟩ := List.forall_mem_cons.1 hqueue
    have hmem : e ∈ s.parts.keys := by
      by_contra hnot
      exact hfree (IdMap.contains_iff.2 ((hs.free e).2 ⟨he, hnot⟩))
    obtain ⟨q, hq⟩ := IdMap.mem_keys_iff.1 hmem
    have hcell := ht.parts e he
    rw [hq] at hcell
    obtain ⟨t', hfill, hof⟩ := ih hs ht hrest hneed
    refine ⟨t', ?_, hof⟩
    rw [List.cons_append, fillIn, hcell, found_some, ok_bind, if_pos Option.isSome_some, hfill]
  | case4 s need e back ih =>
    have hsame : [] ++ (e :: back).reverse = (e :: back).reverse ++ [].reverse := by simp
    rw [hsame] at hqueue ⊢
    exact ih hs ht hqueue hneed
  | case5 s need e hfirst s' =>
    rename_i ih
    obtain ⟨hmem, hlowest⟩ := IdMap.first?_eq_some_iff.1 hfirst
    have he : e < g.size := ((hs.free e).1 hmem).1
    have hbelow (j : Nat) (hj : j < e) : j ∈ s.parts.keys := by
      by_contra hnot
      have := hlowest j ((hs.free j).2 ⟨hj.trans he, hnot⟩)
      omega
    have hseed : t.seed ≤ e := by
      by_contra hlt
      exact ((hs.free e).1 hmem).2 (ht.seed e (Nat.lt_of_not_le hlt))
    obtain ⟨parts, hput, hreached, ht'⟩ := ht.join hg hs hmem p fun j hj =>
      IdMap.mem_keys_insert.2 (.inr (hbelow j hj))
    have hsize : s'.free.size + 1 = s.free.size := size_free_give hmem
    rw [List.reverse_nil, List.append_nil] at ih
    obtain ⟨t', hfill, hof⟩ := ih (hs.give hmem) ht' (lt_of_mem_reached hg he) (by omega)
    refine ⟨t', ?_, hof⟩
    rw [List.reverse_nil, List.append_nil, fillIn, scan_eq hs ht hfirst hseed, ok_bind, hput,
      ok_bind, hreached, ok_bind, hfill]
  | case6 s need hfirst =>
    have hnil := IdMap.keys_eq_nil_of_first? hfirst
    rw [← IdMap.length_keys, hnil] at hneed
    exact absurd hneed (Nat.not_succ_le_zero need)

theorem fillIn_nil_eq (hg : g.Readable) {need : Nat} (hs : Complete g.size s) (ht : t.Of g.size s)
    (hneed : need ≤ s.free.size) :
    ∃ t', fillIn g p need [] t = .ok t' ∧ t'.Of g.size (fill g p need [] [] s) := by
  have hqueue : ∀ e ∈ [] ++ ([] : List Nat).reverse, e < g.size :=
    fun e he => absurd he List.not_mem_nil
  exact fillIn_eq hg hs ht hqueue hneed

/-- The first `k` parts grow without a failed check. -/
theorem exists_foldlM_fillIn (hg : g.Readable) {m k : Nat} (hk : k ≤ m) :
    ∃ t, (List.range k).foldlM (fun t p => do
        let stop ← quotient ((p + 1) * g.size) m
        let start ← quotient (p * g.size) m
        fillIn g p (stop - start) [] t) ⟨Array.replicate g.size none, 0⟩ = .ok t ∧
      t.Of g.size ((List.range k).foldl
        (fun s p => fill g p (Run.share g.size m p) [] [] s) (bare g.size)) := by
  induction k with
  | zero => exact ⟨_, rfl, Cells.of_bare _⟩
  | succ k ih =>
    obtain ⟨t, hfold, ht⟩ := ih (Nat.le_of_succ_le hk)
    have hm : 0 < m := Nat.zero_lt_of_lt hk
    have hgrown := grown_foldl g (Nat.le_of_succ_le hk)
    have hfree := hgrown.free
    have hnext : Run.start g.size m (k + 1) ≤ g.size := Run.start_le hk
    have hshare : Run.share g.size m k = (k + 1) * g.size / m - k * g.size / m := rfl
    obtain ⟨t', hfill, ht'⟩ := fillIn_nil_eq hg hgrown.complete ht (p := k)
      (show Run.share g.size m k ≤ _ by rw [Run.share]; omega)
    refine ⟨t', ?_, ?_⟩
    · rw [List.range_succ, List.foldlM_append, hfold, ok_bind, List.foldlM_cons,
        quotient_of_pos hm, ok_bind, quotient_of_pos hm, ok_bind, ← hshare, hfill]
      rfl
    · rwa [List.range_succ, List.foldl_concat]

/-- No check fails while the parts grow, and they are the grown parts. -/
theorem growIn_eq (hg : g.Readable) {m : Nat} (hm : 0 < m) :
    growIn g m = .ok ((List.range g.size).map fun e => ((grow g m).parts.get? e).getD 0) := by
  obtain ⟨t, hfold, ht⟩ := exists_foldlM_fillIn hg (Nat.le_refl m)
  rw [← grow_eq_foldl_range] at ht
  rw [growIn, hfold, ok_bind]
  have hcells : t.parts.toList.map (fun part => part.getD unassigned) =
      (List.range g.size).map fun e => ((grow g m).parts.get? e).getD 0 := by
    apply List.ext_getElem
    · simp [ht.size]
    · intro e he he'
      have hlt : e < g.size := by simpa using he'
      obtain ⟨p, hp⟩ := IdMap.mem_keys_iff.1 (mem_keys_grow g hm hlt)
      have hcell := ht.parts e hlt
      rw [Array.getElem?_eq_getElem (hlt.trans_eq ht.size.symm), hp] at hcell
      simp [Option.some.inj hcell, hp]
  exact congrArg Except.ok hcells

end Growth

end MeshDecomp
