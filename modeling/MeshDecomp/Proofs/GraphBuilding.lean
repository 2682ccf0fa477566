import MeshDecomp.Proofs.Lookups
import MeshDecomp.Proofs.Rows

/-!
The face graph built element by element, with every look-up checked. The rows grow at both ends of
each new link; sorted and without repeats they are the rows of the face graph.
-/

namespace MeshDecomp

open Checked

/-- The four nodes of an element. -/
def Tet.readAt (ids : List Nat) (e : Nat) : Except Crash Tet := do
  let a ← found ids[4 * e]?
  let b ← found ids[4 * e + 1]?
  let c ← found ids[4 * e + 2]?
  let d ← found ids[4 * e + 3]?
  return ⟨a, b, c, d⟩

theorem Tet.readAt_eq {ids : List Nat} {e : Nat} (he : e < (Tet.ofFlat ids).length) :
    Tet.readAt ids e = .ok (Tet.ofFlat ids)[e] := by
  fun_induction Tet.ofFlat ids generalizing e with
  | case1 a b c d r ih =>
    cases e with
    | zero => rfl
    | succ e => exact ih (Nat.lt_of_succ_lt_succ he)
  | case2 ids hne => exact absurd he (Nat.not_lt_zero e)

namespace FaceGraph

variable {n : Nat} {faces : List (Face × Nat)} {f : Face × Nat} {l : Nat × Nat}

theorem mem_links : l ∈ links faces ↔ ∃ f ∈ faces, ∃ h, (holders faces).get? f.1 = some h ∧
    h ≠ f.2 ∧ (l = (f.2, h) ∨ l = (h, f.2)) := by
  unfold links
  rw [List.mem_flatMap]
  apply exists_congr
  intro f
  apply and_congr_right
  intro _
  cases (holders faces).get? f.1 with
  | none => simp
  | some h => by_cases hf : h = f.2 <;> simp [hf]

/-- A new face has its first element for holder. -/
theorem get?_holders_concat (faces : List (Face × Nat)) (f : Face × Nat) (g : Face) :
    (holders (faces ++ [f])).get? g =
      ((holders faces).get? g).or (if f.1 = g then some f.2 else none) := by
  rw [get?_holders, get?_holders, List.find?_append, Option.map_or]
  congr 1
  by_cases hg : f.1 = g <;> simp [hg]

theorem get?_holders_of_mem {g : Face × Nat} (hg : g ∈ faces) :
    (holders (faces ++ [f])).get? g.1 = (holders faces).get? g.1 := by
  have hsome : ((holders faces).get? g.1).isSome := by
    rw [get?_holders, Option.isSome_map, List.find?_isSome]
    exact ⟨g, hg, decide_eq_true rfl⟩
  obtain ⟨h, hh⟩ := Option.isSome_iff_exists.1 hsome
  rw [get?_holders_concat, hh, Option.some_or]

/-- A face brings a link to its holder, unless it is the first of its kind. -/
theorem mem_links_concat : l ∈ links (faces ++ [f]) ↔ l ∈ links faces ∨
    ∃ h, (holders faces).get? f.1 = some h ∧ h ≠ f.2 ∧ (l = (f.2, h) ∨ l = (h, f.2)) := by
  rw [mem_links, mem_links]
  constructor
  · rintro ⟨g, hg, h, hh, hne, hl⟩
    rcases List.mem_append.1 hg with hg | hg
    · rw [get?_holders_of_mem hg] at hh
      exact .inl ⟨g, hg, h, hh, hne, hl⟩
    · obtain rfl := List.mem_singleton.1 hg
      rw [get?_holders_concat, if_pos rfl] at hh
      cases hold : (holders faces).get? g.1 with
      | none =>
        rw [hold, Option.none_or, Option.some_inj] at hh
        exact absurd hh.symm hne
      | some other =>
        rw [hold, Option.some_or, Option.some_inj] at hh
        exact .inr ⟨other, rfl, hh ▸ hne, hh ▸ hl⟩
  · rintro (⟨g, hg, h, hh, hne, hl⟩ | ⟨h, hh, hne, hl⟩)
    · rw [← get?_holders_of_mem (f := f) hg] at hh
      exact ⟨g, List.mem_append_left _ hg, h, hh, hne, hl⟩
    · refine ⟨f, List.mem_append_right _ (List.mem_singleton_self f), h, ?_, hne, hl⟩
      rw [get?_holders_concat, hh, Option.some_or]

/-! ### One face after the other -/

/-- The rows so far, and the first element with each face. -/
structure Building where
  rows : Array (List Nat)
  held : FaceMap Nat

/-- Puts `u` at the end of row `e`. -/
def push (rows : Array (List Nat)) (e u : Nat) : Except Crash (Array (List Nat)) := do
  let row ← found rows[e]?
  put rows e (row ++ [u])

/-- Links an element to the holder of its face, or makes it the holder. -/
def meet (b : Building) (f : Face × Nat) : Except Crash Building :=
  match b.held.get? f.1 with
  | some other =>
      if other = f.2 then return b
      else do
        let rows ← push b.rows f.2 other
        let rows ← push rows other f.2
        return { b with rows }
  | none => return { b with held := b.held.alter f.1 fun _ => f.2 }

def buildIn (ids : List Nat) : Except Crash FaceGraph := do
  let n := ids.length / 4
  let b ← (List.range n).foldlM (fun b e => do
    let t ← Tet.readAt ids e
    (t.faces.map (·, e)).foldlM meet b) ⟨Array.replicate n [], {}⟩
  return ofRows (b.rows.toList.map ascending)

/-- What has been built from these faces. -/
structure Building.Of (n : Nat) (faces : List (Face × Nat)) (b : Building) : Prop where
  below : ∀ f ∈ faces, f.2 < n
  held : ∀ f, b.held.get? f = (holders faces).get? f
  size : b.rows.size = n
  rows : ∀ e row, b.rows[e]? = some row → ∀ u, u ∈ row ↔ (e, u) ∈ links faces

/-- A row gains `u`; the others stay. -/
theorem push_spec {rows : Array (List Nat)} {e : Nat} (he : e < rows.size) (u : Nat) :
    ∃ rows', push rows e u = .ok rows' ∧ rows'.size = rows.size ∧
      ∀ k row', rows'[k]? = some row' → ∃ row, rows[k]? = some row ∧
        ∀ v, v ∈ row' ↔ v ∈ row ∨ (k = e ∧ v = u) := by
  refine ⟨rows.setIfInBounds e (rows[e] ++ [u]), ?_, Array.size_setIfInBounds, ?_⟩
  · rw [push, Array.getElem?_eq_getElem he]
    exact put_of_lt he _
  · intro k row' hrow'
    rcases eq_or_ne e k with rfl | hne
    · rw [Array.getElem?_setIfInBounds_self_of_lt he, Option.some_inj] at hrow'
      refine ⟨rows[e], Array.getElem?_eq_getElem he, fun v => ?_⟩
      rw [← hrow', List.mem_append, List.mem_singleton]
      tauto
    · rw [Array.getElem?_setIfInBounds_ne hne] at hrow'
      refine ⟨row', hrow', fun v => ?_⟩
      have hne' : k ≠ e := hne.symm
      tauto

theorem Building.Of.below_concat {b : Building} (h : b.Of n faces) (hf : f.2 < n) :
    ∀ g ∈ faces ++ [f], g.2 < n := by
  intro g hg
  rcases List.mem_append.1 hg with hg | hg
  · exact h.below g hg
  · rwa [List.mem_singleton.1 hg]

/-- No check fails at a face of an element, and the building keeps up. -/
theorem Building.Of.meet {b : Building} (h : b.Of n faces) (hf : f.2 < n) :
    ∃ b', FaceGraph.meet b f = .ok b' ∧ b'.Of n (faces ++ [f]) := by
  have hbelow := h.below_concat hf
  unfold FaceGraph.meet
  cases hheld : b.held.get? f.1 with
  | none =>
    rw [h.held] at hheld
    refine ⟨_, rfl, hbelow, ?_, h.size, ?_⟩
    · intro g
      rw [FaceMap.get?_alter, get?_holders_concat, h.held]
      rcases eq_or_ne f.1 g with rfl | hg
      · rw [if_pos rfl, if_pos rfl, hheld, Option.none_or]
      · rw [if_neg hg, if_neg hg.symm, Option.or_none]
    · intro e row hrow u
      rw [h.rows e row hrow, mem_links_concat, hheld]
      simp
  | some other =>
    rw [h.held] at hheld
    have hkept (g : Face) : b.held.get? g = (holders (faces ++ [f])).get? g := by
      rw [get?_holders_concat, h.held]
      rcases eq_or_ne f.1 g with rfl | hg
      · rw [hheld, Option.some_or]
      · rw [if_neg hg, Option.or_none]
    have hother : other < n := h.below _ (mem_of_get?_holders hheld)
    by_cases hself : other = f.2
    · dsimp only
      rw [if_pos hself]
      refine ⟨b, rfl, hbelow, hkept, h.size, ?_⟩
      intro e row hrow u
      rw [h.rows e row hrow, mem_links_concat, hheld]
      simp [hself]
    · dsimp only
      rw [if_neg hself]
      have hown : f.2 < b.rows.size := hf.trans_eq h.size.symm
      obtain ⟨rows₁, hpush₁, hsize₁, hrows₁⟩ := push_spec hown other
      have hheld₁ : other < rows₁.size := hother.trans_eq (hsize₁.trans h.size).symm
      obtain ⟨rows₂, hpush₂, hsize₂, hrows₂⟩ := push_spec hheld₁ f.2
      rw [hpush₁, ok_bind, hpush₂]
      refine ⟨_, rfl, hbelow, hkept, hsize₂.trans (hsize₁.trans h.size), ?_⟩
      intro e row hrow u
      obtain ⟨row₁, hrow₁, hmem⟩ := hrows₂ e row hrow
      obtain ⟨row₀, hrow₀, hmem₁⟩ := hrows₁ e row₁ hrow₁
      rw [hmem, hmem₁, h.rows e row₀ hrow₀, mem_links_concat, hheld]
      simp only [Option.some_inj, Prod.mk.injEq, exists_eq_left']
      tauto

theorem Building.Of.foldlM_meet {new : List (Face × Nat)} {b : Building} (h : b.Of n faces)
    (hnew : ∀ f ∈ new, f.2 < n) :
    ∃ b', new.foldlM FaceGraph.meet b = .ok b' ∧ b'.Of n (faces ++ new) := by
  induction new generalizing b faces with
  | nil => exact ⟨b, rfl, (List.append_nil faces).symm ▸ h⟩
  | cons f new ih =>
    obtain ⟨hf, hnew⟩ := List.forall_mem_cons.1 hnew
    obtain ⟨b₁, hmeet, h₁⟩ := h.meet hf
    obtain ⟨b₂, hfold, h₂⟩ := ih h₁ hnew
    refine ⟨b₂, ?_, ?_⟩
    · rw [List.foldlM_cons, hmeet, ok_bind, hfold]
    · rwa [List.append_assoc] at h₂

/-! ### One element after the other -/

theorem allFaces_take_succ {ts : List Tet} {k : Nat} (hk : k < ts.length) :
    allFaces (ts.take (k + 1)) = allFaces (ts.take k) ++ ts[k].faces.map (·, k) := by
  have hlen : (ts.take k).length = k := List.length_take_of_le hk.le
  rw [allFaces, List.take_succ_eq_append_getElem hk, List.zipIdx_append, List.flatMap_append, hlen,
    Nat.zero_add, List.zipIdx_singleton, List.flatMap_singleton]
  rfl

theorem of_bare (n : Nat) : Building.Of n [] ⟨Array.replicate n [], {}⟩ where
  below f hf := absurd hf List.not_mem_nil
  held _ := rfl
  size := Array.size_replicate
  rows e row hrow u := by
    rw [Array.getElem?_replicate] at hrow
    split at hrow
    · obtain rfl := Option.some.inj hrow
      simp [mem_links]
    · cases hrow

theorem exists_foldlM_readAt (ids : List Nat) {k : Nat} (hk : k ≤ (Tet.ofFlat ids).length) :
    ∃ b, (List.range k).foldlM (fun b e => do
        let t ← Tet.readAt ids e
        (t.faces.map (·, e)).foldlM FaceGraph.meet b)
        ⟨Array.replicate (Tet.ofFlat ids).length [], {}⟩ = .ok b ∧
      b.Of (Tet.ofFlat ids).length (allFaces ((Tet.ofFlat ids).take k)) := by
  induction k with
  | zero => exact ⟨_, rfl, of_bare _⟩
  | succ k ih =>
    obtain ⟨b, hfold, hb⟩ := ih (Nat.le_of_succ_le hk)
    have hnew : ∀ f ∈ (Tet.ofFlat ids)[k].faces.map (·, k), f.2 < (Tet.ofFlat ids).length := by
      intro f hf
      obtain ⟨face, -, rfl⟩ := List.mem_map.1 hf
      exact hk
    obtain ⟨b', hfold', hb'⟩ := hb.foldlM_meet hnew
    refine ⟨b', ?_, ?_⟩
    · rw [List.range_succ, List.foldlM_append, hfold, ok_bind, List.foldlM_cons, Tet.readAt_eq hk,
        ok_bind, hfold']
      rfl
    · rwa [allFaces_take_succ hk]

/-- No check fails when the graph is built, and it is the face graph. -/
theorem buildIn_eq (ids : List Nat) : buildIn ids = .ok (ofTets (Tet.ofFlat ids)) := by
  obtain ⟨b, hfold, hb⟩ := exists_foldlM_readAt ids (Nat.le_refl _)
  rw [List.take_length] at hb
  rw [buildIn, ← Tet.length_ofFlat, hfold]
  have hrows : b.rows.toList.map ascending = (List.range (Tet.ofFlat ids).length).map fun e =>
      ascending (((linked (links (allFaces (Tet.ofFlat ids)))).get? e).getD []) := by
    apply List.ext_getElem
    · simp [hb.size]
    · intro e he he'
      have hsize : e < b.rows.size := by simpa using he
      have hmem := hb.rows e b.rows[e] (Array.getElem?_eq_getElem hsize)
      rw [List.getElem_map, List.getElem_map, List.getElem_range, Array.getElem_toList]
      apply eq_of_ascending (pairwise_ascending _) (pairwise_ascending _)
      intro u
      rw [mem_ascending, mem_ascending, hmem, get?_linked]
      simp
  exact congrArg (fun rows => Except.ok (ofRows rows)) hrows

end FaceGraph

end MeshDecomp
