import MeshDecomp.Mesh.FaceGraph

/-!
The rows of the face graph. They lie end to end in the targets: every row is found between its two
offsets, and holds elements only.
-/

namespace MeshDecomp.FaceGraph

variable {rows : List (List Nat)} {ts : List Tet}

theorem length_offsetsFrom (start : Nat) (rows : List (List Nat)) :
    (offsetsFrom start rows).length = rows.length + 1 := by
  induction rows generalizing start with
  | nil => rfl
  | cons row rows ih => simp [offsetsFrom, ih]

/-- An offset counts the targets of all rows before. -/
theorem getElem?_offsetsFrom (start : Nat) (rows : List (List Nat)) {i : Nat}
    (hi : i ≤ rows.length) :
    (offsetsFrom start rows)[i]? = some (start + (rows.take i).flatten.length) := by
  induction rows generalizing start i with
  | nil =>
    obtain rfl : i = 0 := Nat.le_zero.1 hi
    rfl
  | cons row rows ih =>
    cases i with
    | zero => rfl
    | succ i =>
      rw [offsetsFrom, List.getElem?_cons_succ, ih _ (Nat.le_of_succ_le_succ hi)]
      simp [Nat.add_assoc]

theorem size_ofRows (rows : List (List Nat)) : (ofRows rows).size = rows.length := by
  simp [size, ofRows, length_offsetsFrom]

theorem getElem?_offsets {i : Nat} (hi : i ≤ rows.length) :
    (ofRows rows).offsets[i]? = some (rows.take i).flatten.length := by
  rw [ofRows, List.getElem?_toArray, getElem?_offsetsFrom 0 rows hi, Nat.zero_add]

theorem length_take_succ {i : Nat} (hi : i < rows.length) :
    (rows.take (i + 1)).flatten.length = (rows.take i).flatten.length + rows[i].length := by
  rw [List.take_succ_eq_append_getElem hi, List.flatten_concat, List.length_append]

theorem neighbours_ofRows {i : Nat} (hi : i < rows.length) :
    (ofRows rows).neighbours i = rows[i] := by
  have hsplit : rows.flatten =
      (rows.take i).flatten ++ (rows[i] ++ (rows.drop (i + 1)).flatten) := by
    rw [← List.flatten_cons, ← List.drop_eq_getElem_cons hi, ← List.flatten_append,
      List.take_append_drop]
  have hlow : (ofRows rows).offsets.getD i 0 = (rows.take i).flatten.length := by
    rw [Array.getD_eq_getD_getElem?, getElem?_offsets (Nat.le_of_lt hi), Option.getD_some]
  have hhigh : (ofRows rows).offsets.getD (i + 1) 0 =
      (rows.take i).flatten.length + rows[i].length := by
    rw [Array.getD_eq_getD_getElem?, getElem?_offsets hi, Option.getD_some, length_take_succ hi]
  have htargets : (ofRows rows).targets.toList = rows.flatten := rfl
  rw [neighbours, hlow, hhigh, Array.toList_extract, htargets, hsplit, List.extract_eq_take_drop,
    List.drop_left, Nat.add_sub_cancel_left, List.take_left]

/-! ### Offsets in general -/

/-- The offsets ascend from zero to the end of the targets, with `n` rows between them. -/
structure Compressed (g : FaceGraph) (n : Nat) : Prop where
  size : g.offsets.size = n + 1
  first : g.offsets[0]? = some 0
  ascending : g.offsets.toList.Pairwise (· ≤ ·)
  last : g.offsets[n]? = some g.targets.size

theorem le_of_mem_offsetsFrom {start a : Nat} (h : a ∈ offsetsFrom start rows) : start ≤ a := by
  induction rows generalizing start with
  | nil =>
    simp only [offsetsFrom, List.mem_singleton] at h
    omega
  | cons row rows ih =>
    simp only [offsetsFrom, List.mem_cons] at h
    cases h with
    | inl h => omega
    | inr h =>
      have hle := ih h
      omega

theorem pairwise_offsetsFrom (start : Nat) (rows : List (List Nat)) :
    (offsetsFrom start rows).Pairwise (· ≤ ·) := by
  induction rows generalizing start with
  | nil => simp [offsetsFrom]
  | cons row rows ih =>
    simp only [offsetsFrom, List.pairwise_cons]
    constructor
    · intro a ha
      have hle := le_of_mem_offsetsFrom ha
      omega
    · exact ih (start + row.length)

theorem compressed_ofRows (rows : List (List Nat)) : (ofRows rows).Compressed rows.length where
  size := by simp [ofRows, length_offsetsFrom]
  first := by simp [getElem?_offsets (Nat.zero_le rows.length)]
  ascending := pairwise_offsetsFrom 0 rows
  last := by
    rw [getElem?_offsets (Nat.le_refl rows.length), List.take_length]
    rfl

namespace Compressed

variable {g : FaceGraph} {n : Nat}

theorem le (h : g.Compressed n) {i k start stop : Nat} (hik : i ≤ k)
    (hi : g.offsets[i]? = some start) (hk : g.offsets[k]? = some stop) : start ≤ stop := by
  obtain ⟨hin, rfl⟩ := Array.getElem?_eq_some_iff.1 hi
  obtain ⟨hkn, rfl⟩ := Array.getElem?_eq_some_iff.1 hk
  cases Nat.eq_or_lt_of_le hik with
  | inl heq => simp only [heq, Nat.le_refl]
  | inr hlt => exact List.pairwise_iff_getElem.1 h.ascending i k hin hkn hlt

/-- Every row lies between two offsets, within the targets. -/
theorem row (h : g.Compressed n) {e : Nat} (he : e < n) :
    ∃ start stop, g.offsets[e]? = some start ∧ g.offsets[e + 1]? = some stop ∧ start ≤ stop ∧
      stop ≤ g.targets.size ∧ g.neighbours e = (g.targets.extract start stop).toList := by
  have hsize := h.size
  have hstart : g.offsets[e]? = some g.offsets[e] := Array.getElem?_eq_getElem (by omega)
  have hstop : g.offsets[e + 1]? = some g.offsets[e + 1] := Array.getElem?_eq_getElem (by omega)
  refine ⟨_, _, hstart, hstop, h.le (by omega) hstart hstop, h.le (by omega) hstop h.last, ?_⟩
  simp only [neighbours, Array.getD_eq_getD_getElem?, hstart, hstop, Option.getD_some]

end Compressed

theorem size_ofTets (ts : List Tet) : (ofTets ts).size = ts.length := by
  rw [ofTets, size_ofRows, List.length_map, List.length_range]

theorem compressed_ofTets (ts : List Tet) : (ofTets ts).Compressed ts.length := by
  have h := compressed_ofRows ((List.range ts.length).map fun e =>
    ascending (((linked (links (allFaces ts))).get? e).getD []))
  rwa [List.length_map, List.length_range] at h

theorem neighbours_ofTets {e : Nat} (he : e < ts.length) : (ofTets ts).neighbours e =
    ascending (((linked (links (allFaces ts))).get? e).getD []) := by
  have hlen : e < ((List.range ts.length).map fun e =>
      ascending (((linked (links (allFaces ts))).get? e).getD [])).length := by
    rwa [List.length_map, List.length_range]
  rw [ofTets, neighbours_ofRows hlen, List.getElem_map, List.getElem_range]

/-- The neighbours of an element are what it is linked to. -/
theorem mem_neighbours_ofTets {e u : Nat} (he : e < ts.length) :
    u ∈ (ofTets ts).neighbours e ↔ (e, u) ∈ links (allFaces ts) := by
  rw [neighbours_ofTets he, mem_ascending, get?_linked]
  simp

theorem lt_of_mem_allFaces {f : Face × Nat} (h : f ∈ allFaces ts) : f.2 < ts.length := by
  obtain ⟨t, ht, hf⟩ := List.mem_flatMap.1 h
  obtain ⟨face, -, rfl⟩ := List.mem_map.1 hf
  exact List.snd_lt_of_mem_zipIdx ht

theorem mem_of_get?_holders {faces : List (Face × Nat)} {f : Face} {h : Nat}
    (hh : (holders faces).get? f = some h) : (f, h) ∈ faces := by
  rw [get?_holders, Option.map_eq_some_iff] at hh
  obtain ⟨g, hg, rfl⟩ := hh
  have hface : g.1 = f := by simpa using List.find?_some hg
  rw [← hface]
  exact List.mem_of_find?_eq_some hg

theorem lt_of_mem_links {l : Nat × Nat} (h : l ∈ links (allFaces ts)) :
    l.1 < ts.length ∧ l.2 < ts.length := by
  obtain ⟨f, hf, hl⟩ := List.mem_flatMap.1 h
  have hown := lt_of_mem_allFaces hf
  split at hl
  · next other hother =>
    have hheld := lt_of_mem_allFaces (mem_of_get?_holders hother)
    split at hl
    · exact absurd hl List.not_mem_nil
    · rw [List.mem_cons, List.mem_singleton] at hl
      rcases hl with rfl | rfl
      · exact ⟨hown, hheld⟩
      · exact ⟨hheld, hown⟩
  · exact absurd hl List.not_mem_nil

/-- Neighbours are elements. -/
theorem lt_of_mem_neighbours {e u : Nat} (he : e < ts.length)
    (h : u ∈ (ofTets ts).neighbours e) : u < ts.length :=
  (lt_of_mem_links ((mem_neighbours_ofTets he).1 h)).2

end MeshDecomp.FaceGraph
