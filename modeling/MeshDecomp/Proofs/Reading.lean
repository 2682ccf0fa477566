import MeshDecomp.Proofs.Exchange

/-! What a rank reads of a complete mesh, and its first call. -/
namespace MeshDecomp

/-- A walk that puts in what another map holds at the keys it passes. -/
theorem IdMap.foldlM_insert {step : IdMap α → Nat → Except ε (IdMap α)} {m : IdMap α}
    (hstep : ∀ found x p, m.get? x = some p → step found x = .ok (found.insert x p))
    {keys : List Nat} (h : ∀ x ∈ keys, ∃ p, m.get? x = some p) (init : IdMap α) :
    ∃ found, keys.foldlM step init = .ok found ∧
      (∀ x ∈ keys, found.get? x = m.get? x) ∧ ∀ x, x ∉ keys → found.get? x = init.get? x := by
  induction keys generalizing init with
  | nil => exact ⟨init, rfl, by simp, fun _ _ => rfl⟩
  | cons y keys ih =>
    obtain ⟨⟨p, hp⟩, hrest⟩ := List.forall_mem_cons.1 h
    obtain ⟨found, hf, hin, hout⟩ := ih hrest (init.insert y p)
    refine ⟨found, ?_, ?_, ?_⟩
    · rw [List.foldlM_cons, hstep init y p hp]
      exact hf
    · intro x hx
      by_cases hmem : x ∈ keys
      · exact hin x hmem
      · obtain rfl : x = y := (List.mem_cons.1 hx).resolve_right hmem
        rw [hout x hmem, IdMap.get?_insert, if_pos rfl, hp]
    · intro x hx
      rw [List.mem_cons, not_or] at hx
      rw [hout x hx.2, IdMap.get?_insert, if_neg hx.1]

namespace TetMesh

theorem firstUnknown_eq_none_iff {coordinates : IdMap Point} {ts : List Tet} {e : Nat} :
    firstUnknown coordinates e ts = none ↔
      ∀ t ∈ ts, ∀ x ∈ t.nodes, ∃ p, coordinates.get? x = some p := by
  induction ts generalizing e with
  | nil => simp [firstUnknown]
  | cons t ts ih =>
    rw [List.forall_mem_cons, ← ih (e := e + 1), firstUnknown]
    cases hf : t.nodes.find? fun n => !coordinates.contains n with
    | some x =>
      have hx : x ∈ t.nodes := List.mem_of_find?_eq_some hf
      have hn : ¬ ∃ p, coordinates.get? x = some p := by
        have hc := List.find?_some hf
        rw [Bool.not_eq_true', Bool.eq_false_iff, ne_eq, IdMap.contains_iff,
          IdMap.mem_keys_iff] at hc
        exact hc
      simp only [reduceCtorEq, false_iff, not_and]
      exact fun h => absurd (h x hx) hn
    | none =>
      refine (and_iff_right fun x hx => ?_).symm
      have hc := List.find?_eq_none.1 hf x hx
      rw [Bool.not_eq_true', Bool.not_eq_false, IdMap.contains_iff, IdMap.mem_keys_iff] at hc
      exact hc

/-- The meshes that pass the check of their connectivity are the complete ones. -/
theorem isComplete_iff {m : TetMesh} :
    m.IsComplete ↔ ofFlat m.connectivity m.coordinates = .ok m := by
  have hlen : ¬ m.connectivity.length % 4 ≠ 0 := by
    unfold connectivity
    rw [Tet.length_flatten]
    omega
  have htets : Tet.ofFlat m.connectivity = m.tets := Tet.ofFlat_flatten m.tets
  unfold ofFlat
  rw [if_neg hlen, htets, IsComplete, ← firstUnknown_eq_none_iff (e := 0)]
  cases firstUnknown m.coordinates 0 m.tets <;> simp

theorem IsComplete.relabel {m : TetMesh} (h : m.IsComplete) (f : Nat → Nat) :
    (m.relabel f).IsComplete := by
  intro _ hmap x hx
  obtain ⟨t, ht, rfl⟩ := List.mem_map.1 hmap
  have hnodes : ∃ y ∈ t.nodes, x = f y := by
    simpa [Tet.nodes] using hx
  obtain ⟨y, hy, rfl⟩ := hnodes
  obtain ⟨p, hp⟩ := h t ht y hy
  apply IdMap.mem_keys_iff.1
  refine IdMap.mem_keys_ofList.2 ⟨p, List.mem_map.2 ⟨(y, p), IdMap.mem_entries_iff.2 hp, rfl⟩⟩

theorem get?_lookUp {m : TetMesh} {nodes : List Nat}
    (h : ∀ x ∈ nodes, ∃ p, m.coordinates.get? x = some p) :
    ∃ found, m.lookUp nodes = .ok found ∧
      ∀ x ∈ nodes, found.get? x = m.coordinates.get? x := by
  unfold lookUp
  refine (IdMap.foldlM_insert ?_ h ∅).imp fun found hf => ⟨hf.1, hf.2.1⟩
  intro found x p hp
  rw [hp]

end TetMesh

theorem Portion.mean_eq {m : TetMesh} {found : IdMap Point} {t : Tet}
    (h : ∀ x ∈ t.nodes, found.get? x = m.coordinates.get? x)
    (hc : ∀ x ∈ t.nodes, ∃ p, m.coordinates.get? x = some p) :
    Portion.mean found t = .ok (m.centroid t) := by
  unfold Portion.mean
  rw [mapM_eq_ok (g := fun x => (m.coordinates.get? x).getD .origin)]
  · rfl
  · intro x hx
    obtain ⟨p, hp⟩ := hc x hx
    rw [h x hx, hp]
    rfl

namespace Scenario

variable {S : Scenario} {pe : Nat}

theorem read_portion (h : pe < S.pes) :
    Portion.read S.mesh.reader S.pes pe = .ok (S.portion pe) := by
  have hstop : (S.span pe).stop ≤ S.mesh.size := Block.stop_span_le h
  have hle : (S.span pe).first ≤ (S.span pe).stop := Nat.le_add_right _ _
  have hread : S.mesh.reader.elements (S.span pe).first (S.span pe).stop =
      .ok (S.portion pe).connectivity := by
    show S.mesh.elements _ _ = _
    rw [TetMesh.elements, if_neg (by omega)]
    rfl
  have hlen : (S.portion pe).connectivity.length = 4 * (S.span pe).size := by
    unfold portion
    rw [Tet.length_flatten, length_slice h rfl]
  have hspan : Portion.read S.mesh.reader S.pes pe = Portion.readSpan S.mesh.reader (S.span pe) :=
    Portion.read_of_pos rfl (Nat.zero_lt_of_lt h) pe
  rw [hspan, Portion.readSpan, hread]
  simp only [Except.mapError, bind, Except.bind, hlen, ↓reduceIte]
  rfl

theorem centroids_portion (hm : S.mesh.IsComplete) (pe : Nat) :
    (S.portion pe).centroids S.mesh.reader =
      .ok (.ofPoints ((S.slice pe S.mesh.tets).map S.mesh.centroid)) := by
  have hin : ∀ t ∈ S.slice pe S.mesh.tets, t ∈ S.mesh.tets := fun t ht =>
    List.mem_of_mem_drop (List.mem_of_mem_take ht)
  have hknown : ∀ x ∈ (S.portion pe).nodes, ∃ p, S.mesh.coordinates.get? x = some p := by
    intro x hx
    rw [Portion.nodes, mem_ascending, portion, Tet.flatten, List.mem_flatMap] at hx
    obtain ⟨t, ht, hx⟩ := hx
    exact hm t (hin t ht) x hx
  obtain ⟨found, hfound, hget⟩ := TetMesh.get?_lookUp hknown
  have hmap : (S.slice pe S.mesh.tets).mapM (Portion.mean found) =
      .ok ((S.slice pe S.mesh.tets).map S.mesh.centroid) := by
    apply mapM_eq_ok
    intro t ht
    refine Portion.mean_eq (fun x hx => hget x ?_) (hm t (hin t ht))
    rw [Portion.nodes, mem_ascending, portion, Tet.flatten, List.mem_flatMap]
    exact ⟨t, ht, hx⟩
  have hcoord : S.mesh.reader.coordinates (S.portion pe).nodes = .ok found := hfound
  rw [Portion.centroids, hcoord]
  simp only [bind, Except.bind, portion, Tet.ofFlat_flatten, hmap]
  rfl

/-- A processing element before its first call. -/
def fresh (S : Scenario) (pe : Nat) : Worker where
  rank := pe
  pes := S.pes
  reader := S.mesh.reader
  geometric := S.partitioner.geometric

theorem size_portion (pe : Nat) : (S.portion pe).size = (S.span pe).size := by
  simp [portion, Portion.size]

/-- A rank that has read its elements. -/
theorem worker_nil : S.worker pe {} = { S.fresh pe with
    started := true, total := S.mesh.size, portion := S.portion pe, phase := .ready } := by
  have hc : ¬ S.Complete pe {} := not_complete rfl
  have hset : ¬ S.Settled pe {} := not_settled hc
  simp [worker, fresh, phase, hc, hset]

/-- A rank reads its elements and tells them to the host. -/
theorem start_fresh (hm : S.mesh.IsComplete) (h : pe < S.pes) :
    (S.fresh pe).start =
      .ok (S.worker pe {}) [.contribute (.load (S.span pe).size), .contribute .setup,
        .contribute (.elements (S.elementSlice pe))] := by
  have hload := size_portion (S := S) pe
  have hread : Worker.read { S.fresh pe with started := true } =
      .ok { S.fresh pe with
        started := true, total := S.mesh.size, portion := S.portion pe, completions := [.reading] }
        [.contribute (.load (S.span pe).size)] := by
    have hcount : (S.fresh pe).reader.count = .ok S.mesh.size := rfl
    have hp : Portion.read (S.fresh pe).reader (S.fresh pe).pes (S.fresh pe).rank =
        .ok (S.portion pe) := read_portion h
    simp only [Worker.read, hcount, hp, hload]
    rfl
  rw [Worker.start, if_neg (by simp [fresh]), hread, Outcome.append_ok, Worker.drain_of_cons rfl,
    worker_nil]
  unfold Worker.complete
  cases hg : S.partitioner.geometric with
  | false =>
    rw [if_neg (by simp [fresh, hg])]
    simp only [Worker.ready, Outcome.append_ok]
    rw [Worker.drain_of_nil rfl]
    simp only [elementSlice, hg, Bool.false_eq_true, ↓reduceIte]
    rfl
  | true =>
    have hp : (S.portion pe).centroids (S.fresh pe).reader =
        .ok (.ofPoints ((S.slice pe S.mesh.tets).map S.mesh.centroid)) := centroids_portion hm pe
    rw [if_pos (by simp [fresh, hg])]
    simp only [Worker.findCentroids, hp, Outcome.append_ok]
    rw [Worker.drain_of_cons rfl]
    simp only [Worker.complete, Worker.ready, Outcome.append_ok]
    rw [Worker.drain_of_nil rfl]
    simp only [elementSlice, hg, ↓reduceIte]
    rfl

end Scenario

end MeshDecomp
