import MeshDecomp.Proofs.Codec
import MeshDecomp.Proofs.HonestRuns
import MeshDecomp.Proofs.NewIds

/-! Every number of every letter of a run fits into a machine word, so all letters can be written
out and read back. -/

namespace MeshDecomp

open Wire

namespace Scenario

/-- Node ids and numbers of work units are machine words, and the mesh lies in memory. -/
structure Sized (S : Scenario) : Prop where
  inMemory : S.mesh.InMemory
  nodes : InWords S.mesh.connectivity
  units : S.units < 2 ^ 64
  assignment : InWords S.assignment

theorem sized_pair : pair.Sized where
  inMemory := by
    unfold TetMesh.InMemory
    decide
  nodes := by
    unfold Wire.InWords
    decide
  units := by decide
  assignment := by
    unfold Wire.InWords
    decide

variable {S : Scenario} {pe q x : Nat} {m : Letter}

theorem length_connectivity : S.mesh.connectivity.length = 4 * S.mesh.size :=
  Tet.length_flatten S.mesh.tets

theorem mem_connectivity_of_slice (hx : x ∈ (S.portion pe).connectivity) :
    x ∈ S.mesh.connectivity := by
  simp only [portion, Tet.flatten, TetMesh.connectivity, List.mem_flatMap] at hx ⊢
  obtain ⟨t, ht, hx⟩ := hx
  exact ⟨t, List.mem_of_mem_drop (List.mem_of_mem_take ht), hx⟩

theorem mem_connectivity_of_placed {e : Tet × Nat} (he : e ∈ S.placed) (hx : x ∈ e.1.nodes) :
    x ∈ S.mesh.connectivity := by
  have ht : e.1 ∈ S.mesh.tets := (List.of_mem_zip he).1
  exact List.mem_flatMap.2 ⟨e.1, ht, hx⟩

theorem mem_connectivity (hx : x ∈ S.nodes pe) : x ∈ S.mesh.connectivity := by
  obtain ⟨e, he, -, hx⟩ := mem_nodes.1 hx
  exact mem_connectivity_of_placed he hx

theorem length_nodes_le (pe : Nat) : (S.nodes pe).length ≤ S.mesh.connectivity.length := by
  have hnd : (S.nodes pe).Nodup := (ascending_nodes pe).imp Nat.ne_of_lt
  exact (hnd.subperm fun _ => mem_connectivity).length_le

theorem length_held_le (pe q : Nat) : (S.held pe q).length ≤ S.mesh.connectivity.length :=
  (List.length_filter_le _ _).trans (length_nodes_le pe)

theorem length_used_le : S.used.length ≤ S.mesh.connectivity.length :=
  (nodup_used.subperm fun _ hx => mem_ascending.1 hx).length_le

theorem newId_le (x : Nat) : S.newId x ≤ S.used.length := List.countP_le_length

theorem start_le (pe : Nat) : S.start pe ≤ S.used.length := List.countP_le_length

theorem highest_le (pe : Nat) : S.highest pe ≤ S.used.length := by
  refine foldl_max_le_iff.2 ⟨Nat.zero_le _, fun x hx => ?_⟩
  obtain ⟨u, hu, hx⟩ := List.mem_flatMap.1 hx
  obtain ⟨unit, -, rfl⟩ := List.mem_map.1 hu
  obtain ⟨y, -, rfl⟩ := List.mem_map.1 hx
  exact newId_le y

/-- A rough bound, which needs nothing of the run. -/
theorem upper_le (pe : Nat) : S.upper pe ≤ 2 * S.mesh.connectivity.length + 1 := by
  have hfrom : ∀ pe lower, lower ≤ 2 * S.mesh.connectivity.length + 1 →
      S.upperFrom pe lower ≤ 2 * S.mesh.connectivity.length + 1 := by
    intro pe lower hl
    have hused := length_used_le (S := S)
    have hhigh := highest_le (S := S) pe
    have hstart := start_le (S := S) pe
    have hheld := length_held_le (S := S) pe pe
    have hstop : (S.block pe).stop = S.start pe + (S.held pe pe).length := rfl
    unfold upperFrom
    split <;> omega
  have hlower : ∀ pe, S.lower pe ≤ 2 * S.mesh.connectivity.length + 1 := by
    intro pe
    induction pe with
    | zero => exact Nat.zero_le _
    | succ pe ih => exact hfrom pe _ ih
  exact hfrom pe _ (hlower pe)

theorem sender_lt (hm : S.Occurs m) : (S.parcel m).sender < S.pes := by
  cases m with
  | contribution k pe => exact hm
  | command b pe => exact Nat.zero_lt_of_lt hm
  | lower s => exact Nat.lt_of_succ_lt hm
  | peer x s t =>
    cases x with
    | add | request => exact hm.1
    | ack => exact lt_of_mem_keys_exports (Nat.zero_lt_of_lt hm.1) hm.2
    | reply => exact (lt_of_mem_keys_asked hm.1 hm.2).trans hm.1

namespace Sized

variable (hz : S.Sized)

include hz

theorem length_lt {n : Nat} (h : n ≤ S.mesh.connectivity.length) : n < 2 ^ 64 := by
  have hm : 8 * S.mesh.connectivity.length < 2 ^ 63 := hz.inMemory
  omega

theorem size_lt {n : Nat} (h : n ≤ S.mesh.size) : n < 2 ^ 64 :=
  hz.length_lt (by rw [length_connectivity]; omega)

theorem inWords_nodes {l : List Nat} (hlen : l.length ≤ S.mesh.connectivity.length)
    (h : ∀ x ∈ l, x ∈ S.mesh.connectivity) : InWords (wordsOfList l) :=
  inWords_list.2 ⟨hz.length_lt hlen, fun x hx => hz.nodes x (h x hx)⟩

theorem inWords_held (pe q : Nat) : InWords (wordsOfList (S.held pe q)) :=
  hz.inWords_nodes (length_held_le pe q) fun _ hx => mem_connectivity (mem_held.1 hx).1

theorem inWords_portion (hpe : pe < S.pes) :
    InWords (wordsOfList (S.portion pe).connectivity) := by
  refine hz.inWords_nodes ?_ fun _ => mem_connectivity_of_slice
  have hlen := length_slice hpe (rfl : S.mesh.tets.length = S.mesh.size)
  have hstop : (S.span pe).stop ≤ S.mesh.size := Block.stop_span_le hpe
  rw [portion, Tet.length_flatten, hlen, length_connectivity, Span.size]
  omega

theorem inWords_share (hpe : pe < S.pes) : InWords (wordsOfList (S.share pe)) := by
  have hstop : (S.span pe).stop ≤ S.mesh.size := Block.stop_span_le hpe
  have hlen : (S.share pe).length ≤ (S.span pe).size := List.length_take_le _ _
  refine inWords_list.2 ⟨hz.size_lt (hlen.trans ((Nat.sub_le _ _).trans hstop)), fun x hx => ?_⟩
  exact hz.assignment x (List.mem_of_mem_drop (List.mem_of_mem_take hx))

theorem inWords_asked (hpe : pe < S.pes) (hpes : S.pes < 2 ^ 32) :
    InWords (wordsOfMap (S.asked pe)) := by
  have hkeys : (S.asked pe).keys ⊆ List.range pe := fun q hq =>
    List.mem_range.2 (lt_of_mem_keys_asked hpe hq)
  have hlen := ((IdMap.nodup_keys _).subperm hkeys).length_le
  rw [IdMap.length_keys, List.length_range] at hlen
  refine inWords_map (by omega) fun e he => ?_
  rw [entries_asked hpe] at he
  obtain ⟨q, hq, rfl⟩ := List.mem_map.1 he
  have hlt := lt_of_mem_keys_asked hpe hq
  exact ⟨by omega, hz.inWords_held pe q⟩

theorem inWords_cargo (hpe : pe < S.pes) (q : Nat) : InWords (wordsOfMap (S.cargo pe q)) := by
  have hslice : (S.slice pe S.placed).length ≤ S.mesh.size := by
    have hstop : (S.span pe).stop ≤ S.mesh.size := Block.stop_span_le hpe
    have hlen : (S.slice pe S.placed).length ≤ (S.span pe).size := List.length_take_le _ _
    exact hlen.trans ((Nat.sub_le _ _).trans hstop)
  have hkeys : (S.cargo pe q).keys ⊆ (S.slice pe S.placed).map Prod.snd := by
    intro unit hu
    obtain ⟨l, hl⟩ := IdMap.mem_keys_iff.1 hu
    obtain ⟨-, e, he, rfl⟩ := exists_of_get?_cargo hl
    exact List.mem_map_of_mem he
  have hsize := ((IdMap.nodup_keys _).subperm hkeys).length_le
  rw [IdMap.length_keys, List.length_map] at hsize
  refine inWords_map (hz.size_lt (hsize.trans hslice)) fun e he => ?_
  have hget := IdMap.mem_entries_iff.1 he
  obtain ⟨-, e', he', hu⟩ := exists_of_get?_cargo hget
  obtain ⟨-, -, hnodes⟩ := get?_cargo_eq_some_iff.1 hget
  refine ⟨hu ▸ hz.assignment _ ?_, ?_⟩
  · exact List.mem_of_mem_drop (List.mem_of_mem_take (mem_slice_placed he'))
  · rw [← hnodes]
    refine hz.inWords_nodes ?_ fun x hx => ?_
    · have hfilter : (nodesOf (S.slice pe S.placed) e.1).length ≤
          4 * (S.slice pe S.placed).length := by
        generalize S.slice pe S.placed = l
        induction l with
        | nil => exact Nat.zero_le _
        | cons t l ih =>
          rw [nodesOf_cons, List.length_cons]
          split
          · rw [List.length_append, Tet.length_nodes]
            omega
          · omega
      rw [length_connectivity]
      omega
    · obtain ⟨t, ht, -, hx⟩ := mem_nodesOf.1 hx
      exact mem_connectivity_of_placed (List.mem_of_mem_drop (List.mem_of_mem_take ht)) hx

theorem inWords_replyTo (pe q : Nat) : InWords (wordsOfPairs (S.replyTo pe q)) := by
  refine inWords_pairs ?_ fun p hp => ?_
  · rw [replyTo, List.length_map]
    exact hz.length_lt (length_held_le pe q)
  · obtain ⟨x, hx, rfl⟩ := List.mem_map.1 hp
    refine ⟨hz.nodes x (mem_connectivity (mem_held.1 hx).1), hz.length_lt ?_⟩
    exact (newId_le x).trans length_used_le

/-- Every letter of a run can be written out. -/
theorem inWords_parcel (hpes : S.pes < 2 ^ 32) (hm : S.Occurs m) :
    InWords (payload (S.parcel m).content) := by
  have hspan : ∀ pe < S.pes, (S.span pe).stop ≤ S.mesh.size := fun _ => Block.stop_span_le
  cases m with
  | contribution k pe =>
    have hpe : pe < S.pes := hm
    cases k with
    | load =>
      have hle : (S.span pe).size ≤ S.mesh.size := (Nat.sub_le _ _).trans (hspan pe hpe)
      exact inWords_cons.2 ⟨hz.size_lt hle, inWords_nil⟩
    | setup | distributed | flattened => exact inWords_nil
    | elements =>
      have hfirst : (S.span pe).first ≤ S.mesh.size :=
        (Nat.le_add_right _ _).trans (hspan pe hpe)
      refine inWords_cons.2 ⟨hz.size_lt hfirst,
        inWords_append.2 ⟨hz.inWords_portion hpe, ?_⟩⟩
      show InWords (wordsOfCentroids (S.elementSlice pe).centroids)
      unfold elementSlice
      dsimp only
      split
      · refine inWords_centroids fun a => ?_
        rw [Centroids.length_axis_ofPoints, List.length_map, length_slice hpe rfl]
        exact hz.size_lt ((Nat.sub_le _ _).trans (hspan pe hpe))
      · exact inWords_cons.2 ⟨wordOfFlag_lt false, inWords_nil⟩
    | nodes => exact hz.inWords_nodes (length_nodes_le pe) fun _ => mem_connectivity
    | cost | deviation => exact inWords_real _
  | command b pe =>
    have hpe : pe < S.pes := hm
    cases b with
    | partition => exact inWords_cons.2 ⟨hz.units, hz.inWords_share hpe⟩
    | flatten => exact inWords_nil
    | reorder =>
      have hstart := hz.length_lt ((start_le pe).trans length_used_le)
      exact inWords_cons.2 ⟨hstart, hz.inWords_asked hpe hpes⟩
    | deviation => exact inWords_real _
  | peer x s t =>
    cases x with
    | add => exact hz.inWords_cargo hm.1 t
    | ack => exact inWords_nil
    | request => exact hz.inWords_held s t
    | reply => exact hz.inWords_replyTo t s
  | lower s =>
    have hle := upper_le (S := S) s
    have hmem : 8 * S.mesh.connectivity.length < 2 ^ 63 := hz.inMemory
    exact inWords_cons.2 ⟨by omega, inWords_nil⟩

/-- What is written out for a letter is read back as this letter. -/
theorem unpack_pack (hpes : S.pes < 2 ^ 32) (hm : S.Occurs m) :
    Parcel.unpack (S.parcel m).pack = .ok (S.parcel m) := by
  have hdecode := decode_encode_of_inWords ((sender_lt hm).trans hpes) (hz.inWords_parcel hpes hm)
  simp only [Parcel.unpack, Parcel.pack, hdecode]
  rfl

end Sized
end Scenario
end MeshDecomp
