import MeshDecomp.Proofs.View

/-! The distribution of elements in closed form: partitioning, work units that arrive before or
after it, and acknowledgements. -/
namespace MeshDecomp

theorem Worker.mergeAll_eq {source units : Nat} {l : List (Nat × List Nat)} {w : Worker}
    (hl : ∀ e ∈ l, e.1 < units ∧ Block.owner units w.pes e.1 = w.rank ∧
      Worker.lookUp w.table e.1 source = none) (hnd : (l.map Prod.fst).Nodup) :
    w.mergeAll source units l =
      .ok { w with table := l.foldl (fun t e => Worker.record t e.1 source e.2) w.table } () := by
  induction l generalizing w with
  | nil => rfl
  | cons e l ih =>
    obtain ⟨⟨hu, ho, hn⟩, hrest⟩ := List.forall_mem_cons.1 hl
    obtain ⟨hne, hnd⟩ := List.nodup_cons.1 hnd
    have hc : ((w.table.get? e.1).getD ∅).contains source = false := by
      unfold Worker.lookUp at hn
      cases ht : w.table.get? e.1 with
      | none => simp [IdMap.contains]
      | some m => simpa [ht, IdMap.contains] using hn
    have hstep := @ih { w with table := Worker.record w.table e.1 source e.2 }
      (fun e' he' => by
        obtain ⟨hu', ho', hn'⟩ := hrest e' he'
        refine ⟨hu', ho', ?_⟩
        rw [Worker.lookUp_record, if_neg, hn']
        rintro ⟨heq, -⟩
        exact hne (heq ▸ List.mem_map_of_mem he')) hnd
    simp only [Worker.mergeAll, ho, ne_eq, not_true_eq_false, or_false, Nat.not_le.2 hu,
      ↓reduceIte, hc, Bool.false_eq_true, hstep, List.foldl_cons]

namespace Scenario

variable {S : Scenario} {pe s q : Nat} {v : View} {A : List Nat}

theorem not_complete (h : v.reordered = false) : ¬ S.Complete pe v := by simp [Complete, h]

theorem not_settled (h : ¬ S.Complete pe v) : ¬ S.Settled pe v := fun hs => h hs.1

theorem length_slice (h : pe < S.pes) {l : List α} (hl : l.length = S.mesh.size) :
    (S.slice pe l).length = (S.span pe).size := by
  have hstop : (S.span pe).stop ≤ S.mesh.size := Block.stop_span_le h
  simp only [slice, Span.size, List.length_take, List.length_drop]
  omega

theorem mem_slice_placed {e : Tet × Nat} (h : e ∈ S.slice pe S.placed) : e.2 ∈ S.share pe := by
  rw [slice_placed] at h
  exact (List.of_mem_zip h).2

theorem map_snd_slice_placed (h : pe < S.pes) (hl : S.assignment.length = S.mesh.size) :
    (S.slice pe S.placed).map Prod.snd = S.share pe := by
  rw [slice_placed, List.map_snd_zip]
  rw [length_slice h rfl, share, length_slice h hl]

theorem inRange_iff : S.InRange pe ↔ S.stray? pe = none := by
  simp only [InRange, stray?, List.find?_eq_none, decide_eq_true_eq, Nat.not_le]

theorem zip_share (pe : Nat) :
    (Tet.ofFlat (S.portion pe).connectivity).zip (S.share pe) = S.slice pe S.placed := by
  unfold portion
  rw [Tet.ofFlat_flatten, slice_placed]

theorem bucket_eq (h : S.InRange pe) :
    Worker.bucket S.units ((Tet.ofFlat (S.portion pe).connectivity).zip (S.share pe)) =
      .ok (S.buckets pe) := by
  have hfind : ((S.slice pe S.placed).find? fun e => S.units ≤ e.2) = none := by
    refine List.find?_eq_none.2 fun e he => ?_
    simpa using h e.2 (mem_slice_placed he)
  rw [zip_share, Worker.bucket, hfind]
  rfl

theorem bucket_eq_error {unit : Nat} (h : S.stray? pe = some unit)
    (hlen : S.assignment.length = S.mesh.size) (hpe : pe < S.pes) :
    Worker.bucket S.units ((Tet.ofFlat (S.portion pe).connectivity).zip (S.share pe)) =
      .error (.unitOutOfRange unit S.units) := by
  unfold stray? at h
  rw [← map_snd_slice_placed hpe hlen, List.find?_map] at h
  obtain ⟨e, hfind, rfl⟩ := Option.map_eq_some_iff.1 h
  simp only [Function.comp_def] at hfind
  rw [zip_share, Worker.bucket, hfind]

theorem lt_of_mem_cargo {e : Nat × List Nat} (h : S.InRange s) (he : e ∈ (S.cargo s q).entries) :
    e.1 < S.units ∧ S.owner e.1 = q := by
  obtain ⟨hown, e', he', heq⟩ := exists_of_get?_cargo (IdMap.mem_entries_iff.1 he)
  exact ⟨heq ▸ h _ (mem_slice_placed he'), hown⟩

/-- The cargo of a new source goes into the table as a whole. -/
theorem merge_cargo {w : Worker} (hr : S.InRange s) (hu : w.units = some S.units)
    (hpes : w.pes = S.pes) (hrank : w.rank = pe) (ht : w.table = S.table pe A) (hs : s ∉ A) :
    w.merge s (S.cargo s pe) = .ok { w with table := S.table pe (A ++ [s]) } [.send s .ack] := by
  have hall := @Worker.mergeAll_eq s S.units (S.cargo s pe).entries w
    (fun e he => by
      obtain ⟨hlt, ho⟩ := lt_of_mem_cargo hr he
      refine ⟨hlt, hpes ▸ hrank ▸ ho, ?_⟩
      rw [ht, lookUp_table, if_neg hs]) (S.cargo s pe).nodup_keys
  simp only [Worker.merge, hu, hall, ht, Outcome.map_ok, table, List.foldl_concat, Worker.stow]

theorem mergeParked_cargo {w : Worker} {B : List Nat} (hr : ∀ s ∈ B, S.InRange s)
    (hu : w.units = some S.units) (hpes : w.pes = S.pes) (hrank : w.rank = pe)
    (ht : w.table = S.table pe A) (hnd : (A ++ B).Nodup) :
    w.mergeParked (B.map fun s => (s, S.cargo s pe)) =
      .ok { w with table := S.table pe (A ++ B) } (B.map fun s => .send s .ack) := by
  induction B generalizing w A with
  | nil =>
    rw [List.append_nil, ← ht]
    rfl
  | cons s B ih =>
    obtain ⟨hs, hB⟩ := List.forall_mem_cons.1 hr
    have hsA : s ∉ A := fun hm => (List.nodup_append.1 hnd).2.2 s hm s List.mem_cons_self rfl
    have hmerge := merge_cargo hs hu hpes hrank ht hsA
    have hrest := @ih (A ++ [s]) { w with table := S.table pe (A ++ [s]) } hB hu hpes hrank rfl
      (by simpa using hnd)
    simp only [List.append_assoc, List.singleton_append] at hrest
    simp [Worker.mergeParked, hmerge, hrest]

theorem distribute_worker {w : Worker} (hpes : w.pes = S.pes) (hrank : w.rank = pe)
    (ht : w.table = ∅) :
    w.distribute S.units (S.buckets pe) =
      ({ w with table := S.table pe [pe], pendingAcks := (S.exports pe).size },
        (S.exports pe).keys.map fun q => .send q (.add (S.cargo pe q))) := by
  have hown : (S.buckets pe).entries.filter (fun e => Block.owner S.units S.pes e.1 = pe) =
      (S.cargo pe pe).entries := by
    unfold cargo
    rw [IdMap.entries_filter]
    rfl
  have hout : Worker.exports pe S.pes S.units (S.buckets pe) = S.exports pe := rfl
  simp only [Worker.distribute, hpes, hrank, ht, hown, hout, entries_exports, List.map_map]
  rfl

/-- The partitioning of what a rank read, with the work units that arrived before. -/
theorem handle_partition (ha : S.Answered) (h : pe < S.pes) (hr : ∀ s ∈ pe :: A, S.InRange s)
    (hnd : (pe :: A).Nodup) :
    (S.worker pe { adds := A }).handle (.command (.partition S.units (S.share pe))) =
      .ok (S.worker pe { partitioned := true, adds := A })
        ((S.exports pe).keys.map (fun q => .send q (.add (S.cargo pe q))) ++
          (A.map (fun s => .send s .ack) ++
            if (S.exports pe).size = 0 then [.contribute .distributed] else [])) := by
  have hunits : ¬ S.units < S.pes := Nat.not_lt.2 ha.pes_le_units
  have hlen : (S.share pe).length = (S.portion pe).size := by
    unfold share
    rw [length_slice h ha.length_assignment, Portion.size, portion, Span.length_toList]
  refine Worker.handle_of_dispatch ?_ rfl
  have hc : ∀ b, ¬ S.Complete pe { partitioned := b, adds := A } := fun b => not_complete rfl
  have hset : ∀ b, ¬ S.Settled pe { partitioned := b, adds := A } := fun b => not_settled (hc b)
  simp only [Worker.dispatch, Worker.obey, Worker.partition, Worker.inPhase, worker, phase, hc,
    hset, ↓reduceIte, Bool.false_eq_true, hunits, hlen, ne_eq, not_true_eq_false,
    bucket_eq (hr pe List.mem_cons_self)]
  rw [distribute_worker rfl rfl rfl]
  simp only [Outcome.append_ok]
  rw [mergeParked_cargo (fun s hs => hr s (List.mem_cons_of_mem _ hs)) rfl rfl rfl rfl
    (by simpa using hnd)]
  simp only [Outcome.append_ok, Worker.checkDistributed, List.length_nil]
  by_cases he : (S.exports pe).size = 0
  · simp [he]
  · simp [he, Ne.symm he]

/-- A work unit that does not exist is an error of the processing element that read its element. -/
theorem handle_partition_error {unit : Nat} (ha : S.Answered) (h : pe < S.pes)
    (hr : S.stray? pe = some unit) :
    ((S.worker pe { adds := A }).handle (.command (.partition S.units (S.share pe)))).result =
      .error (.internal pe (.unitOutOfRange unit S.units)) := by
  have hunits : ¬ S.units < S.pes := Nat.not_lt.2 ha.pes_le_units
  have hlen : (S.share pe).length = (S.portion pe).size := by
    rw [share, length_slice h ha.length_assignment, Portion.size, portion, Span.length_toList]
  have hbucket := bucket_eq_error hr ha.length_assignment h
  have hc : ¬ S.Complete pe { adds := A } := not_complete rfl
  have hset : ¬ S.Settled pe { adds := A } := not_settled hc
  simp only [Worker.handle, Worker.dispatch, Worker.obey, Worker.partition, Worker.inPhase, worker,
    phase, hc, hset, ↓reduceIte, Bool.false_eq_true, hunits, hlen, ne_eq, not_true_eq_false,
    hbucket]
  rfl

/-- Work units that come before the partitioning are parked. -/
theorem handle_add_parked (hs : s < S.pes) (hne : s ≠ pe) :
    (S.worker pe { adds := A }).handle (.peer s (.add (S.cargo s pe))) =
      .ok (S.worker pe { adds := A ++ [s] }) [] := by
  refine Worker.handle_of_dispatch ?_ rfl
  have hc : ∀ A, ¬ S.Complete pe { adds := A } := fun A => not_complete rfl
  have hset : ∀ A, ¬ S.Settled pe { adds := A } := fun A => not_settled (hc A)
  simp [Worker.dispatch, Worker.receive, Worker.add, worker, phase, hc, hset, hne, Phase.lt_def,
    Phase.place, Nat.not_le.2 hs]

variable {B : List Nat}

theorem handle_add (hr : S.InRange s) (hs : s < S.pes) (hnew : s ∉ pe :: A)
    (hB : B.length ≤ (S.exports pe).size) :
    (S.worker pe { partitioned := true, adds := A, acks := B }).handle
        (.peer s (.add (S.cargo s pe))) =
      .ok (S.worker pe { partitioned := true, adds := A ++ [s], acks := B }) [.send s .ack] := by
  have hne : s ≠ pe := fun he => hnew (he ▸ List.mem_cons_self)
  refine Worker.handle_of_dispatch ?_ rfl
  have hc : ∀ A, ¬ S.Complete pe { partitioned := true, adds := A, acks := B } :=
    fun A => not_complete rfl
  have hset : ∀ A, ¬ S.Settled pe { partitioned := true, adds := A, acks := B } :=
    fun A => not_settled (hc A)
  have hphase : ¬ Phase.partitioning < Phase.partitioning := by decide
  simp only [Worker.dispatch, Worker.receive, Nat.not_le.2 hs, hne, or_self, ↓reduceIte, Worker.add,
    worker, phase, hc, hset, Bool.false_eq_true, hphase, reduceCtorEq]
  rw [merge_cargo hr rfl rfl rfl rfl hnew]
  have hdone : (S.exports pe).size - B.length = 0 ↔ B.length = (S.exports pe).size := by omega
  by_cases he : B.length = (S.exports pe).size
  · simp [Worker.checkDistributed, he]
  · simp [Worker.checkDistributed, hdone, he]

theorem handle_ack (hs : s < S.pes) (hne : s ≠ pe) (hB : B.length < (S.exports pe).size) :
    (S.worker pe { partitioned := true, adds := A, acks := B }).handle (.peer s .ack) =
      .ok (S.worker pe { partitioned := true, adds := A, acks := B ++ [s] })
        (if B.length + 1 = (S.exports pe).size then [.contribute .distributed] else []) := by
  refine Worker.handle_of_dispatch ?_ rfl
  have hc : ∀ B, ¬ S.Complete pe { partitioned := true, adds := A, acks := B } :=
    fun B => not_complete rfl
  have hset : ∀ B, ¬ S.Settled pe { partitioned := true, adds := A, acks := B } :=
    fun B => not_settled (hc B)
  have hpend : (S.exports pe).size - B.length ≠ 0 := by omega
  have hdone : (S.exports pe).size - (B.length + 1) = 0 ↔ B.length + 1 = (S.exports pe).size := by
    omega
  simp only [Worker.dispatch, Worker.receive, Nat.not_le.2 hs, hne, or_self, ↓reduceIte, Worker.ack,
    worker, phase, hc, hset, Bool.false_eq_true, hpend, Worker.checkDistributed, Nat.sub_sub,
    hdone, List.length_append, List.length_singleton]
  by_cases he : B.length + 1 = (S.exports pe).size
  · simp [he, Nat.ne_of_lt hB]
  · simp [he, Nat.ne_of_lt hB]

/-! ### Flattening -/

/-- The first work unit of a rank without an element. -/
def vacant? (S : Scenario) (pe : Nat) : Option Nat :=
  (Block.span S.units S.pes pe).find? fun unit => (S.content unit).isEmpty

theorem vacant?_eq_none_iff :
    S.vacant? pe = none ↔ ∀ unit ∈ Block.span S.units S.pes pe, S.content unit ≠ [] := by
  simp [vacant?, Span.find?_eq]

theorem vacant?_eq_some {unit : Nat} (h : S.vacant? pe = some unit) :
    unit ∈ Block.span S.units S.pes pe ∧ S.content unit = [] := by
  rw [vacant?, Span.find?_eq] at h
  exact ⟨Span.mem_toList.1 (List.mem_of_find?_eq_some h), by simpa using List.find?_some h⟩

theorem find?_nodesOf (ha : S.Answered) (h : pe < S.pes) {sources : List Nat}
    (hs : S.Supplied pe sources) {w : Worker} (hw : w.table = S.table pe sources) :
    ((Block.span S.units S.pes pe).find? fun unit => (w.nodesOf unit).isEmpty) = S.vacant? pe := by
  simp only [vacant?, Span.find?_eq]
  have hmem : ∀ unit ∈ (Block.span S.units S.pes pe).toList, w.nodesOf unit = S.content unit :=
    fun unit hu => hs.nodesOf_eq ha (Nat.zero_lt_of_lt h)
      (owner_of_mem_span h (Span.mem_toList.1 hu)) hw
  generalize (Block.span S.units S.pes pe).toList = l at hmem
  induction l with
  | nil => rfl
  | cons unit l ih =>
    obtain ⟨hu, hl⟩ := List.forall_mem_cons.1 hmem
    rw [List.find?_cons, List.find?_cons, hu, ih hl]

/-- All elements have arrived: the rank tells its nodes, unless a work unit is without elements. -/
theorem handle_flatten (ha : S.Answered) (h : pe < S.pes) (hs : S.Supplied pe (pe :: A))
    (hB : B.length = (S.exports pe).size) (hv : S.vacant? pe = none) :
    (S.worker pe { partitioned := true, adds := A, acks := B }).handle (.command .flatten) =
      .ok (S.worker pe { partitioned := true, adds := A, acks := B, flattened := true })
        [.contribute .flattened, .contribute (.nodes (S.nodes pe))] := by
  refine Worker.handle_of_dispatch ?_ rfl
  have hc : ∀ b, ¬ S.Complete pe { partitioned := true, adds := A, acks := B, flattened := b } :=
    fun b => not_complete rfl
  have hset : ∀ b, ¬ S.Settled pe { partitioned := true, adds := A, acks := B, flattened := b } :=
    fun b => not_settled (hc b)
  simp only [Worker.dispatch, Worker.obey, Worker.flatten, Worker.inPhase, worker, phase, hc, hset,
    ↓reduceIte, Bool.false_eq_true, hB, decide_true, Bool.and_self, Bool.true_eq_false]
  rw [find?_nodesOf ha h hs rfl, hv]
  have hall : ∀ w : Worker, w.table = S.table pe (pe :: A) → w.allNodes = S.nodes pe :=
    fun w hw => hs.allNodes_eq ha (Nat.zero_lt_of_lt h) hw
  dsimp only
  rw [hall _ rfl]
  rfl

theorem handle_flatten_error (ha : S.Answered) (h : pe < S.pes) (hs : S.Supplied pe (pe :: A))
    (hB : B.length = (S.exports pe).size) {unit : Nat} (hv : S.vacant? pe = some unit) :
    (S.worker pe { partitioned := true, adds := A, acks := B }).handle (.command .flatten) =
      .fail { S.worker pe { partitioned := true, adds := A, acks := B } with phase := .flattening }
        (.overdecomposition pe unit S.units S.pes) := by
  have hc : ¬ S.Complete pe { partitioned := true, adds := A, acks := B } := not_complete rfl
  have hset : ¬ S.Settled pe { partitioned := true, adds := A, acks := B } := not_settled hc
  simp only [Worker.handle, Worker.dispatch, Worker.obey, Worker.flatten, Worker.inPhase, worker,
    phase, hc, hset, ↓reduceIte, Bool.false_eq_true, hB, decide_true, Bool.and_self,
    Bool.true_eq_false]
  rw [find?_nodesOf ha h hs rfl, hv]
  rfl

end Scenario

end MeshDecomp
