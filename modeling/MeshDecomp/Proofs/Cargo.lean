import MeshDecomp.Proofs.Scenario
import MeshDecomp.Proofs.Tiling

/-! What the elements of a rank hold of each work unit, and where it is sent. -/
namespace MeshDecomp

theorem IdMap.ne_empty_iff {m : IdMap α} : m ≠ ∅ ↔ ∃ k v, m.get? k = some v := by
  constructor
  · intro h
    by_contra hn
    refine h (ext fun k => ?_)
    rw [get?_empty, Option.eq_none_iff_forall_ne_some]
    exact fun v hv => hn ⟨k, v, hv⟩
  · rintro ⟨k, v, hv⟩ rfl
    simp at hv

namespace Scenario

variable {S : Scenario}

@[simp] theorem nodesOf_nil (unit : Nat) : nodesOf [] unit = [] := rfl

theorem nodesOf_cons (e : Tet × Nat) (l : List (Tet × Nat)) (unit : Nat) :
    nodesOf (e :: l) unit = if e.2 = unit then e.1.nodes ++ nodesOf l unit else nodesOf l unit := by
  by_cases h : e.2 = unit <;> simp [nodesOf, h]

theorem nodesOf_append (l m : List (Tet × Nat)) (unit : Nat) :
    nodesOf (l ++ m) unit = nodesOf l unit ++ nodesOf m unit := by
  simp [nodesOf]

/-- An element has nodes, so a work unit without nodes has no element. -/
theorem nodesOf_eq_nil_iff {l : List (Tet × Nat)} {unit : Nat} :
    nodesOf l unit = [] ↔ ∀ e ∈ l, e.2 ≠ unit := by
  induction l with
  | nil => simp
  | cons e l ih =>
    rw [nodesOf_cons, List.forall_mem_cons, ← ih]
    by_cases h : e.2 = unit <;> simp [h, Tet.nodes]

theorem mem_nodesOf {l : List (Tet × Nat)} {unit x : Nat} :
    x ∈ nodesOf l unit ↔ ∃ e ∈ l, e.2 = unit ∧ x ∈ e.1.nodes := by
  simp [nodesOf, and_assoc]

theorem get?_buckets (pe unit : Nat) :
    (S.buckets pe).get? unit =
      let nodes := nodesOf (S.slice pe S.placed) unit
      if nodes = [] then none else some nodes := by
  unfold buckets
  induction S.slice pe S.placed with
  | nil => simp
  | cons e l ih =>
    rw [List.foldr_cons, IdMap.get?_alter, nodesOf_cons]
    by_cases h : e.2 = unit
    · subst h
      simp only [↓reduceIte, ih]
      split <;> simp_all [Tet.nodes]
    · simp [h, Ne.symm h, ih]

theorem get?_cargo (source target unit : Nat) :
    (S.cargo source target).get? unit =
      if S.owner unit = target then (S.buckets source).get? unit else none := by
  unfold cargo
  rw [IdMap.get?_filter]
  by_cases h : S.owner unit = target
  · simp only [h, decide_true, ↓reduceIte]
    cases (S.buckets source).get? unit <;> rfl
  · simp [h]

theorem get?_cargo_eq_some_iff {source target unit : Nat} {l : List Nat} :
    (S.cargo source target).get? unit = some l ↔
      S.owner unit = target ∧ l ≠ [] ∧ nodesOf (S.slice source S.placed) unit = l := by
  rw [get?_cargo, get?_buckets]
  dsimp only
  by_cases hown : S.owner unit = target
  · rw [if_pos hown, and_iff_right hown]
    split
    · next hnil => simp [hnil, eq_comm]
    · next hne =>
      rw [Option.some.injEq]
      constructor
      · rintro rfl
        exact ⟨hne, rfl⟩
      · exact And.right
  · simp [hown]

/-- What is sent comes from an element of a work unit of the receiver. -/
theorem exists_of_get?_cargo {source target unit : Nat} {l : List Nat}
    (h : (S.cargo source target).get? unit = some l) :
    S.owner unit = target ∧ ∃ e ∈ S.slice source S.placed, e.2 = unit := by
  obtain ⟨hown, hne, rfl⟩ := get?_cargo_eq_some_iff.1 h
  obtain ⟨x, hx⟩ := List.exists_mem_of_ne_nil _ hne
  obtain ⟨e, he, hu, -⟩ := mem_nodesOf.1 hx
  exact ⟨hown, e, he, hu⟩

end Scenario

namespace Worker

/-- Puts a work unit of another rank to those of its owner. -/
def addExport (rank pes units : Nat) (m : IdMap (IdMap (List Nat))) (e : Nat × List Nat) :
    IdMap (IdMap (List Nat)) :=
  let owner := Block.owner units pes e.1
  if owner = rank then m else m.alter owner fun us => (us.getD ∅).insert e.1 e.2

theorem get?_addExport (rank pes units : Nat) (m : IdMap (IdMap (List Nat))) (e : Nat × List Nat)
    (q : Nat) :
    (addExport rank pes units m e).get? q =
      if q ≠ rank ∧ Block.owner units pes e.1 = q then
        some (((m.get? q).getD ∅).insert e.1 e.2)
      else m.get? q := by
  unfold addExport
  by_cases hr : Block.owner units pes e.1 = rank
  · simp only [hr, ↓reduceIte]
    rw [if_neg fun h => h.1 h.2.symm]
  · simp only [if_neg hr, IdMap.get?_alter]
    by_cases hq : Block.owner units pes e.1 = q
    · simp [← hq, hr]
    · simp [hq, Ne.symm hq]

theorem get?_foldl_addExport (rank pes units : Nat) (l : List (Nat × List Nat))
    (m : IdMap (IdMap (List Nat))) (q : Nat) :
    (l.foldl (addExport rank pes units) m).get? q =
      (l.filter fun e => q ≠ rank ∧ Block.owner units pes e.1 = q).foldl
        (fun o e => some ((o.getD ∅).insert e.1 e.2)) (m.get? q) := by
  induction l generalizing m with
  | nil => rfl
  | cons e l ih =>
    rw [List.foldl_cons, ih, get?_addExport, List.filter_cons]
    by_cases h : q ≠ rank ∧ Block.owner units pes e.1 = q <;> simp [h]

theorem foldl_some_insert (l : List (Nat × α)) (m : IdMap α) :
    l.foldl (fun o e => some (((o : Option (IdMap α)).getD ∅).insert e.1 e.2)) (some m) =
      some (m.insertAll l) := by
  induction l generalizing m with
  | nil => rfl
  | cons e l ih => exact ih _

end Worker

namespace Scenario

variable {S : Scenario}

/-- A rank sends to every other rank what it read of the work units there, if anything. -/
theorem get?_exports (pe q : Nat) :
    (S.exports pe).get? q =
      if q = pe ∨ S.cargo pe q = ∅ then none else some (S.cargo pe q) := by
  have hcargo : (S.cargo pe q).entries =
      (S.buckets pe).entries.filter fun e => Block.owner S.units S.pes e.1 = q := by
    unfold cargo
    rw [IdMap.entries_filter]
    rfl
  have hfold := Worker.get?_foldl_addExport pe S.pes S.units (S.buckets pe).entries ∅ q
  rw [IdMap.get?_empty] at hfold
  change (S.exports pe).get? q = _ at hfold
  rw [hfold]
  by_cases h : q = pe
  · simp [h]
  · simp only [ne_eq, h, not_false_eq_true, true_and, false_or, ← hcargo]
    rw [← IdMap.ofList_entries (S.cargo pe q)]
    cases hl : (S.cargo pe q).entries with
    | nil => rfl
    | cons e l =>
      have hne : IdMap.ofList (e :: l) ≠ ∅ := fun h0 => by
        rw [← hl, IdMap.ofList_entries] at h0
        simp [h0] at hl
      rw [if_neg hne, IdMap.entries_ofList (hl ▸ IdMap.ascending_entries _), List.foldl_cons]
      exact Worker.foldl_some_insert l _

theorem mem_keys_exports {pe q : Nat} :
    q ∈ (S.exports pe).keys ↔ q ≠ pe ∧ S.cargo pe q ≠ ∅ := by
  rw [IdMap.mem_keys_iff, get?_exports]
  rw [← not_or]
  split
  · next h => simp [h]
  · next h => simp only [Option.some.injEq, exists_eq', h, not_false_eq_true]

theorem entries_exports (pe : Nat) :
    (S.exports pe).entries = (S.exports pe).keys.map fun q => (q, S.cargo pe q) := by
  rw [IdMap.keys, List.map_map]
  refine (List.map_id' _).symm.trans (List.map_congr_left fun e he => ?_)
  have hget := IdMap.mem_entries_iff.1 he
  rw [get?_exports] at hget
  split at hget
  · exact absurd hget (by simp)
  · exact Prod.ext rfl (Option.some.inj hget).symm

/-- The owner of a work unit is a rank, so elements are sent to ranks only. -/
theorem lt_of_mem_keys_exports {pe q : Nat} (hp : 0 < S.pes) (h : q ∈ (S.exports pe).keys) :
    q < S.pes := by
  obtain ⟨-, hne⟩ := mem_keys_exports.1 h
  obtain ⟨unit, l, hl⟩ := IdMap.ne_empty_iff.1 hne
  have hown : S.owner unit = q := (exists_of_get?_cargo hl).1
  exact hown ▸ Block.owner_lt hp unit

end Scenario

/-! ### The table of work units -/

namespace Worker

/-- Puts everything that `source` read of some work units into a table. -/
def stow (table : IdMap (IdMap (List Nat))) (source : Nat) (units : IdMap (List Nat)) :
    IdMap (IdMap (List Nat)) :=
  units.entries.foldl (fun t e => record t e.1 source e.2) table

/-- The nodes that `source` read of a work unit. -/
def lookUp (table : IdMap (IdMap (List Nat))) (unit source : Nat) : Option (List Nat) :=
  (table.get? unit).bind (·.get? source)

@[simp] theorem lookUp_empty (unit source : Nat) : lookUp ∅ unit source = none := by
  simp [lookUp]

theorem lookUp_record (t : IdMap (IdMap (List Nat))) (unit source : Nat) (nodes : List Nat)
    (u s : Nat) :
    lookUp (record t unit source nodes) u s =
      if u = unit ∧ s = source then some nodes else lookUp t u s := by
  unfold lookUp record
  rw [IdMap.get?_alter]
  by_cases hu : u = unit
  · subst hu
    cases h : t.get? u <;> by_cases hs : s = source <;> simp [IdMap.get?_insert, hs]
  · simp [hu]

theorem lookUp_stow (t : IdMap (IdMap (List Nat))) (source : Nat) (units : IdMap (List Nat))
    (u s : Nat) :
    lookUp (stow t source units) u s =
      if s = source then (units.get? u).or (lookUp t u s) else lookUp t u s := by
  have hfold : ∀ (l : List (Nat × List Nat)) (t : IdMap (IdMap (List Nat))),
      lookUp (l.foldl (fun t e => record t e.1 source e.2) t) u s =
        if s = source then ((IdMap.ofList l).get? u).or (lookUp t u s) else lookUp t u s := by
    intro l
    induction l using List.reverseRecOn with
    | nil => intro t; simp [IdMap.ofList, IdMap.insertAll]
    | append_singleton l e ih =>
      intro t
      rw [List.foldl_concat, lookUp_record, ih, IdMap.ofList_concat, IdMap.get?_insert]
      by_cases hu : u = e.1 <;> by_cases hs : s = source <;> simp [hu, hs]
  unfold stow
  rw [hfold, IdMap.ofList_entries]

end Worker

namespace Scenario

variable {S : Scenario}

/-- The table of a rank once it has the cargo of some sources. -/
def table (S : Scenario) (pe : Nat) (sources : List Nat) : IdMap (IdMap (List Nat)) :=
  sources.foldl (fun t source => Worker.stow t source (S.cargo source pe)) ∅

theorem lookUp_table (pe : Nat) (sources : List Nat) (unit source : Nat) :
    Worker.lookUp (S.table pe sources) unit source =
      if source ∈ sources then (S.cargo source pe).get? unit else none := by
  unfold table
  induction sources using List.reverseRecOn with
  | nil => simp
  | append_singleton sources s ih =>
    rw [List.foldl_concat, Worker.lookUp_stow, ih]
    by_cases hs : source = s
    · subst hs
      by_cases hm : source ∈ sources <;> simp [hm]
    · simp [hs]

end Scenario
end MeshDecomp
