import MeshDecomp.Proofs.Effects

/-! The tallies of the host after any history. -/
namespace MeshDecomp

namespace Letter

/-- The rank that a letter brings a contribution of one kind from. -/
def contributor? (k : Contribution.Kind) : Letter → Option Nat
  | contribution k' pe => if k' = k then some pe else none
  | _ => none

theorem contributor?_eq_some {k : Contribution.Kind} {pe : Nat} {m : Letter} :
    m.contributor? k = some pe ↔ m = .contribution k pe := by
  cases m <;> simp [contributor?]

/-- Who contributed, in the order of arrival. -/
def contributors (k : Contribution.Kind) (H : List Letter) : List Nat :=
  H.filterMap (contributor? k)

variable {k : Contribution.Kind} {pe : Nat} {H : List Letter} {m : Letter}

theorem mem_contributors : pe ∈ contributors k H ↔ .contribution k pe ∈ H := by
  simp only [contributors, List.mem_filterMap, contributor?_eq_some, exists_eq_right]

theorem contributors_concat :
    contributors k (H ++ [m]) = contributors k H ++ (m.contributor? k).toList := by
  cases h : m.contributor? k <;> simp [contributors, h]

theorem nodup_contributors (h : H.Nodup) : (contributors k H).Nodup := by
  apply h.filterMap
  intro m m' pe hpe hpe'
  rw [contributor?_eq_some.1 hpe, contributor?_eq_some.1 hpe']

end Letter

open Letter

namespace Scenario

/-- Contributions of one kind, as the host counts them. -/
def tally (S : Scenario) (k : Contribution.Kind) (value : Nat → α) (H : List Letter) :
    Tally α where
  pes := S.pes
  slots := .ofList ((contributors k H).map fun pe => (pe, value pe))
  filled := (contributors k H).length

variable {S : Scenario} {H : List Letter} {pe : Nat} {k : Contribution.Kind} {b : Barrier}
  {value : Nat → α} {m : Letter}

theorem tally_concat_of_ne (h : ∀ pe, m ≠ .contribution k pe) :
    S.tally k value (H ++ [m]) = S.tally k value H := by
  have hn : m.contributor? k = none :=
    Option.eq_none_iff_forall_ne_some.2 fun pe hpe => h pe (contributor?_eq_some.1 hpe)
  simp only [tally, contributors_concat, hn, Option.toList_none, List.append_nil]

theorem insert_tally (hpe : pe < S.pes) (hn : .contribution k pe ∉ H) :
    (S.tally k value H).insert k pe (value pe) =
      .ok (S.tally k value (H ++ [.contribution k pe])) := by
  have hc : (S.tally k value H).slots.contains pe = false := by
    rw [Bool.eq_false_iff]
    intro hc
    obtain ⟨v, hv⟩ := IdMap.mem_keys_iff.1 (IdMap.contains_iff.1 hc)
    rw [tally, IdMap.get?_ofList_map] at hv
    split at hv
    · next hmem => exact hn (mem_contributors.1 hmem)
    · cases hv
  have hpes : (S.tally k value H).pes = S.pes := rfl
  have hnew : contributors k (H ++ [.contribution k pe]) = contributors k H ++ [pe] := by
    simp [contributors_concat, contributor?]
  rw [Tally.insert, hpes, if_neg (Nat.not_le.2 hpe), hc, if_neg Bool.false_ne_true]
  simp only [tally, hnew, List.map_append, List.map_singleton, List.length_append,
    List.length_singleton, IdMap.ofList_concat]

/-- Some contributions only count. -/
theorem insert_tally_unit (hpe : pe < S.pes) (hn : .contribution k pe ∉ H) :
    (S.tally k (fun _ => ()) H).insert k pe () =
      .ok (S.tally k (fun _ => ()) (H ++ [.contribution k pe])) :=
  insert_tally hpe hn

/-- Letters of a run, each once. -/
structure Genuine (S : Scenario) (H : List Letter) : Prop where
  nodup : H.Nodup
  occurs : ∀ m ∈ H, S.Occurs m

theorem History.genuine (h : S.History H) : S.Genuine H := ⟨h.nodup, fun m hm => (h.sent m hm).1⟩

namespace Genuine

theorem concat (h : S.Genuine H) (hm : S.Occurs m) (hn : m ∉ H) : S.Genuine (H ++ [m]) where
  nodup := by simpa using List.Nodup.concat hn h.nodup
  occurs := by
    intro c hc
    rcases List.mem_append.1 hc with hc | hc
    · exact h.occurs c hc
    · exact List.mem_singleton.1 hc ▸ hm

theorem lt_of_mem_contributors (h : S.Genuine H) (hpe : pe ∈ contributors k H) : pe < S.pes :=
  h.occurs _ (mem_contributors.1 hpe)

theorem complete_tally (h : S.Genuine H) : (S.tally k value H).complete = true ↔
    ∀ pe < S.pes, .contribution k pe ∈ H := by
  have hsub : contributors k H ⊆ List.range S.pes := fun pe hpe =>
    List.mem_range.2 (h.lt_of_mem_contributors hpe)
  have hlen := length_eq_iff_subset (nodup_contributors h.nodup) List.nodup_range hsub
  rw [List.length_range] at hlen
  simp only [Tally.complete, tally, decide_eq_true_eq, hlen]
  constructor
  · intro hall pe hpe
    exact mem_contributors.1 (hall (List.mem_range.2 hpe))
  · intro hall pe hpe
    exact mem_contributors.2 (hall pe (List.mem_range.1 hpe))

theorem values_tally (h : S.Genuine H) (hall : ∀ pe < S.pes, .contribution k pe ∈ H) :
    (S.tally k value H).values = (List.range S.pes).map value := by
  rw [Tally.values, IdMap.values_eq_filterMap (n := S.pes), ← List.filterMap_eq_map]
  · apply List.filterMap_congr
    intro pe hpe
    unfold tally
    rw [IdMap.get?_ofList_map, if_pos]
    · rfl
    · exact mem_contributors.2 (hall pe (List.mem_range.1 hpe))
  · intro pe hpe
    obtain ⟨v, hv⟩ := IdMap.mem_keys_iff.1 hpe
    rw [tally, IdMap.get?_ofList_map] at hv
    split at hv
    · next hmem => exact h.lt_of_mem_contributors hmem
    · cases hv

end Genuine

end Scenario
end MeshDecomp
