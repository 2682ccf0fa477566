import MeshDecomp.Proofs.Lists
import MeshDecomp.Proofs.Table

/-!
The numbering of a rank in closed form. What it knows at any time are the new ids of its own nodes
and those of the peers that have answered; a new id does not depend on the order of the answers.
-/
namespace MeshDecomp

theorem ascending_eq_self {l : List Nat} (h : l.Pairwise (· < ·)) : ascending l = l :=
  eq_of_ascending (pairwise_ascending l) h fun _ => mem_ascending

namespace Numbering

variable {n : Numbering}

theorem checkAll_eq {rank : Nat} {known : List Nat} {l : List (Nat × List Nat)}
    (h : ∀ e ∈ l, e.1 ≠ rank ∧ e.2.Pairwise (· < ·) ∧ e.2 ≠ [] ∧ ∀ x ∈ e.2, x ∈ known) :
    checkAll rank (.ofList known) l = .ok l := by
  induction l with
  | nil => rfl
  | cons e l ih =>
    obtain ⟨⟨hne, hasc, hnil, hknown⟩, hl⟩ := List.forall_mem_cons.1 h
    have hcheck : checkAsked rank (.ofList known) e.1 e.2 = .ok e.2 := by
      have hfind : (e.2.find? fun x => !(IdSet.ofList known).contains x) = none :=
        List.find?_eq_none.2 fun x hx => by simp [hknown x hx]
      simp only [checkAsked, if_neg hne, ascending_eq_self hasc, hfind]
    simp [checkAll, hcheck, ih hl, hnil, bind, Except.bind, pure, Except.pure]

/-- Requests that can all be answered are answered in their order. -/
theorem answer_eq {f : Nat × List Nat → List (Nat × Nat)} {l : List (Nat × List Nat)}
    (h : ∀ r ∈ l, n.reply r.1 r.2 = .ok (f r)) :
    n.answer l = .ok { n with inbox := [] } (l.map fun r => (r.1, f r)) := by
  induction l with
  | nil => rfl
  | cons r l ih =>
    obtain ⟨hr, hl⟩ := List.forall_mem_cons.1 h
    simp [answer, hr, ih hl]

theorem reply_eq {peer : Nat} {f : Nat → Nat} {nodes : List Nat}
    (h : ∀ x ∈ nodes, n.newId? x = some (f x) ∧ f x ∈ n.block) :
    n.reply peer nodes = .ok (nodes.map fun x => (x, f x)) := by
  unfold reply
  apply mapM_eq_ok
  intro x hx
  obtain ⟨hid, hb⟩ := h x hx
  simp [hid, hb]

/-- New ids of requested nodes that had none are all taken. -/
theorem take_eq {requested : List Nat} {peer : Nat} {f : Nat → Nat} {l : List Nat}
    (hreq : ∀ x ∈ l, x ∈ requested) (hnew : ∀ x ∈ l, x ∉ n.newIds.keys) (hnd : l.Nodup) :
    take (.ofList requested) peer n (l.map fun x => (x, f x)) =
      .ok { n with newIds := n.newIds.insertAll (l.map fun x => (x, f x)) } () := by
  induction l generalizing n with
  | nil => rfl
  | cons x l ih =>
    obtain ⟨hx, hl⟩ := List.forall_mem_cons.1 hreq
    obtain ⟨hxn, hln⟩ := List.forall_mem_cons.1 hnew
    obtain ⟨hxl, hnd⟩ := List.nodup_cons.1 hnd
    have hc : n.newIds.contains x = false := by
      rw [Bool.eq_false_iff]
      exact fun hc => hxn (IdMap.contains_iff.1 hc)
    have hn : ∀ y ∈ l, y ∉ (n.newIds.insert x (f x)).keys := by
      intro y hy hk
      obtain ⟨v, hv⟩ := IdMap.mem_keys_iff.1 hk
      rw [IdMap.get?_insert, if_neg fun he : y = x => hxl (he ▸ hy)] at hv
      exact hln y hy (IdMap.mem_keys_iff.2 ⟨v, hv⟩)
    have hstep := @ih { n with newIds := n.newIds.insert x (f x) } hl hn hnd
    simp only [List.map_cons, take, IdSet.contains_ofList, List.contains_iff_mem.2 hx,
      Bool.not_true, Bool.false_eq_true, ↓reduceIte, hc, hstep]
    rfl

end Numbering

namespace Scenario

variable {S : Scenario} {pe q x : Nat}

theorem getElem?_sets (h : pe < S.pes) : S.sets[pe]? = some (S.nodes pe) := by
  simp [sets, h]

theorem ascending_nodes (pe : Nat) : (S.nodes pe).Pairwise (· < ·) := pairwise_ascending _

namespace Answered

/-- Every node of an element is in the set of some rank. -/
theorem covers (h : S.Answered) (hp : 0 < S.pes) : Sharing.Covers S.used S.sets where
  ascending := pairwise_ascending _
  sets_ascending := by
    intro set hset
    obtain ⟨pe, -, rfl⟩ := List.mem_map.1 hset
    exact ascending_nodes pe
  mem_iff := by
    intro x
    have htets : S.mesh.tets = S.placed.map Prod.fst := by
      unfold placed
      rw [List.map_fst_zip]
      exact Nat.le_of_eq h.length_assignment.symm
    simp only [used, TetMesh.connectivity, htets, Tet.flatten, sets, mem_ascending,
      List.mem_flatMap, List.mem_map, List.mem_range]
    constructor
    · rintro ⟨_, ⟨e, he, rfl⟩, hx⟩
      exact ⟨_, ⟨S.owner e.2, Block.owner_lt hp _, rfl⟩, mem_nodes.2 ⟨e, he, rfl, hx⟩⟩
    · rintro ⟨_, ⟨pe, -, rfl⟩, hx⟩
      obtain ⟨e, he, -, hx⟩ := mem_nodes.1 hx
      exact ⟨_, ⟨e, he, rfl⟩, hx⟩

end Answered

theorem mem_held : x ∈ S.held pe q ↔ x ∈ S.nodes pe ∧ S.holder x = q := by
  simp [held]

theorem ascending_held (pe q : Nat) : (S.held pe q).Pairwise (· < ·) :=
  (ascending_nodes pe).filter _

theorem holder_le (h : pe < S.pes) (hx : x ∈ S.nodes pe) : S.holder x ≤ pe :=
  Sharing.holder_le (getElem?_sets h) hx

/-- The rank that is asked for a node holds it. -/
theorem mem_held_holder (h : pe < S.pes) (hx : x ∈ S.held pe q) : x ∈ S.held q q := by
  obtain ⟨hmem, rfl⟩ := mem_held.1 hx
  have hlt : S.holder x < S.pes := Nat.lt_of_le_of_lt (holder_le h hmem) h
  have hsets : S.holder x < S.sets.length := by simpa [sets] using hlt
  have := Sharing.mem_holder hsets
  simp only [sets, List.getElem_map, List.getElem_range] at this
  exact mem_held.2 ⟨this, rfl⟩

theorem get?_asked (h : pe < S.pes) :
    (S.asked pe).get? q = if q = pe ∨ S.held pe q = [] then none else some (S.held pe q) := by
  have hs := getElem?_sets h
  unfold asked
  rw [Sharing.ofSets, List.getElem?_mapIdx, hs]
  exact Sharing.get?_askedBy_holders hs

theorem mem_keys_asked (h : pe < S.pes) :
    q ∈ (S.asked pe).keys ↔ q ≠ pe ∧ S.held pe q ≠ [] := by
  rw [IdMap.mem_keys_iff, get?_asked h, ← not_or]
  split
  · next h => simp [h]
  · next h => simp only [Option.some.injEq, exists_eq', h, not_false_eq_true]

theorem entries_asked (h : pe < S.pes) :
    (S.asked pe).entries = (S.asked pe).keys.map fun q => (q, S.held pe q) := by
  rw [IdMap.keys, List.map_map]
  refine (List.map_id' _).symm.trans (List.map_congr_left fun e he => ?_)
  have hget := IdMap.mem_entries_iff.1 he
  rw [get?_asked h] at hget
  split at hget
  · exact absurd hget (by simp)
  · exact Prod.ext rfl (Option.some.inj hget).symm

/-- Only lower ranks are asked. -/
theorem lt_of_mem_keys_asked (h : pe < S.pes) (hq : q ∈ (S.asked pe).keys) : q < pe := by
  obtain ⟨hne, hnil⟩ := (mem_keys_asked h).1 hq
  obtain ⟨x, hx⟩ := List.exists_mem_of_ne_nil _ hnil
  obtain ⟨hmem, rfl⟩ := mem_held.1 hx
  exact Nat.lt_of_le_of_ne (holder_le h hmem) hne

/-- The own nodes are numbered by counting up from the start of the block. -/
theorem zipIdx_held (h : pe < S.pes) (hc : Sharing.Covers S.used S.sets) :
    (S.held pe pe).zipIdx (S.start pe) = (S.held pe pe).map fun x => (x, S.newId x) := by
  rw [Sharing.zipIdx_eq_map_countP (ascending_held pe pe)]
  apply List.map_congr_left
  intro x hx
  unfold newId
  rw [hc.place_eq (getElem?_sets h) (mem_held.1 hx).2]
  rfl

theorem newId_mem_block (h : pe < S.pes) (hc : Sharing.Covers S.used S.sets)
    (hx : x ∈ S.held pe pe) : S.newId x ∈ S.block pe := by
  have hlt : (S.held pe pe).countP (· < x) < (S.held pe pe).length := by
    apply Nat.lt_of_le_of_ne List.countP_le_length
    intro he
    have := List.countP_eq_length.1 he x hx
    simp at this
  unfold newId
  rw [hc.place_eq (getElem?_sets h) (mem_held.1 hx).2, Span.mem_def]
  exact ⟨Nat.le_add_right _ _, Nat.add_lt_add_left hlt _⟩

/-! ### What a rank knows -/

/-- The nodes whose new id a rank knows once some peers have answered. -/
def known (S : Scenario) (pe : Nat) (replies : List Nat) : List Nat :=
  S.held pe pe ++ replies.flatMap (S.held pe)

/-- The numbering of a rank that has begun or not, with what peers asked and answered so far. -/
def numbering (S : Scenario) (pe : Nat) (begun : Bool) (requests replies : List Nat) :
    Numbering where
  nodes := S.nodes pe
  asked := if begun then S.asked pe else ∅
  newIds := if begun then .ofList ((S.known pe replies).map fun x => (x, S.newId x)) else ∅
  block := if begun then S.block pe else ⟨0, 0⟩
  begun := begun
  inbox := if begun then [] else requests.map fun s => (s, S.held s pe)

variable {requests replies : List Nat}

theorem mem_known : x ∈ S.known pe replies ↔
    x ∈ S.nodes pe ∧ (S.holder x = pe ∨ S.holder x ∈ replies) := by
  simp only [known, List.mem_append, List.mem_flatMap, mem_held]
  constructor
  · intro hcases
    rcases hcases with ⟨hx, hh⟩ | ⟨q, hq, hx, rfl⟩
    · exact ⟨hx, .inl hh⟩
    · exact ⟨hx, .inr hq⟩
  · rintro ⟨hx, hh | hh⟩
    · exact .inl ⟨hx, hh⟩
    · exact .inr ⟨_, hh, hx, rfl⟩

theorem newId?_numbering : (S.numbering pe true requests replies).newId? x =
    if x ∈ S.known pe replies then some (S.newId x) else none := by
  simp only [Numbering.newId?, numbering, ↓reduceIte, IdMap.get?_ofList_map]

theorem nodup_known (hr : replies.Nodup) (hpe : pe ∉ replies) : (S.known pe replies).Nodup := by
  have hnd : ∀ q, (S.held pe q).Nodup := fun q => (ascending_held pe q).imp Nat.ne_of_lt
  refine List.nodup_append.2 ⟨hnd pe, List.nodup_flatMap.2 ⟨fun q _ => hnd q, ?_⟩, ?_⟩
  · refine hr.imp fun hne => ?_
    apply List.disjoint_left.2
    intro x hx hx'
    exact hne ((mem_held.1 hx).2.symm.trans (mem_held.1 hx').2)
  · intro x hx y hy he
    subst he
    obtain ⟨q, hq, hxq⟩ := List.mem_flatMap.1 hy
    exact hpe ((mem_held.1 hx).2.symm.trans (mem_held.1 hxq).2 ▸ hq)

/-- Every node has a new id exactly when everyone who was asked has answered. -/
theorem complete_numbering (h : pe < S.pes) (hr : replies.Nodup) (hpe : pe ∉ replies) :
    (S.numbering pe true requests replies).complete = true ↔
      ∀ q ∈ (S.asked pe).keys, q ∈ replies := by
  have hnd := nodup_known (S := S) hr hpe
  have hsub : S.known pe replies ⊆ S.nodes pe := fun x hx => (mem_known.1 hx).1
  have hsize : (IdMap.ofList ((S.known pe replies).map fun x => (x, S.newId x))).size =
      (S.known pe replies).length := IdMap.size_ofList_map _ hnd
  have hlen : (S.known pe replies).length = (S.nodes pe).length ↔
      S.nodes pe ⊆ S.known pe replies :=
    length_eq_iff_subset hnd ((ascending_nodes pe).imp Nat.ne_of_lt) hsub
  simp only [Numbering.complete, numbering, ↓reduceIte, Bool.true_and, decide_eq_true_eq, hsize,
    hlen]
  constructor
  · intro hall q hq
    obtain ⟨hne, hnil⟩ := (mem_keys_asked h).1 hq
    obtain ⟨x, hx⟩ := List.exists_mem_of_ne_nil _ hnil
    obtain ⟨hmem, rfl⟩ := mem_held.1 hx
    exact (mem_known.1 (hall hmem)).2.resolve_left hne
  · intro hall x hx
    refine mem_known.2 ⟨hx, or_iff_not_imp_left.2 fun hne => hall _ ?_⟩
    exact (mem_keys_asked h).2 ⟨hne, List.ne_nil_of_mem (mem_held.2 ⟨hx, rfl⟩)⟩

/-- What a rank answers to a request for nodes that it numbers. -/
def replyTo (S : Scenario) (source pe : Nat) : List (Nat × Nat) :=
  (S.held source pe).map fun x => (x, S.newId x)

theorem reply_numbering (h : pe < S.pes) (hc : Sharing.Covers S.used S.sets) {s : Nat}
    (hs : s < S.pes) :
    (S.numbering pe true requests replies).reply s (S.held s pe) = .ok (S.replyTo s pe) := by
  apply Numbering.reply_eq
  intro x hx
  have hown : x ∈ S.held pe pe := mem_held_holder hs hx
  rw [newId?_numbering, known, if_pos (List.mem_append_left _ hown)]
  exact ⟨rfl, newId_mem_block h hc hown⟩

theorem begin_numbering (h : pe < S.pes) (hc : Sharing.Covers S.used S.sets) :
    (S.numbering pe false requests []).begin pe (S.start pe) (S.asked pe) =
      .ok { S.numbering pe true requests [] with inbox := requests.map fun s => (s, S.held s pe) }
        ((S.asked pe).keys.map fun q => (q, S.held pe q)) := by
  have hcheck : Numbering.checkAll pe (.ofList (S.nodes pe)) (S.asked pe).entries =
      .ok (S.asked pe).entries := by
    apply Numbering.checkAll_eq
    intro e he
    have hkey : e.1 ∈ (S.asked pe).keys := List.mem_map_of_mem he
    rw [entries_asked h] at he
    obtain ⟨q, hq, rfl⟩ := List.mem_map.1 he
    obtain ⟨hne, hnil⟩ := (mem_keys_asked h).1 hkey
    exact ⟨hne, ascending_held pe q, hnil, fun x hx => (mem_held.1 hx).1⟩
  have hown : Numbering.ownNodes (S.nodes pe) (S.asked pe).entries = S.held pe pe := by
    have hmem : ∀ x ∈ S.nodes pe,
        x ∈ (S.asked pe).entries.flatMap Prod.snd ↔ S.holder x ≠ pe := by
      intro x hx
      simp only [entries_asked h, List.flatMap_map, List.mem_flatMap, mem_keys_asked h, mem_held]
      constructor
      · rintro ⟨q, ⟨hne, -⟩, -, rfl⟩
        exact hne
      · intro hne
        exact ⟨_, ⟨hne, List.ne_nil_of_mem (mem_held.2 ⟨hx, rfl⟩)⟩, hx, rfl⟩
    apply List.filter_congr
    intro x hx
    rw [IdSet.contains_ofList, Bool.eq_iff_iff, Bool.not_eq_true', ← Bool.not_eq_true,
      List.contains_iff_mem, hmem x hx]
    simp
  have hids : ((S.held pe pe).zipIdx (S.start pe)).foldl (fun m p => m.insert p.1 p.2)
      (∅ : IdMap Nat) = .ofList ((S.held pe pe).map fun x => (x, S.newId x)) := by
    rw [zipIdx_held h hc]
    rfl
  have hknown : S.known pe [] = S.held pe pe := List.append_nil _
  have hnodes : (S.numbering pe false requests []).nodes = S.nodes pe := rfl
  rw [Numbering.begin, hnodes, hcheck]
  simp only [numbering, Bool.false_eq_true, ↓reduceIte, hown, hids, hknown,
    IdMap.ofList_entries]
  rw [entries_asked h]
  rfl

theorem flush_numbering (h : pe < S.pes) (hc : Sharing.Covers S.used S.sets)
    (hs : ∀ s ∈ requests, s < S.pes) :
    ({ S.numbering pe true [] replies with
        inbox := requests.map fun s => (s, S.held s pe) } : Numbering).flush =
      .ok (S.numbering pe true [] replies) (requests.map fun s => (s, S.replyTo s pe)) := by
  have hanswer := @Numbering.answer_eq
    { S.numbering pe true [] replies with inbox := requests.map fun s => (s, S.held s pe) }
    (fun r => S.replyTo r.1 pe) (requests.map fun s => (s, S.held s pe)) fun r hr => by
      obtain ⟨s, hsr, rfl⟩ := List.mem_map.1 hr
      exact @reply_numbering S pe [] replies h hc s (hs s hsr)
  rw [List.map_map] at hanswer
  exact hanswer

theorem resolve_numbering (h : pe < S.pes) (hq : q ∈ (S.asked pe).keys) (hnew : q ∉ replies) :
    (S.numbering pe true requests replies).resolve q (S.replyTo pe q) =
      .ok (S.numbering pe true requests (replies ++ [q])) () := by
  have hget : (S.numbering pe true requests replies).asked.get? q = some (S.held pe q) := by
    obtain ⟨hne, hnil⟩ := (mem_keys_asked h).1 hq
    show (S.asked pe).get? q = _
    rw [get?_asked h, if_neg (not_or.2 ⟨hne, hnil⟩)]
  have hfresh : ∀ x ∈ S.held pe q, x ∉ (S.numbering pe true requests replies).newIds.keys := by
    intro x hx hk
    obtain ⟨v, hv⟩ := IdMap.mem_keys_iff.1 hk
    change (S.numbering pe true requests replies).newId? x = some v at hv
    rw [newId?_numbering, if_neg] at hv
    · cases hv
    · rintro hmem
      obtain ⟨-, rfl⟩ := mem_held.1 hx
      exact (mem_known.1 hmem).2.elim ((mem_keys_asked h).1 hq).1 hnew
  have htake := @Numbering.take_eq (S.numbering pe true requests replies) (S.held pe q) q S.newId
    (S.held pe q) (fun x hx => hx) hfresh ((ascending_held pe q).imp Nat.ne_of_lt)
  rw [Numbering.resolve, hget]
  refine htake.trans ?_
  simp only [numbering, known, List.flatMap_append, List.flatMap_singleton, ← List.append_assoc,
    List.map_append, IdMap.ofList, IdMap.insertAll, List.foldl_append, ↓reduceIte]

end Scenario
end MeshDecomp
