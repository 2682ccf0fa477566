import MeshDecomp.Proofs.NumberingCalls

/-!
New ids are for good: the own block is numbered once, and a new id from a peer stays unless the peer
numbers the node again. That is refused, but only when the first id is overwritten.
-/

namespace MeshDecomp
namespace Numbering

variable {n s : Numbering} {peer rank start x y : Nat} {nodes : List Nat} {asked : IdMap (List Nat)}
  {requests : List (Nat × List Nat)} {pairs : List (Nat × Nat)} {calls : List Call}

/-- What holds after any calls. -/
structure Sound (n : Numbering) : Prop where
  untouched : n.begun = false → n.asked = ∅ ∧ n.newIds = ∅
  asked_known : ∀ peer l, n.asked.get? peer = some l → ∀ x ∈ l, x ∈ n.nodes
  known : ∀ x y, n.newId? x = some y → x ∈ n.nodes

theorem sound_new (nodes : List Nat) : Sound { nodes } where
  untouched := fun _ => ⟨rfl, rfl⟩
  asked_known := by
    intro peer l h
    cases (IdMap.get?_empty peer).symm.trans h
  known := by
    intro x y h
    cases (IdMap.get?_empty x).symm.trans h

/-! ### One call -/

/-- A list that a peer is asked for comes from the lists that were given. -/
theorem get?_asked_of_checkAll {known l : List Nat}
    (h : checkAll rank (.ofList known) asked.entries = .ok requests)
    (hl : (IdMap.ofList requests).get? peer = some l) :
    ∀ x ∈ l, x ∈ known ∧ ∃ l' ∈ asked.values, x ∈ l' := by
  intro x hx
  obtain ⟨hmem, hknown⟩ := mem_of_checkAll h
  have hentry : (peer, l) ∈ requests :=
    IdMap.mem_of_mem_entries_ofList (IdMap.get?_eq_some_iff.1 hl)
  have hin : x ∈ asked.entries.flatMap Prod.snd := (hmem x).1 (List.mem_flatMap.2 ⟨_, hentry, hx⟩)
  refine ⟨hknown x hin, ?_⟩
  obtain ⟨e, he, hxe⟩ := List.mem_flatMap.1 hin
  exact ⟨e.2, List.mem_map_of_mem he, hxe⟩

/-- The own nodes of a new block, numbered upwards. -/
theorem newId?_of_ownNodes (h : n.newIds = ∅) (hnodes : (ownNodes n.nodes requests).Nodup) {i : Nat}
    (hi : (ownNodes n.nodes requests)[i]? = some x) :
    (n.newIds.insertAll ((ownNodes n.nodes requests).zipIdx start)).get? x = some (start + i) := by
  rw [h]
  refine (IdMap.get?_ofList_eq_some_iff ?_).2 ?_
  · rwa [List.zipIdx_map_fst]
  · exact List.mk_add_mem_zipIdx_iff_getElem?.2 hi

theorem begin_of_begun (h : n.begun = true) (rank start : Nat) (asked : IdMap (List Nat)) :
    ∃ e, n.begin rank start asked = .fail n e := by
  rcases n.begin_cases rank start asked with h' | ⟨-, hb, -⟩
  · exact h'
  · cases h.symm.trans hb

/-- Once begun, a numbering stays begun, with the same nodes, the same block and the same peers to
ask. -/
theorem next_of_begun (h : n.begun = true) (c : Call) :
    (n.next c).begun = true ∧ (n.next c).nodes = n.nodes ∧ (n.next c).asked = n.asked ∧
      (n.next c).block = n.block := by
  cases c with
  | begin rank start asked =>
    obtain ⟨e, hfail⟩ := begin_of_begun h rank start asked
    rw [next, hfail]
    exact ⟨h, rfl, rfl, rfl⟩
  | push peer nodes => exact ⟨h, rfl, rfl, rfl⟩
  | flush =>
    obtain ⟨inbox, hs⟩ := n.state_flush
    rw [next, hs]
    exact ⟨h, rfl, rfl, rfl⟩
  | resolve peer pairs =>
    obtain ⟨taken, hs⟩ := n.state_resolve peer pairs
    rw [next, hs]
    exact ⟨h, rfl, rfl, rfl⟩

/-- What a peer does to the new id of a node: nothing, unless it is asked for the node. It may give
one to a node without, or one more, which is refused. -/
theorem newId?_resolve (n : Numbering) (peer : Nat) (pairs : List (Nat × Nat)) (x : Nat) :
    (n.resolve peer pairs).state.newId? x = n.newId? x ∨
      (∃ l, n.asked.get? peer = some l ∧ x ∈ l) ∧
        (n.newId? x = none ∨ (n.resolve peer pairs).result = .error (.numberedTwice x)) := by
  cases hget : n.asked.get? peer with
  | none => exact .inl (by simp [resolve, hget])
  | some l =>
    rw [resolve_of_asked hget]
    obtain ⟨done, hfresh, hreq, h⟩ := n.take_cases l peer pairs
    by_cases hx : x ∈ done.map Prod.fst
    · exact .inr ⟨⟨l, rfl, hreq x hx⟩, .inl (hfresh.unnumbered x hx)⟩
    · have hkept : (n.taking done).newId? x = n.newId? x := newId?_taking_of_not_mem hx
      rcases h with ⟨-, h⟩ | ⟨e, rest, -, -, h⟩ | ⟨e, rest, -, he, -, h⟩
      · exact .inl (h ▸ hkept)
      · exact .inl (h ▸ hkept)
      · rw [h]
        by_cases hxe : x = e.1
        · subst hxe
          exact .inr ⟨⟨l, rfl, he⟩, .inr rfl⟩
        · left
          rw [Outcome.state_fail, newId?_taking_last, if_neg hxe, hkept]

/-- A node that a peer numbers again has the last id that it was given. -/
theorem newId?_of_numberedTwice
    (h : (n.resolve peer pairs).result = .error (.numberedTwice x)) :
    ∃ y, (x, y) ∈ pairs ∧ (n.resolve peer pairs).state.newId? x = some y := by
  cases hget : n.asked.get? peer with
  | none => simp [resolve, hget] at h
  | some l =>
    rw [resolve_of_asked hget] at h ⊢
    obtain ⟨done, -, -, ⟨-, ht⟩ | ⟨e, rest, -, -, ht⟩ | ⟨e, rest, rfl, -, -, ht⟩⟩ :=
      n.take_cases l peer pairs
    · rw [ht] at h
      cases h
    · rw [ht] at h
      cases h
    · rw [ht] at h ⊢
      cases h
      refine ⟨e.2, by simp, ?_⟩
      rw [Outcome.state_fail, newId?_taking_last, if_pos rfl]

theorem nodes_next (n : Numbering) (c : Call) : (n.next c).nodes = n.nodes := by
  cases c with
  | begin rank start asked =>
    rcases n.begin_cases rank start asked with ⟨e, h⟩ | ⟨requests, -, -, h⟩ <;> rw [next, h] <;> rfl
  | push peer nodes => rfl
  | flush =>
    obtain ⟨inbox, h⟩ := n.state_flush
    rw [next, h]
  | resolve peer pairs =>
    obtain ⟨taken, h⟩ := n.state_resolve peer pairs
    rw [next, h]
    rfl

theorem Sound.next (h : n.Sound) (c : Call) : (n.next c).Sound := by
  cases c with
  | begin rank start asked =>
    rcases n.begin_cases rank start asked with ⟨e, hr⟩ | ⟨requests, hb, hcheck, hr⟩
    · rw [Numbering.next, hr]
      exact h
    · rw [Numbering.next, hr]
      refine ⟨nofun, fun peer l hl x hx => (get?_asked_of_checkAll hcheck hl x hx).1, ?_⟩
      intro x y hy
      change (n.newIds.insertAll _).get? x = some y at hy
      rw [(h.untouched hb).2] at hy
      have hmem := IdMap.mem_of_mem_entries_ofList (IdMap.get?_eq_some_iff.1 hy)
      have hown : x ∈ ownNodes n.nodes requests := List.fst_mem_of_mem_zipIdx hmem
      exact (List.mem_filter.1 hown).1
  | push peer nodes => exact ⟨h.untouched, h.asked_known, h.known⟩
  | flush =>
    obtain ⟨inbox, hs⟩ := n.state_flush
    rw [Numbering.next, hs]
    exact ⟨h.untouched, h.asked_known, h.known⟩
  | resolve peer pairs =>
    obtain ⟨taken, hs⟩ := n.state_resolve peer pairs
    refine ⟨fun hb => ?_, ?_, fun x y hy => ?_⟩
    · have hempty := h.untouched (by simpa [Numbering.next, hs, taking] using hb)
      have hnone : n.asked.get? peer = none := by rw [hempty.1, IdMap.get?_empty]
      simpa [Numbering.next, resolve, hnone] using hempty
    · rw [Numbering.next, hs]
      exact h.asked_known
    · have hnodes : (n.next (.resolve peer pairs)).nodes = n.nodes := by
        rw [Numbering.next, hs]
        rfl
      rw [hnodes]
      rcases n.newId?_resolve peer pairs x with hkept | ⟨⟨l, hl, hx⟩, -⟩
      · exact h.known x y (hkept ▸ hy)
      · exact h.asked_known peer l hl x hx

/-- A new id is there to stay, unless a peer numbers the node again. -/
theorem Sound.newId?_next (h : n.Sound) (hx : n.newId? x = some y) (c : Call) :
    (n.next c).newId? x = some y ∨ ∃ peer pairs, c = .resolve peer pairs ∧
      (n.resolve peer pairs).result = .error (.numberedTwice x) := by
  cases c with
  | begin rank start asked =>
    rcases n.begin_cases rank start asked with ⟨e, hr⟩ | ⟨requests, hb, -, -⟩
    · rw [Numbering.next, hr]
      exact .inl hx
    · rw [newId?, (h.untouched hb).2, IdMap.get?_empty] at hx
      cases hx
  | push peer nodes => exact .inl hx
  | flush =>
    obtain ⟨inbox, hs⟩ := n.state_flush
    rw [Numbering.next, hs]
    exact .inl hx
  | resolve peer pairs =>
    rcases n.newId?_resolve peer pairs x with hkept | ⟨-, hnone | htwice⟩
    · exact .inl (hkept.trans hx)
    · cases hnone.symm.trans hx
    · exact .inr ⟨peer, pairs, rfl, htwice⟩

/-- A node that no peer is asked for keeps its new id, whatever the call. -/
theorem newId?_next_of_own (hb : n.begun = true)
    (hx : ∀ peer l, n.asked.get? peer = some l → x ∉ l) (c : Call) :
    (n.next c).newId? x = n.newId? x := by
  cases c with
  | begin rank start asked =>
    obtain ⟨e, hr⟩ := begin_of_begun hb rank start asked
    rw [next, hr]
    rfl
  | push peer nodes => rfl
  | flush =>
    obtain ⟨inbox, hs⟩ := n.state_flush
    rw [next, hs]
    rfl
  | resolve peer pairs =>
    rcases n.newId?_resolve peer pairs x with hkept | ⟨⟨l, hl, hmem⟩, -⟩
    · exact hkept
    · exact absurd hmem (hx peer l hl)

/-! ### Sequences of calls -/

theorem Sound.after (h : n.Sound) (calls : List Call) : (n.after calls).Sound := by
  induction calls generalizing n with
  | nil => exact h
  | cons c calls ih => exact ih (h.next c)

theorem nodes_after (n : Numbering) (calls : List Call) : (n.after calls).nodes = n.nodes := by
  induction calls generalizing n with
  | nil => rfl
  | cons c calls ih => exact (ih (n.next c)).trans (n.nodes_next c)

/-- A peer numbers the node again in the course of the calls, which is refused. -/
def RenumberedIn (n : Numbering) (calls : List Call) (x : Nat) : Prop :=
  ∃ before peer pairs later, calls = before ++ .resolve peer pairs :: later ∧
    ((n.after before).resolve peer pairs).result = .error (.numberedTwice x)

theorem Sound.newId?_after (h : n.Sound) (hx : n.newId? x = some y) (calls : List Call) :
    (n.after calls).newId? x = some y ∨ n.RenumberedIn calls x := by
  induction calls generalizing n with
  | nil => exact .inl hx
  | cons c calls ih =>
    rcases h.newId?_next hx c with hkept | ⟨peer, pairs, rfl, htwice⟩
    · refine (ih (h.next c) hkept).imp_right ?_
      rintro ⟨before, peer, pairs, later, rfl, htwice⟩
      exact ⟨c :: before, peer, pairs, later, rfl, htwice⟩
    · exact .inr ⟨[], peer, pairs, calls, rfl, htwice⟩

theorem after_of_own (hb : n.begun = true) (hx : ∀ peer l, n.asked.get? peer = some l → x ∉ l)
    (calls : List Call) :
    (n.after calls).newId? x = n.newId? x := by
  induction calls generalizing n with
  | nil => rfl
  | cons c calls ih =>
    obtain ⟨hb', -, hasked, -⟩ := next_of_begun hb c
    exact (ih hb' (hasked ▸ hx)).trans (newId?_next_of_own hb hx c)

theorem block_after (hb : n.begun = true) (calls : List Call) :
    (n.after calls).block = n.block := by
  induction calls generalizing n with
  | nil => rfl
  | cons c calls ih =>
    obtain ⟨hb', -, -, hblock⟩ := next_of_begun hb c
    exact (ih hb').trans hblock

/-- Over all sequences of calls on a new numbering, those that fail included: a new id stays unless
a peer numbers the node again, which is refused but leaves the node with the last id that it was
given; only nodes of the numbering have new ids; and from the start on, the nodes that no peer is
asked for have the ids of the own block in ascending order, as long as these are machine words. -/
theorem new_ids_stay_unless_numbered_twice (hnodes : nodes.Pairwise (· < ·))
    (hn : ({ nodes } : Numbering).after calls = n) :
    (∀ x y later, n.newId? x = some y →
      (n.after later).newId? x = some y ∨ n.RenumberedIn later x) ∧
    (∀ peer pairs x, (n.resolve peer pairs).result = .error (.numberedTwice x) →
      ∃ y, (x, y) ∈ pairs ∧ (n.resolve peer pairs).state.newId? x = some y) ∧
    (∀ x y, n.newId? x = some y → x ∈ nodes) ∧
    ∀ rank start asked s requests later, n.begin rank start asked = .ok s requests →
      let own := nodes.filter fun x => ∀ l ∈ asked.values, x ∉ l
      start + own.length < 2 ^ 64 →
      own.Pairwise (· < ·) ∧ (s.after later).block = ⟨start, start + own.length⟩ ∧
        ∀ i x, own[i]? = some x → (s.after later).newId? x = some (start + i) := by
  have hsound : n.Sound := hn ▸ (sound_new nodes).after calls
  have hsame : n.nodes = nodes := hn ▸ nodes_after _ calls
  refine ⟨fun x y later hx => hsound.newId?_after hx later,
    fun peer pairs x => newId?_of_numberedTwice, fun x y hx => hsame ▸ hsound.known x y hx, ?_⟩
  intro rank start asked s requests later hok own _
  rcases n.begin_cases rank start asked with ⟨e, hr⟩ | ⟨requests', hb, hcheck, hr⟩
  · cases hr.symm.trans hok
  · obtain ⟨rfl, rfl⟩ : _ = s ∧ requests' = requests := by
      have h := hr.symm.trans hok
      exact ⟨congrArg Outcome.state h, Except.ok.inj (congrArg Outcome.result h)⟩
    have hown : ownNodes n.nodes requests' = own := hsame ▸ ownNodes_of_checkAll hcheck
    have hasc : own.Pairwise (· < ·) := hnodes.filter _
    refine ⟨hasc, (block_after rfl later).trans (hown ▸ rfl), fun i x hi => ?_⟩
    refine (after_of_own rfl (fun peer l hl hx => ?_) later).trans ?_
    · obtain ⟨-, l', hl', hx'⟩ := get?_asked_of_checkAll hcheck hl x hx
      have hnone := (List.mem_filter.1 (List.mem_of_getElem? hi)).2
      exact of_decide_eq_true hnone l' hl' hx'
    · exact newId?_of_ownNodes (hsound.untouched hb).2
        (hown ▸ hasc.imp Nat.ne_of_lt) (hown ▸ hi)

/-- A rank with three nodes, asked for the last before it begins, asks one peer for the second. -/
theorem new_ids_of_three :
    [3, 5, 8].Pairwise (· < ·) ∧
      ∃ n s, ({ nodes := [3, 5, 8] } : Numbering).after [.push 2 [8]] = n ∧
        n.begin 1 10 (.ofList [(0, [5])]) = .ok s [(0, [5])] ∧
        (∀ later, (s.after later).block = ⟨10, 12⟩ ∧ (s.after later).newId? 8 = some 11) ∧
        (s.after [.resolve 0 [(5, 1)]]).newId? 5 = some 1 := by
  have hnodes : [3, 5, 8].Pairwise (· < ·) := by decide
  refine ⟨hnodes, _, _, rfl, rfl, fun later => ?_, rfl⟩
  have hafter : ({ nodes := [3, 5, 8] } : Numbering).after [.push 2 [8]] = _ := rfl
  obtain ⟨-, -, -, hown⟩ := new_ids_stay_unless_numbered_twice hnodes hafter
  obtain ⟨-, hblock, hids⟩ := hown 1 10 (.ofList [(0, [5])]) _ _ later rfl (by decide)
  exact ⟨hblock, hids 1 8 rfl⟩

/-- A peer that numbers a node a second time is refused, and the node has the second id. -/
theorem second_id_overwrites_first :
    let asked : Call := .begin 1 10 (.ofList [(0, [5])])
    let n := ({ nodes := [3, 5] } : Numbering).after [asked, .resolve 0 [(5, 1)]]
    n.newId? 5 = some 1 ∧ (n.resolve 0 [(5, 2)]).result = .error (.numberedTwice 5) ∧
      (n.after [.resolve 0 [(5, 2)]]).newId? 5 = some 2 :=
  ⟨rfl, rfl, rfl⟩

end Numbering
end MeshDecomp
