import MeshDecomp.Proofs.Renumbering

/-!
Calls on a numbering, in any order and with any contents, those that fail included: what each of
them does to the state, told once for the fate of requests and for the new ids.
-/

namespace MeshDecomp

theorem IdMap.get?_insertAll_of_not_mem {m : IdMap α} {l : List (Nat × α)} {k : Nat}
    (h : k ∉ l.map Prod.fst) : (m.insertAll l).get? k = m.get? k := by
  have hnone : l.reverse.find? (·.1 = k) = none := by
    refine List.find?_eq_none.2 fun e he hk => h ?_
    exact List.mem_map.2 ⟨e, List.mem_reverse.1 he, of_decide_eq_true hk⟩
  rw [get?_insertAll, hnone, Option.map_none, Option.none_or]

namespace Numbering

inductive Call where
  | begin (rank start : Nat) (asked : IdMap (List Nat))
  | push (peer : Nat) (nodes : List Nat)
  | flush
  | resolve (peer : Nat) (pairs : List (Nat × Nat))
  deriving DecidableEq, Repr

/-- The state after a call, be it refused or not. -/
def next (n : Numbering) : Call → Numbering
  | .begin rank start asked => (n.begin rank start asked).state
  | .push peer nodes => n.push peer nodes
  | .flush => n.flush.state
  | .resolve peer pairs => (n.resolve peer pairs).state

def after (n : Numbering) (calls : List Call) : Numbering := calls.foldl next n

variable {n : Numbering} {peer rank start x y : Nat} {nodes known requested : List Nat}
  {asked : IdMap (List Nat)} {requests : List (Nat × List Nat)} {pairs : List (Nat × Nat)}

/-! ### Answers to requests -/

/-- The node has a new id from the block of this rank. -/
def Numbers (n : Numbering) (x : Nat) : Prop := ∃ y ∈ n.block, n.newId? x = some y

/-- All nodes of a request are numbered here. -/
def Serves (n : Numbering) (nodes : List Nat) : Prop := ∀ x ∈ nodes, n.Numbers x

/-- The answer to a request whose nodes are numbered here. -/
def answerTo (n : Numbering) (r : Nat × List Nat) : Nat × List (Nat × Nat) :=
  (r.1, r.2.map fun x => (x, (n.newId? x).getD 0))

theorem map_fst_answerTo (n : Numbering) (r : Nat × List Nat) :
    (n.answerTo r).2.map Prod.fst = r.2 := by
  simp [answerTo, Function.comp_def]

theorem reply_of_serves (h : n.Serves nodes) (peer : Nat) :
    n.reply peer nodes = .ok (n.answerTo (peer, nodes)).2 := by
  refine reply_eq fun x hx => ?_
  obtain ⟨y, hy, hid⟩ := h x hx
  rw [hid]
  exact ⟨rfl, hy⟩

theorem reply_of_not_serves (h : ¬n.Serves nodes) (peer : Nat) :
    ∃ x ∈ nodes, ¬n.Numbers x ∧ n.reply peer nodes = .error (.notNumberedHere peer x) := by
  cases hr : n.reply peer nodes with
  | error e =>
    obtain ⟨x, hx, hfail⟩ := exists_of_mapM_error hr
    refine ⟨x, hx, ?_⟩
    split at hfail
    · next y hid =>
      split at hfail
      · cases hfail
      · next hout =>
        cases hfail
        refine ⟨?_, rfl⟩
        rintro ⟨z, hz, hid'⟩
        obtain rfl := Option.some.inj (hid.symm.trans hid')
        exact hout hz
    · next hid =>
      cases hfail
      refine ⟨?_, rfl⟩
      rintro ⟨z, -, hid'⟩
      cases hid.symm.trans hid'
  | ok pairs =>
    refine absurd (fun x hx => ?_) h
    obtain ⟨z, hz⟩ := exists_of_mapM_ok hr hx
    split at hz
    · next y hid =>
      split at hz
      · next hin => exact ⟨y, hin, hid⟩
      · cases hz
    · cases hz

theorem answer_of_serves {l : List (Nat × List Nat)} (h : ∀ r ∈ l, n.Serves r.2) :
    n.answer l = .ok { n with inbox := [] } (l.map n.answerTo) :=
  answer_eq fun r hr => reply_of_serves (h r hr) r.1

/-- The first request that asks for a node which is not numbered here ends the answers. It goes with
the requests before it, those behind it stay. -/
theorem answer_of_not_serves {done : List (Nat × List Nat)} {bad : Nat × List Nat}
    (hdone : ∀ r ∈ done, n.Serves r.2) (hbad : ¬n.Serves bad.2) (rest : List (Nat × List Nat)) :
    ∃ x ∈ bad.2, ¬n.Numbers x ∧ n.answer (done ++ bad :: rest) =
      .fail { n with inbox := rest } (.notNumberedHere bad.1 x) := by
  induction done with
  | nil =>
    obtain ⟨x, hx, hn, hreply⟩ := reply_of_not_serves hbad bad.1
    refine ⟨x, hx, hn, ?_⟩
    simp only [List.nil_append, answer, hreply]
  | cons r done ih =>
    obtain ⟨hr, hdone⟩ := List.forall_mem_cons.1 hdone
    obtain ⟨x, hx, hn, hans⟩ := ih hdone
    refine ⟨x, hx, hn, ?_⟩
    simp only [List.cons_append, answer, reply_of_serves hr r.1, hans, Outcome.map_fail]

theorem serves_or_not (n : Numbering) (l : List (Nat × List Nat)) :
    (∀ r ∈ l, n.Serves r.2) ∨ ∃ done bad rest, l = done ++ bad :: rest ∧
      (∀ r ∈ done, n.Serves r.2) ∧ ¬n.Serves bad.2 := by
  classical
  cases h : l.find? fun r => ¬n.Serves r.2 with
  | none => exact .inl fun r hr => by simpa using List.find?_eq_none.1 h r hr
  | some bad =>
    obtain ⟨hbad, done, rest, rfl, hdone⟩ := List.find?_eq_some_iff_append.1 h
    refine .inr ⟨done, bad, rest, rfl, fun r hr => ?_, of_decide_eq_true hbad⟩
    simpa using hdone r hr

theorem flush_of_begun (h : n.begun = true) : n.flush = n.answer n.inbox := if_pos h

theorem flush_of_not_begun (h : n.begun = false) : n.flush = .ok n [] := by
  simp [flush, h]

/-- A flush changes the inbox at most. -/
theorem state_flush (n : Numbering) : ∃ inbox, n.flush.state = { n with inbox } := by
  unfold flush
  split
  · rcases n.serves_or_not n.inbox with h | ⟨done, bad, rest, hinbox, hdone, hbad⟩
    · exact ⟨[], congrArg Outcome.state (answer_of_serves h)⟩
    · obtain ⟨x, -, -, hans⟩ := answer_of_not_serves hdone hbad rest
      rw [hinbox]
      exact ⟨rest, congrArg Outcome.state hans⟩
  · exact ⟨n.inbox, rfl⟩

/-! ### The start of the own block -/

theorem eq_of_checkAsked {l : List Nat} (h : checkAsked rank (.ofList known) peer nodes = .ok l) :
    l = ascending nodes ∧ ∀ x ∈ nodes, x ∈ known := by
  unfold checkAsked at h
  split at h
  · cases h
  · dsimp only at h
    split at h
    · cases h
    · next hnone =>
      cases h
      refine ⟨rfl, fun x hx => ?_⟩
      simpa using List.find?_eq_none.1 hnone x (mem_ascending.2 hx)

/-- What is asked of the peers are the nodes of the given lists, all of them known. -/
theorem mem_of_checkAll {l : List (Nat × List Nat)}
    (h : checkAll rank (.ofList known) l = .ok requests) :
    (∀ x, x ∈ requests.flatMap Prod.snd ↔ x ∈ l.flatMap Prod.snd) ∧
      ∀ x ∈ l.flatMap Prod.snd, x ∈ known := by
  induction l generalizing requests with
  | nil =>
    cases h
    exact ⟨fun x => Iff.rfl, nofun⟩
  | cons e l ih =>
    rw [checkAll] at h
    cases he : checkAsked rank (.ofList known) e.1 e.2 with
    | error v =>
      rw [he] at h
      cases h
    | ok asked =>
      cases hl : checkAll rank (.ofList known) l with
      | error v =>
        rw [he, hl] at h
        cases h
      | ok others =>
        rw [he, hl] at h
        obtain ⟨rfl, hknown⟩ := eq_of_checkAsked he
        obtain ⟨hmem, hothers⟩ := ih hl
        have hreq : requests.flatMap Prod.snd = ascending e.2 ++ others.flatMap Prod.snd := by
          obtain rfl := Except.ok.inj h
          split
          · next hnil => simp [List.isEmpty_iff.1 hnil]
          · rfl
        simp only [hreq, List.flatMap_cons, List.mem_append, mem_ascending, hmem, implies_true,
          true_and]
        rintro x (hx | hx)
        · exact hknown x hx
        · exact hothers x hx

/-- The nodes that no peer is asked for. -/
theorem ownNodes_of_checkAll
    (h : checkAll rank (.ofList known) asked.entries = .ok requests) :
    ownNodes nodes requests = nodes.filter fun x => ∀ l ∈ asked.values, x ∉ l := by
  refine List.filter_congr fun x _ => ?_
  rw [IdSet.contains_ofList, Bool.eq_iff_iff, Bool.not_eq_true', ← Bool.not_eq_true,
    List.contains_iff_mem, (mem_of_checkAll h).1, decide_eq_true_eq, List.mem_flatMap]
  simp only [IdMap.values, List.forall_mem_map, not_exists, not_and]

/-- A numbering begins once, or refuses and stays as it is. -/
theorem begin_cases (n : Numbering) (rank start : Nat) (asked : IdMap (List Nat)) :
    (∃ e, n.begin rank start asked = .fail n e) ∨
      ∃ requests, n.begun = false ∧
        checkAll rank (.ofList n.nodes) asked.entries = .ok requests ∧
        n.begin rank start asked = .ok { n with
          asked := .ofList requests
          newIds := n.newIds.insertAll ((ownNodes n.nodes requests).zipIdx start)
          block := ⟨start, start + (ownNodes n.nodes requests).length⟩
          begun := true } requests := by
  unfold begin
  split
  · exact .inl ⟨_, rfl⟩
  · next hb =>
    split
    · exact .inl ⟨_, rfl⟩
    · next requests hcheck => exact .inr ⟨requests, Bool.eq_false_iff.2 hb, hcheck, rfl⟩

/-! ### New ids from peers -/

/-- New ids for nodes without one, no node twice. -/
structure Fresh (n : Numbering) (pairs : List (Nat × Nat)) : Prop where
  nodup : (pairs.map Prod.fst).Nodup
  unnumbered : ∀ x ∈ pairs.map Prod.fst, n.newId? x = none

/-- The state with some more new ids. -/
def taking (n : Numbering) (pairs : List (Nat × Nat)) : Numbering :=
  { n with newIds := n.newIds.insertAll pairs }

theorem newId?_taking_of_not_mem (h : x ∉ pairs.map Prod.fst) :
    (n.taking pairs).newId? x = n.newId? x :=
  IdMap.get?_insertAll_of_not_mem h

theorem newId?_taking_of_mem (h : (pairs.map Prod.fst).Nodup) (hx : (x, y) ∈ pairs) :
    (n.taking pairs).newId? x = some y := by
  change (n.newIds.insertAll pairs).get? x = some y
  have hlast : (IdMap.ofList pairs).get? x = some y := (IdMap.get?_ofList_eq_some_iff h).2 hx
  rw [IdMap.ofList, IdMap.get?_insertAll, IdMap.get?_empty, Option.or_none] at hlast
  rw [IdMap.get?_insertAll, hlast, Option.some_or]

theorem newId?_taking_last (n : Numbering) (pairs : List (Nat × Nat)) (e : Nat × Nat) (x : Nat) :
    (n.taking (pairs ++ [e])).newId? x =
      if x = e.1 then some e.2 else (n.taking pairs).newId? x := by
  have hlast : (n.taking (pairs ++ [e])).newIds = (n.taking pairs).newIds.insert e.1 e.2 := by
    simp [taking, IdMap.insertAll]
  rw [newId?, hlast, IdMap.get?_insert]
  rfl

/-- New ids are taken from a list up to the first that does not belong here. A node that has a new
id already still gets the one from the list. -/
theorem take_cases (n : Numbering) (requested : List Nat) (peer : Nat) (pairs : List (Nat × Nat)) :
    ∃ done, n.Fresh done ∧ (∀ x ∈ done.map Prod.fst, x ∈ requested) ∧
      (pairs = done ∧ take (.ofList requested) peer n pairs = .ok (n.taking done) () ∨
      (∃ e rest, pairs = done ++ e :: rest ∧ e.1 ∉ requested ∧
        take (.ofList requested) peer n pairs = .fail (n.taking done) (.notRequested peer e.1)) ∨
      ∃ e rest, pairs = done ++ e :: rest ∧ e.1 ∈ requested ∧ (n.taking done).newId? e.1 ≠ none ∧
        take (.ofList requested) peer n pairs =
          .fail (n.taking (done ++ [e])) (.numberedTwice e.1)) := by
  induction pairs generalizing n with
  | nil => exact ⟨[], ⟨List.nodup_nil, nofun⟩, nofun, .inl ⟨rfl, rfl⟩⟩
  | cons e pairs ih =>
    have hnil : n.Fresh [] := ⟨List.nodup_nil, nofun⟩
    by_cases hreq : e.1 ∈ requested
    · have hc : (IdSet.ofList requested).contains e.1 = true := by simpa using hreq
      cases hid : n.newId? e.1 with
      | some y =>
        have hkey : n.newIds.contains e.1 = true := by
          rw [IdMap.contains, show n.newIds.get? e.1 = some y from hid, Option.isSome_some]
        refine ⟨[], hnil, nofun, .inr (.inr ⟨e, pairs, rfl, hreq, ?_, ?_⟩)⟩
        · rw [newId?_taking_of_not_mem List.not_mem_nil, hid]
          exact Option.some_ne_none y
        · simp only [take, hc, hkey, Bool.not_true, Bool.false_eq_true, ↓reduceIte]
          rfl
      | none =>
        have hkey : n.newIds.contains e.1 = false := by
          rw [IdMap.contains, show n.newIds.get? e.1 = none from hid, Option.isSome_none]
        have hstep : take (.ofList requested) peer n (e :: pairs) =
            take (.ofList requested) peer (n.taking [e]) pairs := by
          simp only [take, hc, hkey, Bool.not_true, Bool.false_eq_true, ↓reduceIte]
          rfl
        obtain ⟨done, hfresh, hdone, h⟩ := ih (n.taking [e])
        have hne : ∀ x ∈ done.map Prod.fst, x ≠ e.1 := by
          rintro x hx rfl
          have hself : (n.taking [e]).newId? e.1 = some e.2 := IdMap.get?_insert_self _ _ _
          cases hself.symm.trans (hfresh.unnumbered _ hx)
        have hfresh' : n.Fresh (e :: done) := by
          refine ⟨List.nodup_cons.2 ⟨fun h => hne _ h rfl, hfresh.nodup⟩, ?_⟩
          refine List.forall_mem_cons.2 ⟨hid, fun x hx => ?_⟩
          have hnone := hfresh.unnumbered x hx
          rwa [newId?_taking_of_not_mem (by simpa using hne x hx)] at hnone
        rw [hstep]
        refine ⟨e :: done, hfresh', List.forall_mem_cons.2 ⟨hreq, hdone⟩, ?_⟩
        rcases h with ⟨rfl, h⟩ | ⟨e', rest, rfl, he', h⟩ | ⟨e', rest, rfl, he', hid', h⟩
        · exact .inl ⟨rfl, h⟩
        · exact .inr (.inl ⟨e', rest, rfl, he', h⟩)
        · exact .inr (.inr ⟨e', rest, rfl, he', hid', h⟩)
    · have hc : (IdSet.ofList requested).contains e.1 = false := by simpa using hreq
      refine ⟨[], hnil, nofun, .inr (.inl ⟨e, pairs, rfl, hreq, ?_⟩)⟩
      simp only [take, hc, Bool.not_false, ↓reduceIte]
      rfl

theorem resolve_of_asked (h : n.asked.get? peer = some requested) :
    n.resolve peer pairs = take (.ofList requested) peer n pairs := by
  simp [resolve, h]

/-- New ids from a peer change the new ids at most. -/
theorem state_resolve (n : Numbering) (peer : Nat) (pairs : List (Nat × Nat)) :
    ∃ taken, (n.resolve peer pairs).state = n.taking taken := by
  cases h : n.asked.get? peer with
  | none => exact ⟨[], by simp [resolve, h, taking, IdMap.insertAll]⟩
  | some requested =>
    rw [resolve_of_asked h]
    obtain ⟨done, -, -, ⟨-, h⟩ | ⟨e, -, -, -, h⟩ | ⟨e, -, -, -, -, h⟩⟩ :=
      n.take_cases requested peer pairs
    · exact ⟨done, congrArg Outcome.state h⟩
    · exact ⟨done, congrArg Outcome.state h⟩
    · exact ⟨done ++ [e], congrArg Outcome.state h⟩

end Numbering
end MeshDecomp
