import Mathlib
import MeshDecomp.Proofs.SharedFaces

/-!
Where a grown part borders on later ones. A part grows from one seed until nothing is left to reach,
and only then from another. So the one piece that still grew when the part had its share can have
neighbours in higher parts, and no other piece has.
-/

namespace MeshDecomp.Growth

variable {g : FaceGraph} {n p q e u root : Nat} {s t : Growth} {piece : Set Nat} {queue : List Nat}

theorem mem_free_give : u ∈ (s.give e q).free.keys ↔ u ≠ e ∧ u ∈ s.free.keys :=
  IdMap.mem_keys_erase

theorem mem_reached : u ∈ reached g s e ↔ u ∈ g.neighbours e ∧ u ∈ s.free.keys := by
  rw [reached, List.mem_filter, IdMap.contains_iff]

theorem part_give_self : (s.give e q).parts.get? e = some q :=
  IdMap.get?_insert_self _ _ _

theorem part_give_of_ne (hu : u ≠ e) : (s.give e q).parts.get? u = s.parts.get? u := by
  rw [give, IdMap.get?_insert, if_neg hu]

theorem Complete.ne_of_part (hs : Complete n s) (he : e ∈ s.free.keys)
    (hu : s.parts.get? u = some p) : u ≠ e := by
  rintro rfl
  exact ((hs.free u).1 he).2 (IdMap.mem_keys_iff.2 ⟨p, hu⟩)

/-! ### One part grows -/

/-- Links lead from `root` to `e` through elements of part `p`. -/
def Joined (g : FaceGraph) (s : Growth) (p root e : Nat) : Prop :=
  s.parts.get? root = some p ∧
    Relation.ReflTransGen (fun v u => u ∈ g.neighbours v ∧ s.parts.get? u = some p) root e

theorem Joined.give (h : Joined g s p root u) (hs : Complete n s) (he : e ∈ s.free.keys) (q : Nat) :
    Joined g (s.give e q) p root u := by
  have hkept {v : Nat} (hv : s.parts.get? v = some p) : (s.give e q).parts.get? v = some p :=
    (part_give_of_ne (hs.ne_of_part he hv)).trans hv
  exact ⟨hkept h.1, Relation.ReflTransGen.mono (fun v w hw => ⟨hw.1, hkept hw.2⟩) _ _ h.2⟩

/-- While part `p` grows: `piece` is what has been reached from the last seed, and the queue holds
what can be reached next. -/
structure Frontier (g : FaceGraph) (p : Nat) (piece : Set Nat) (queue : List Nat) (s : Growth) :
    Prop where
  joined : ∃ root, ∀ e ∈ piece, Joined g s p root e
  queued : ∀ u ∈ queue, u ∈ s.free.keys → ∃ e ∈ piece, u ∈ g.neighbours e
  /-- Free neighbours of the part are neighbours of the piece, and wait in the queue. -/
  ahead : ∀ e, s.parts.get? e = some p → ∀ u ∈ g.neighbours e, u ∈ s.free.keys →
    e ∈ piece ∧ u ∈ queue

namespace Frontier

/-- An element of the queue that is free joins the piece. -/
theorem reach (h : Frontier g p piece (e :: queue) s) (hs : Complete n s) (he : e ∈ s.free.keys) :
    Frontier g p (insert e piece) (queue ++ reached g (s.give e p) e) (s.give e p) where
  joined := by
    obtain ⟨root, hroot⟩ := h.joined
    obtain ⟨v, hv, hlink⟩ := h.queued e List.mem_cons_self he
    refine ⟨root, fun x hx => ?_⟩
    rcases hx with rfl | hx
    · obtain ⟨hstart, hpath⟩ := (hroot v hv).give hs he p
      exact ⟨hstart, hpath.tail ⟨hlink, part_give_self⟩⟩
    · exact (hroot x hx).give hs he p
  queued u hu hfree := by
    rcases List.mem_append.1 hu with hu | hu
    · obtain ⟨v, hv, hlink⟩ := h.queued u (List.mem_cons_of_mem e hu) (mem_free_give.1 hfree).2
      exact ⟨v, .inr hv, hlink⟩
    · exact ⟨e, .inl rfl, (mem_reached.1 hu).1⟩
  ahead x hx u hu hfree := by
    rcases eq_or_ne x e with rfl | hne
    · exact ⟨.inl rfl, List.mem_append_right _ (mem_reached.2 ⟨hu, hfree⟩)⟩
    · rw [part_give_of_ne hne] at hx
      obtain ⟨hue, hfree⟩ := mem_free_give.1 hfree
      obtain ⟨hpiece, hqueue⟩ := h.ahead x hx u hu hfree
      exact ⟨.inr hpiece, List.mem_append_left _ (List.mem_of_ne_of_mem hue hqueue)⟩

/-- An element of the queue that has a part by now is passed over. -/
theorem pass (h : Frontier g p piece (e :: queue) s) (he : e ∉ s.free.keys) :
    Frontier g p piece queue s where
  joined := h.joined
  queued u hu := h.queued u (List.mem_cons_of_mem e hu)
  ahead x hx u hu hfree := by
    obtain ⟨hpiece, hqueue⟩ := h.ahead x hx u hu hfree
    have hue : u ≠ e := fun heq => he (heq ▸ hfree)
    exact ⟨hpiece, List.mem_of_ne_of_mem hue hqueue⟩

/-- With nothing left to reach, a new piece starts at a free element. -/
theorem seed (h : Frontier g p piece [] s) :
    Frontier g p {e} (reached g (s.give e p) e) (s.give e p) where
  joined := ⟨e, fun x hx => by rw [hx]; exact ⟨part_give_self, .refl⟩⟩
  queued u hu _ := ⟨e, rfl, (mem_reached.1 hu).1⟩
  ahead x hx u hu hfree := by
    rcases eq_or_ne x e with rfl | hne
    · exact ⟨rfl, mem_reached.2 ⟨hu, hfree⟩⟩
    · rw [part_give_of_ne hne] at hx
      exact absurd (h.ahead x hx u hu (mem_free_give.1 hfree).2).2 List.not_mem_nil

theorem fill {need : Nat} {front back : List Nat} (hs : Complete n s)
    (h : Frontier g p piece (front ++ back.reverse) s) :
    ∃ piece queue, Frontier g p piece queue (fill g p need front back s) := by
  fun_induction Growth.fill g p need front back s generalizing piece with
  | case1 => exact ⟨_, _, h⟩
  | case2 s need e front back hfree s' =>
    rename_i ih
    have hmem := IdMap.contains_iff.1 hfree
    apply ih (hs.give hmem)
    rw [List.reverse_append, List.reverse_reverse, ← List.append_assoc]
    exact h.reach hs hmem
  | case3 s need e front back hfree ih =>
    exact ih hs (h.pass (mt IdMap.contains_iff.2 hfree))
  | case4 s need e back ih =>
    apply ih hs
    simpa using h
  | case5 s need e hfirst s' =>
    rename_i ih
    apply ih (hs.give (IdMap.first?_eq_some_iff.1 hfirst).1)
    rw [List.reverse_nil, List.append_nil]
    exact h.seed
  | case6 => exact ⟨_, _, h⟩

end Frontier

/-! ### One part after the other -/

/-- Element `u` has no part yet, or a higher one than `p`. -/
def Beyond (s : Growth) (p u : Nat) : Prop :=
  u ∈ s.free.keys ∨ ∃ q, s.parts.get? u = some q ∧ p < q

/-- What has a neighbour beyond part `p` is in one piece. -/
def OneOpening (g : FaceGraph) (p : Nat) (s : Growth) : Prop :=
  ∃ root, ∀ e, s.parts.get? e = some p → ∀ u ∈ g.neighbours e, Beyond s p u → Joined g s p root e

theorem Frontier.oneOpening (h : Frontier g p piece queue s)
    (htop : ∀ u q, s.parts.get? u = some q → q ≤ p) : OneOpening g p s := by
  obtain ⟨root, hroot⟩ := h.joined
  refine ⟨root, fun e he u hu hbeyond => ?_⟩
  rcases hbeyond with hfree | ⟨q, hq, hlt⟩
  · exact hroot e (h.ahead e he u hu hfree).1
  · exact absurd (htop u q hq) (Nat.not_le_of_lt hlt)

theorem OneOpening.give (h : OneOpening g p s) (hs : Complete n s) (he : e ∈ s.free.keys)
    (hq : p < q) : OneOpening g p (s.give e q) := by
  obtain ⟨root, hroot⟩ := h
  refine ⟨root, fun x hx u hu hbeyond => ?_⟩
  have hxe : x ≠ e := by
    rintro rfl
    rw [part_give_self, Option.some_inj] at hx
    exact hq.ne' hx
  rw [part_give_of_ne hxe] at hx
  refine (hroot x hx u hu ?_).give hs he q
  rcases eq_or_ne u e with rfl | hue
  · exact .inl he
  · exact hbeyond.imp (fun hfree => (mem_free_give.1 hfree).2) fun hpart => by
      rwa [part_give_of_ne hue] at hpart

theorem Given.oneOpening {k : Nat} (h : Given q k s t) (hs : Complete n s) (hq : p < q)
    (hp : OneOpening g p s) : OneOpening g p t := by
  induction h with
  | none s => exact hp
  | more he rest ih => exact ih (hs.give he) (hp.give hs he hq)

theorem Grown.lt_of_part {m k : Nat} (h : Grown n m k s) (hu : s.parts.get? u = some q) :
    q < k := by
  by_contra hge
  have hcount := h.count q
  rw [if_neg hge, List.count_eq_zero] at hcount
  exact hcount (IdMap.mem_values_iff.2 ⟨u, hu⟩)

theorem Grown.oneOpening_fill {m k : Nat} (h : Grown g.size m k s) (hk : k < m)
    (hs : ∀ p < k, OneOpening g p s) :
    ∀ p < k + 1, OneOpening g p (Growth.fill g k (Run.share g.size m k) [] [] s) := by
  intro p hp
  rcases Nat.lt_succ_iff_lt_or_eq.1 hp with hlt | rfl
  · have hfree := h.free
    have hlast : Run.start g.size m (k + 1) ≤ g.size := Run.start_le hk
    have hneed : Run.share g.size m k ≤ s.free.size := by
      rw [Run.share]
      omega
    exact (given_fill hneed).oneOpening h.complete hlt (hs p hlt)
  · -- no element has the part yet, so the piece starts empty
    have hstart : Frontier g p ∅ ([] ++ [].reverse) s :=
      { joined := ⟨0, fun e he => absurd he (Set.notMem_empty e)⟩
        queued := fun u hu => absurd hu List.not_mem_nil
        ahead := fun e he => absurd (h.lt_of_part he) (Nat.lt_irrefl p) }
    obtain ⟨piece, queue, hend⟩ := hstart.fill h.complete
    exact hend.oneOpening fun u q hq => Nat.le_of_lt_succ ((h.fill hk).lt_of_part hq)

theorem oneOpening_foldl (g : FaceGraph) {m k : Nat} (hk : k ≤ m) :
    ∀ p < k, OneOpening g p ((List.range k).foldl
      (fun s p => fill g p (Run.share g.size m p) [] [] s) (bare g.size)) := by
  induction k with
  | zero => exact fun p hp => absurd hp (Nat.not_lt_zero p)
  | succ k ih =>
    rw [List.range_succ, List.foldl_concat]
    exact (grown_foldl g (Nat.le_of_succ_le hk)).oneOpening_fill hk (ih (Nat.le_of_succ_le hk))

theorem oneOpening_grow (g : FaceGraph) {m : Nat} (hp : p < m) : OneOpening g p (grow g m) := by
  rw [grow_eq_foldl_range]
  exact oneOpening_foldl g (Nat.le_refl m) p hp

/-! ### Components -/

/-- The links inside part `p`. -/
abbrev inside {V : Type} (G : SimpleGraph V) (part : V → Nat) (p : Nat) :
    SimpleGraph {e | part e = p} :=
  G.induce {e | part e = p}

/-- An element of the component has a neighbour in a higher part. -/
def OpensUpward {V : Type} (G : SimpleGraph V) (part : V → Nat) (p : Nat)
    (c : (inside G part p).ConnectedComponent) : Prop :=
  ∃ e ∈ c.supp, ∃ u, G.Adj e u ∧ p < part u

theorem Joined.part (h : Joined g s p root e) : s.parts.get? e = some p := by
  rcases h.2.cases_tail with rfl | ⟨v, -, hlink⟩
  · exact h.1
  · exact hlink.2

section Components

variable (hg : g.Undirected) (hs : Complete g.size s) {part : Fin g.size → Nat}
  (hpart : ∀ e : Fin g.size, s.parts.get? e = some (part e))

include hs hpart

theorem exists_inside (hu : s.parts.get? u = some p) :
    ∃ x : {e | part e = p}, x.1.1 = u := by
  have hlt : u < g.size := hs.below u (IdMap.mem_keys_iff.2 ⟨p, hu⟩)
  exact ⟨⟨⟨u, hlt⟩, Option.some.inj ((hpart ⟨u, hlt⟩).symm.trans hu)⟩, rfl⟩

theorem Joined.reachable (h : Joined g s p root e) {x y : {e | part e = p}} (hx : x.1.1 = root)
    (hy : y.1.1 = e) : (inside hg.graph part p).Reachable x y := by
  obtain ⟨hroot, hpath⟩ := h
  induction hpath generalizing y with
  | refl =>
    obtain rfl : x = y := Subtype.ext (Fin.ext (hx.trans hy.symm))
    exact .refl x
  | @tail v u hpath hlink ih =>
    have hv : Joined g s p root v := ⟨hroot, hpath⟩
    obtain ⟨z, rfl⟩ := exists_inside hs hpart hv.part
    have hadj : (inside hg.graph part p).Adj z y := by
      change y.1.1 ∈ g.neighbours z.1
      rw [hy]
      exact hlink.1
    exact (ih rfl).trans hadj.reachable

theorem OneOpening.subsingleton (h : OneOpening g p s) :
    {c | OpensUpward hg.graph part p c}.Subsingleton := by
  obtain ⟨root, hroot⟩ := h
  have hjoined {c} (hc : OpensUpward hg.graph part p c) : ∃ e ∈ c.supp, Joined g s p root e.1 := by
    obtain ⟨e, he, u, hu, hup⟩ := hc
    have hbeyond : Beyond s p u := .inr ⟨part u, hpart u, hup⟩
    have hown : s.parts.get? e.1 = some p := (hpart e.1).trans (congrArg some e.2)
    exact ⟨e, he, hroot e.1 hown u hu hbeyond⟩
  intro c hc d hd
  obtain ⟨e, rfl, he⟩ := hjoined hc
  obtain ⟨e', rfl, he'⟩ := hjoined hd
  obtain ⟨x, hx⟩ := exists_inside hs hpart he.1
  have hreach := he.reachable hg hs hpart hx rfl
  have hreach' := he'.reachable hg hs hpart hx rfl
  exact SimpleGraph.ConnectedComponent.sound (hreach.symm.trans hreach')

end Components

/-- Of every part, at most one component has neighbours in higher parts; all neighbours of any other
component, outside the part, are in lower ones. -/
theorem parts_open_upward_in_one_component {m : Nat} (hm : 0 < m) :
    (∀ ids g, FaceGraph.ofFlat ids = .ok g → g.Undirected) ∧
      ∀ g (hg : FaceGraph.Undirected g), ∃ part : Fin g.size → Nat,
        (∀ e : Fin g.size, (grow g m).parts.get? e = some (part e) ∧ part e < m) ∧
          ∀ p, {c | OpensUpward hg.graph part p c}.Subsingleton ∧
            ∀ c, ¬ OpensUpward hg.graph part p c →
              ∀ e ∈ c.supp, ∀ u, hg.graph.Adj e u → part u ≠ p → part u < p := by
  constructor
  · intro ids g hok
    unfold FaceGraph.ofFlat at hok
    split at hok
    · cases hok
    · obtain rfl := Except.ok.inj hok
      exact FaceGraph.undirected_ofTets _
  · intro g hg
    have hgrown := grown_grow g m
    have hall (e : Fin g.size) : ∃ q, (grow g m).parts.get? e = some q :=
      IdMap.mem_keys_iff.1 (mem_keys_grow g hm e.2)
    choose part hpart using hall
    refine ⟨part, fun e => ⟨hpart e, hgrown.lt_of_part (hpart e)⟩, fun p => ⟨?_, ?_⟩⟩
    · rcases Nat.lt_or_ge p m with hp | hp
      · exact (oneOpening_grow g hp).subsingleton hg hgrown.complete hpart
      · rintro c ⟨e, -, -⟩
        have hlt := hgrown.lt_of_part (hpart e.1)
        have hown : part e.1 = p := e.2
        omega
    · intro c hc e he u hu hne
      by_contra hge
      exact hc ⟨e, he, u, hu, by omega⟩

/-- An element by itself, and a row of three. -/
def islandAndRow : List Nat := [90, 91, 92, 93, 1, 2, 3, 4, 2, 3, 4, 5, 3, 4, 5, 6]

/-- The first part holds the island and the first of the row, and opens at the latter alone. -/
theorem island_and_row_open_once :
    0 < 2 ∧ ∃ g, ∃ hg : FaceGraph.Undirected g, FaceGraph.ofFlat islandAndRow = .ok g ∧
      ∃ part : Fin g.size → Nat, (∀ e : Fin g.size, (grow g 2).parts.get? e = some (part e)) ∧
        ∃ c, {c | OpensUpward hg.graph part 0 c} = {c} := by
  obtain ⟨hundirected, hopen⟩ := parts_open_upward_in_one_component Nat.two_pos
  have hg := hundirected islandAndRow _ rfl
  refine ⟨Nat.two_pos, _, hg, rfl, ?_⟩
  have hsize : (FaceGraph.ofTets (Tet.ofFlat islandAndRow)).size = 4 := by decide
  have hlink : 2 ∈ (FaceGraph.ofTets (Tet.ofFlat islandAndRow)).neighbours 1 := by decide
  have hfirst : (grow (FaceGraph.ofTets (Tet.ofFlat islandAndRow)) 2).parts.get? 1 = some 0 := by
    cbv
  have hsecond : (grow (FaceGraph.ofTets (Tet.ofFlat islandAndRow)) 2).parts.get? 2 = some 1 := by
    cbv
  generalize FaceGraph.ofTets (Tet.ofFlat islandAndRow) = g at *
  obtain ⟨part, hpart, hparts⟩ := hopen g hg
  refine ⟨part, fun e => (hpart e).1, ?_⟩
  have hfirst : part ⟨1, by omega⟩ = 0 := Option.some.inj ((hpart ⟨1, _⟩).1.symm.trans hfirst)
  have hsecond : part ⟨2, by omega⟩ = 1 := Option.some.inj ((hpart ⟨2, _⟩).1.symm.trans hsecond)
  refine ⟨SimpleGraph.connectedComponentMk _ ⟨⟨1, _⟩, hfirst⟩, ?_⟩
  apply (hparts 0).1.eq_singleton_of_mem
  exact ⟨_, rfl, ⟨2, _⟩, hlink, by rw [hsecond]; exact Nat.one_pos⟩

end MeshDecomp.Growth
