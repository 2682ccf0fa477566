import MeshDecomp.Proofs.Readers
import MeshDecomp.Proofs.Receipts

/-!
What the completions of a phase do depends neither on the books of the distribution nor on the
requests that wait. New ids and lower bounds, which may complete a phase, can therefore come before
or after a message that changes only those.
-/

namespace MeshDecomp
namespace Worker

/-- A processing element with other books and other requests waiting. -/
def withMail (f : Books → Books) (i : List (Nat × List Nat) → List (Nat × List Nat))
    (w : Worker) : Worker :=
  { w.withBooks (f w.books) with
    numbering := w.numbering.map fun n => { n with inbox := i n.inbox } }

variable {w u v : Worker} {f : Books → Books} {as bs : List Action}
  {i : List (Nat × List Nat) → List (Nat × List Nat)}

theorem withMail_withMail (f f' : Books → Books)
    (i i' : List (Nat × List Nat) → List (Nat × List Nat)) :
    (w.withMail f i).withMail f' i' = w.withMail (f' ∘ f) (i' ∘ i) := by
  obtain ⟨⟩ := w
  rename_i numbering _ _ _ _ _ _
  cases numbering <;> rfl

theorem withMail_id_right (f : Books → Books) : w.withMail f id = w.withBooks (f w.books) := by
  obtain ⟨⟩ := w
  rename_i numbering _ _ _ _ _ _
  cases numbering <;> rfl

theorem withMail_of_numbering {n : Numbering} (hn : w.numbering = some n) :
    w.withMail id i = { w with numbering := some { n with inbox := i n.inbox } } := by
  obtain ⟨⟩ := w
  obtain rfl := hn
  rfl

theorem tryBounds_withMail :
    (w.withMail f i).tryBounds = (w.tryBounds.1.withMail f i, w.tryBounds.2) := by
  obtain ⟨⟩ := w
  rename_i numbering _ _ _ lower upper _
  dsimp only [withMail, withBooks, tryBounds]
  cases lower <;> cases upper <;> cases numbering <;> try rfl
  rw [apply_ite Prod.fst]
  dsimp only [Option.map_some]
  split <;> rfl

theorem settleBounds_withMail :
    (w.withMail f i).settleBounds = w.settleBounds.mapState (withMail f i) := by
  unfold settleBounds
  rw [tryBounds_withMail]
  rfl

theorem checkReordered_withMail :
    (w.withMail f i).checkReordered = w.checkReordered.withMail f i := by
  have hcomplete : (w.withMail f i).numbering.any Numbering.complete =
      w.numbering.any Numbering.complete := by
    change (w.numbering.map _).any _ = _
    cases w.numbering <;> rfl
  unfold checkReordered
  rw [apply_ite (withMail f i), hcomplete]
  rfl

theorem findCentroids_withMail :
    (w.withMail f i).findCentroids = w.findCentroids.mapState (withMail f i) := by
  have hcentroids : (w.withMail f i).portion.centroids (w.withMail f i).reader =
      w.portion.centroids w.reader := rfl
  unfold findCentroids
  dsimp only
  rw [hcentroids]
  cases w.portion.centroids w.reader <;> rfl

theorem enterBounding_withMail :
    (w.withMail f i).enterBounding = w.enterBounding.mapState (withMail f i) := by
  cases hu : w.units with
  | none =>
    obtain ⟨⟩ := w
    obtain rfl := hu
    rfl
  | some units =>
    cases hn : w.numbering with
    | none =>
      obtain ⟨⟩ := w
      obtain rfl := hu
      obtain rfl := hn
      rfl
    | some n =>
      have hn' : (w.withMail f i).numbering = some { n with inbox := i n.inbox } :=
        congrArg (Option.map _) hn
      have hbuilt : (w.withMail f i).buildUnits { n with inbox := i n.inbox } units =
        w.buildUnits n units := rfl
      rw [enterBounding_eq hu hn, enterBounding_eq (w := w.withMail f i) hu hn', hbuilt]
      cases w.buildUnits n units with
      | error v => rfl
      | ok built =>
        dsimp only
        rw [← settleBounds_withMail, apply_ite (withMail f i), apply_ite (withMail f i)]
        rfl

theorem complete_withMail (p : Phase) :
    (w.withMail f i).complete p = (w.complete p).mapState (withMail f i) := by
  cases p with
  | reading =>
    unfold complete
    dsimp only
    rw [apply_ite (Outcome.mapState _), ← findCentroids_withMail]
    rfl
  | reordering => exact enterBounding_withMail
  | _ => rfl

theorem drain_withMail : (w.withMail f i).drain = w.drain.mapState (withMail f i) := by
  refine drain_mapState (g := withMail f i) (I := fun _ => True) (fun _ => rfl) ?_ trivial
  intro w p rest _ _
  exact ⟨complete_withMail (w := { w with completions := rest }) p, trivial⟩

theorem numbering_tryBounds (w : Worker) : w.tryBounds.1.numbering = w.numbering := by
  unfold tryBounds
  split
  · split <;> rfl
  · rfl

theorem numbering_complete (w : Worker) (p : Phase) :
    (w.complete p).state.numbering = w.numbering := by
  cases p with
  | reading =>
    unfold complete findCentroids
    dsimp only
    split
    · split <;> rfl
    · rfl
  | reordering =>
    unfold complete enterBounding settleBounds
    dsimp only
    split
    · rfl
    · rfl
    · split
      · rfl
      · rw [Outcome.state_ok, numbering_tryBounds]
        split
        · rfl
        · split <;> rfl
  | _ => rfl

theorem numbering_drain (w : Worker) : w.drain.state.numbering = w.numbering := by
  refine drain_induction (motive := fun w o => o.state.numbering = w.numbering) ?_ ?_ w
  · intro w _
    rfl
  · intro w p rest _ ih
    have hcomplete := numbering_complete { w with completions := rest } p
    generalize complete { w with completions := rest } p = o at *
    obtain ⟨s, e | out⟩ := o
    · exact hcomplete
    · exact ih.trans hcomplete

/-! ### Messages that may complete a phase -/

variable {r : Nat} {k : PeerMessage}

/-- Messages that may complete a phase. -/
def Completing : PeerMessage → Prop
  | .reply _ | .lower _ => True
  | _ => False

theorem settle_withMail (bound : Nat) :
    (settleBounds { w.withMail f i with lower := some bound }).append drain =
      ((settleBounds { w with lower := some bound }).append drain).mapState (withMail f i) := by
  have hsettle := settleBounds_withMail (w := { w with lower := some bound }) (f := f) (i := i)
  exact (congrArg (Outcome.append · drain) hsettle).trans
    (Outcome.mapState_append fun _ => drain_withMail)

/-- The books and the requests that wait make no difference to them. -/
theorem Receipt.withMail_eq (hk : Completing k) (h : w.Receipt r k v bs)
    (h' : (w.withMail f i).Receipt r k u as) : u = v.withMail f i ∧ as = bs := by
  cases h with
  | @numbers pairs n _ _ _ hn _ hdrain =>
    cases h' with
    | @numbers _ n' _ _ _ hn' _ hdrain' =>
      obtain rfl : { n with inbox := i n.inbox } = n' :=
        Option.some.inj ((congrArg (Option.map _) hn).symm.trans hn')
      change (checkReordered (withMail f i { w with numbering := some (n.taking pairs) })).drain = _
        at hdrain'
      rw [checkReordered_withMail, drain_withMail, hdrain] at hdrain'
      cases hdrain'
      exact ⟨rfl, rfl⟩
  | holds _ _ _ hp =>
    cases h' with
    | holds => exact ⟨rfl, rfl⟩
    | settles _ _ _ hp' => exact absurd (hp' ▸ hp : Phase.bounding < .bounding) (by decide)
  | settles _ _ _ hp hsettle =>
    cases h' with
    | holds _ _ _ hp' =>
      exact absurd (show Phase.bounding < .bounding from hp ▸ hp') (by decide)
    | settles _ _ _ _ hsettle' =>
      rw [settle_withMail, hsettle] at hsettle'
      cases hsettle'
      exact ⟨rfl, rfl⟩
  | _ => cases hk

/-- They leave the books alone. -/
theorem Receipt.books_eq (hk : Completing k) (h : w.Receipt r k v bs) : v.books = w.books := by
  cases h with
  | @numbers pairs n _ _ _ _ _ hdrain =>
    have hbooks :=
      (apart_drain (checkReordered { w with numbering := some (n.taking pairs) })).books
    rw [hdrain] at hbooks
    exact hbooks.trans
      (apart_checkReordered (w := { w with numbering := some (n.taking pairs) })).books
  | holds => rfl
  | @settles bound _ _ _ _ _ _ hsettle =>
    have hbooks := (apart_settleBounds (w := { w with lower := some bound })).append (apart_drain _)
    rw [hsettle] at hbooks
    exact hbooks.books
  | _ => cases hk

theorem numbering_checkReordered (w : Worker) : w.checkReordered.numbering = w.numbering := by
  unfold checkReordered
  split <;> rfl

/-- They tell new ids at most. -/
theorem Receipt.numbering_eq (hk : Completing k) (h : w.Receipt r k v bs) {n : Numbering}
    (hn : w.numbering = some n) :
    ∃ pairs, n.Fresh pairs ∧ v.numbering = some (n.taking pairs) := by
  cases h with
  | @numbers pairs n' _ _ _ hn' hfresh hdrain =>
    obtain rfl := Option.some.inj (hn.symm.trans hn')
    have hnumbering :=
      numbering_drain (checkReordered { w with numbering := some (n.taking pairs) })
    rw [hdrain, numbering_checkReordered] at hnumbering
    exact ⟨pairs, hfresh, hnumbering⟩
  | holds => exact ⟨[], ⟨List.nodup_nil, nofun⟩, hn⟩
  | @settles bound _ _ _ _ _ _ hsettle =>
    obtain ⟨s, out, more, hs, hdrain, -⟩ := Outcome.append_eq_ok hsettle
    have hnumbering := numbering_drain s
    cases hs
    rw [hdrain, numbering_tryBounds] at hnumbering
    exact ⟨[], ⟨List.nodup_nil, nofun⟩, hnumbering.trans hn⟩
  | _ => cases hk

end Worker
end MeshDecomp
