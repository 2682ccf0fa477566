import MeshDecomp.Rank.Universe
import Mathlib.Data.List.Basic

/-!
What ranks post. A message of a rank to itself goes to the end of its own queue, any other message
to the end of the mailbox of its receiver.
-/

namespace MeshDecomp

namespace Parcel

/-- The rank that handles a message; the host is with rank zero. -/
def addressee (p : Parcel) : Nat :=
  match p.target with
  | .pe rank => rank
  | .host => Rank.hostRank

/-- A message as it waits in the queue of its sender. -/
def entry (p : Parcel) : Nat × Envelope := (p.sender, p.content)

/-- A message as it waits in a mailbox. -/
def mail (p : Parcel) : Nat × Bytes := (p.sender, Wire.encode p.sender p.content)

end Parcel

namespace Mailboxes

/-- Mailboxes by rank. -/
def of (size : Nat) (box : Nat → List (Nat × Bytes)) : Mailboxes := (List.range size).map box

variable {size rank : Nat} {box : Nat → List (Nat × Bytes)} {x : Nat × Bytes}
  {l : List (Nat × Bytes)}

theorem empty_eq (size : Nat) : empty size = of size fun _ => [] := by
  simp [empty, of]

theorem of_congr {box' : Nat → List (Nat × Bytes)} (h : ∀ q < size, box q = box' q) :
    of size box = of size box' :=
  List.map_congr_left fun q hq => h q (List.mem_range.1 hq)

theorem put_of (q : Nat) (x : Nat × Bytes) :
    (of size box).put q x = of size fun p => if p = q then box p ++ [x] else box p := by
  apply List.ext_getElem
  · simp [put, of]
  · intro p hp _
    by_cases hq : q = p
    · simp [put, of, hq]
    · simp [put, of, hq, Ne.symm hq]

theorem take_of_nil (h : rank < size) (hb : box rank = []) : (of size box).take rank = none := by
  simp [take, of, h, hb]

theorem take_of_cons (h : rank < size) (hb : box rank = x :: l) :
    (of size box).take rank = some (x, of size fun p => if p = rank then l else box p) := by
  have hset : ((List.range size).map box).set rank l =
      of size fun p => if p = rank then l else box p := by
    apply List.ext_getElem
    · simp [of]
    · intro p hp _
      rw [List.getElem_set]
      by_cases hq : rank = p
      · simp [of, hq]
      · simp [of, hq, Ne.symm hq]
  simp [take, of, h, hb, hset]

/-- The mailboxes once a rank has posted some messages. -/
def posted (rank : Nat) (ps : List Parcel) (box : Nat → List (Nat × Bytes)) :
    Nat → List (Nat × Bytes) := fun q =>
  if q = rank then box q else box q ++ (ps.filter fun p => p.addressee = q).map Parcel.mail

theorem posted_nil : posted rank [] box = box := by
  funext q
  simp [posted]

theorem posted_append (ps qs : List Parcel) :
    posted rank qs (posted rank ps box) = posted rank (ps ++ qs) box := by
  funext q
  unfold posted
  split <;> simp

/-- One message more in each of some mailboxes. -/
theorem foldl_put {f : Mailboxes → Nat → Mailboxes}
    (hf : ∀ box, ∀ q < size, f (of size box) q =
      of size fun p => if p = q then box p ++ [x] else box p)
    {ranks : List Nat} (hnd : ranks.Nodup) (hlt : ∀ q ∈ ranks, q < size)
    (box : Nat → List (Nat × Bytes)) :
    ranks.foldl f (of size box) = of size fun q => if q ∈ ranks then box q ++ [x] else box q := by
  induction ranks generalizing box with
  | nil => simp
  | cons q ranks ih =>
    obtain ⟨hq, hnd⟩ := List.nodup_cons.1 hnd
    obtain ⟨hlq, hlt⟩ := List.forall_mem_cons.1 hlt
    rw [List.foldl_cons, hf box q hlq, ih hnd hlt]
    apply of_congr
    intro p _
    by_cases hp : p = q
    · simp [hp, hq]
    · simp [hp]

end Mailboxes

namespace Rank

/-- A rank that has posted some messages. -/
def posted (rank : Nat) (ps : List Parcel) (r : Rank) : Rank :=
  { r with own := r.own ++ (ps.filter fun p => p.addressee = rank).map Parcel.entry }

variable {size rank : Nat} {box : Nat → List (Nat × Bytes)} {r : Rank} {p : Parcel}
  {ps : List Parcel}

theorem posted_nil : r.posted rank [] = r := by
  simp [posted]

theorem posted_append (ps qs : List Parcel) :
    (r.posted rank ps).posted rank qs = r.posted rank (ps ++ qs) := by
  simp [posted]

theorem post_eq (hs : p.sender = rank) (hp : p.addressee < size) :
    post (.mailbox size rank) (r, .of size box) p.addressee p.content =
      .ok (r.posted rank [p], .of size (Mailboxes.posted rank [p] box)) () := by
  have hrank : (Link.mailbox size rank).rank = rank := rfl
  unfold post
  rw [hrank]
  by_cases h : p.addressee = rank
  · have hbox : Mailboxes.of size (Mailboxes.posted rank [p] box) = .of size box := by
      apply Mailboxes.of_congr
      intro q _
      by_cases hq : q = rank
      · simp [Mailboxes.posted, hq]
      · simp [Mailboxes.posted, h, Ne.symm hq]
    rw [if_pos h, hbox]
    simp [posted, h, Parcel.entry, hs]
  · have hbox : (Mailboxes.of size box).put p.addressee p.mail =
        .of size (Mailboxes.posted rank [p] box) := by
      rw [Mailboxes.put_of]
      apply Mailboxes.of_congr
      intro q _
      by_cases hq : q = p.addressee
      · simp [Mailboxes.posted, hq, h]
      · simp [Mailboxes.posted, hq, Ne.symm hq]
    have hsend : (Link.mailbox size rank).send (.of size box) p.addressee
        (Wire.encode rank p.content) = .ok (.of size (Mailboxes.posted rank [p] box)) := by
      rw [← hbox, Parcel.mail, hs]
      exact if_pos hp
    rw [if_neg h, hsend]
    simp [posted, h]

/-- Carried out in order, actions post their messages and hand out what they create. -/
theorem perform_eq {as : List Action} (hps : as.filterMap (Action.parcel? rank) = ps)
    (hlt : ∀ p ∈ ps, p.addressee < size) :
    perform (.mailbox size rank) (r, .of size box) as =
      .ok ({ r.posted rank ps with collector := as.foldl Action.collect r.collector },
        .of size (Mailboxes.posted rank ps box)) () := by
  induction as generalizing r box ps with
  | nil =>
    obtain rfl : [] = ps := hps
    rw [posted_nil, Mailboxes.posted_nil]
    rfl
  | cons a as ih =>
    have hpost : ∀ p, Action.parcel? rank a = some p → p.sender = rank →
        a.collect r.collector = r.collector →
        perform (.mailbox size rank) (r, .of size box) (a :: as) =
          ((post (.mailbox size rank) (r, .of size box) p.addressee p.content).bind
            fun s _ => perform (.mailbox size rank) s as) →
        perform (.mailbox size rank) (r, .of size box) (a :: as) =
          .ok ({ r.posted rank ps with
            collector := (a :: as).foldl Action.collect r.collector },
            .of size (Mailboxes.posted rank ps box)) () := by
      intro p hp hsender hcollect heq
      rw [List.filterMap_cons_some hp] at hps
      subst hps
      rw [heq, post_eq hsender (hlt p List.mem_cons_self), Outcome.bind_ok,
        ih rfl fun q hq => hlt q (List.mem_cons_of_mem _ hq), posted_append,
        Mailboxes.posted_append, List.foldl_cons, hcollect]
      rfl
    cases a with
    | send receiver m => exact hpost _ rfl rfl rfl rfl
    | contribute c => exact hpost _ rfl rfl rfl rfl
    | instantiate u =>
      rw [List.filterMap_cons_none rfl] at hps
      exact (ih (r := { r with collector := r.collector.addUnit u }) hps hlt).trans rfl
    | bounds pe s =>
      rw [List.filterMap_cons_none rfl] at hps
      exact (ih (r := { r with collector := r.collector.addBounds pe s }) hps hlt).trans rfl

theorem postAll_eq (hlt : ∀ p ∈ ps, p.addressee < size) (hs : ∀ p ∈ ps, p.sender = rank) :
    postAll (.mailbox size rank) (r, .of size box) (ps.map fun p => (p.addressee, p.content)) =
      .ok (r.posted rank ps, .of size (Mailboxes.posted rank ps box)) () := by
  induction ps generalizing r box with
  | nil =>
    rw [posted_nil, Mailboxes.posted_nil]
    rfl
  | cons p ps ih =>
    obtain ⟨hp, hlt⟩ := List.forall_mem_cons.1 hlt
    obtain ⟨hsp, hs⟩ := List.forall_mem_cons.1 hs
    rw [List.map_cons, postAll, post_eq hsp hp, Outcome.bind_ok, ih hlt hs, posted_append,
      Mailboxes.posted_append]
    rfl

/-- The last report of some directives. -/
def reportOf (report : Option Report) (ds : List Directive) : Option Report :=
  ds.foldl (fun report d => d.report?.or report) report

/-- Directives post the commands of the host. -/
theorem follow_eq {ds : List Directive} (hps : ds.flatMap (Directive.parcels size) = ps)
    (hlt : ∀ p ∈ ps, p.addressee < size) :
    follow (.mailbox size hostRank) (r, .of size box) ds =
      .ok ({ r.posted hostRank ps with report := reportOf r.report ds },
        .of size (Mailboxes.posted hostRank ps box)) () := by
  induction ds generalizing r box ps with
  | nil =>
    obtain rfl : [] = ps := hps
    rw [posted_nil, Mailboxes.posted_nil]
    rfl
  | cons d ds ih =>
    rw [List.flatMap_cons] at hps
    subst hps
    obtain ⟨hd, hds⟩ := List.forall_mem_append.1 hlt
    have hsender : ∀ p ∈ d.parcels size, p.sender = hostRank := by
      cases d <;> simp [Directive.parcels, hostRank]
    have hrest : follow (.mailbox size hostRank) (r.posted hostRank (d.parcels size),
        .of size (Mailboxes.posted hostRank (d.parcels size) box)) ds = _ := ih rfl hds
    rw [posted_append, Mailboxes.posted_append] at hrest
    unfold follow
    cases d with
    | broadcast c =>
      have hlist : ((Directive.broadcast c).parcels size).map (fun p => (p.addressee, p.content)) =
          (List.range size).map (·, .command c) := by
        simp [Directive.parcels, Parcel.addressee]
      have hpost : postAll (.mailbox size hostRank) (r, .of size box)
          ((List.range size).map (·, .command c)) = _ := hlist ▸ postAll_eq hd hsender
      exact (congrArg (Outcome.bind · _) hpost).trans hrest
    | tell pe c =>
      have hpost : post (.mailbox size hostRank) (r, .of size box) pe (.command c) = _ :=
        post_eq (hsender _ List.mem_cons_self) (hd _ List.mem_cons_self)
      exact (congrArg (Outcome.bind · _) hpost).trans hrest
    | finished report => exact ih (r := { r with report := some report }) rfl hds

/-- Everyone else is told of an error. -/
theorem abort_eq (e : RunError) :
    abort (.mailbox size rank) (.of size box) e = .of size fun q =>
      if q = rank then box q
      else box q ++ [(rank, Wire.encode rank (.abort e.isUser e.message))] := by
  have hrank : (Link.mailbox size rank).rank = rank := rfl
  have hlt : ∀ q ∈ (List.range size).filter (· ≠ rank), q < size := fun q hq =>
    List.mem_range.1 (List.mem_of_mem_filter hq)
  unfold abort
  rw [hrank]
  refine (Mailboxes.foldl_put (x := (rank, Wire.encode rank (.abort e.isUser e.message)))
    (fun box q hq => ?_) (List.nodup_range.filter _) hlt box).trans ?_
  · have hsend : (Link.mailbox size rank).send (.of size box) q
        (Wire.encode rank (.abort e.isUser e.message)) =
          .ok ((Mailboxes.of size box).put q
            (rank, Wire.encode rank (.abort e.isUser e.message))) := if_pos hq
    rw [hsend, ← Mailboxes.put_of]
  · apply Mailboxes.of_congr
    intro q hq
    by_cases h : q = rank <;> simp [h, hq]

end Rank
end MeshDecomp
