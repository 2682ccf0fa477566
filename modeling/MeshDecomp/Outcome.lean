/-!
What a call leaves behind: a state, and a result or an error. A call that fails keeps what it did
to the state before.
-/

namespace MeshDecomp

structure Outcome (σ : Type u) (ε : Type v) (α : Type w) where
  state : σ
  result : Except ε α

namespace Outcome

def ok (s : σ) (a : α) : Outcome σ ε α := ⟨s, .ok a⟩

def fail (s : σ) (e : ε) : Outcome σ ε α := ⟨s, .error e⟩

/-- Goes on from the state and the result, unless the call failed. -/
def bind (o : Outcome σ ε α) (f : σ → α → Outcome σ ε β) : Outcome σ ε β :=
  match o.result with
  | .ok a => f o.state a
  | .error e => ⟨o.state, .error e⟩

def map (f : α → β) (o : Outcome σ ε α) : Outcome σ ε β := ⟨o.state, o.result.map f⟩

def mapError (f : ε → ε') (o : Outcome σ ε α) : Outcome σ ε' α := ⟨o.state, o.result.mapError f⟩

def mapState (f : σ → τ) (o : Outcome σ ε α) : Outcome τ ε α := ⟨f o.state, o.result⟩

/-- Puts the results of a second call behind those of the first. -/
def append (o : Outcome σ ε (List α)) (f : σ → Outcome σ ε (List α)) : Outcome σ ε (List α) :=
  o.bind fun s as => (f s).map (as ++ ·)

@[simp] theorem bind_ok (s : σ) (a : α) (f : σ → α → Outcome σ ε β) : (ok s a).bind f = f s a := rfl

@[simp] theorem bind_fail (s : σ) (e : ε) (f : σ → α → Outcome σ ε β) :
    (fail s e).bind f = fail s e := rfl

@[simp] theorem state_ok (s : σ) (a : α) : (ok s a : Outcome σ ε α).state = s := rfl

@[simp] theorem result_ok (s : σ) (a : α) : (ok s a : Outcome σ ε α).result = .ok a := rfl

@[simp] theorem state_fail (s : σ) (e : ε) : (fail s e : Outcome σ ε α).state = s := rfl

@[simp] theorem result_fail (s : σ) (e : ε) : (fail s e : Outcome σ ε α).result = .error e := rfl

@[simp] theorem state_map (f : α → β) (o : Outcome σ ε α) : (o.map f).state = o.state := rfl

@[simp] theorem state_mapError (f : ε → ε') (o : Outcome σ ε α) :
    (o.mapError f).state = o.state := rfl

@[simp] theorem result_map (f : α → β) (o : Outcome σ ε α) :
    (o.map f).result = o.result.map f := rfl

@[simp] theorem map_ok (f : α → β) (s : σ) (a : α) :
    (ok s a : Outcome σ ε α).map f = ok s (f a) := rfl

@[simp] theorem map_fail (f : α → β) (s : σ) (e : ε) : (fail s e).map f = fail s e := rfl

@[simp] theorem mapState_ok (f : σ → τ) (s : σ) (a : α) :
    (ok s a : Outcome σ ε α).mapState f = ok (f s) a := rfl

@[simp] theorem mapState_fail (f : σ → τ) (s : σ) (e : ε) :
    (fail s e : Outcome σ ε α).mapState f = fail (f s) e := rfl

@[simp] theorem mapError_ok (f : ε → ε') (s : σ) (a : α) :
    (ok s a : Outcome σ ε α).mapError f = ok s a := rfl

@[simp] theorem mapError_fail (f : ε → ε') (s : σ) (e : ε) :
    (fail s e : Outcome σ ε α).mapError f = fail s (f e) := rfl

@[simp] theorem append_ok (s : σ) (as : List α) (f : σ → Outcome σ ε (List α)) :
    (ok s as).append f = (f s).map (as ++ ·) := rfl

@[simp] theorem append_fail (s : σ) (e : ε) (f : σ → Outcome σ ε (List α)) :
    (fail s e).append f = fail s e := rfl

end Outcome

end MeshDecomp
