-- Calls of a language with exceptions and destructors. A call changes a state
-- and returns, throws, or has no defined meaning; a state that an exception
-- leaves behind is kept.

namespace Calls

/-- How a call ends. -/
inductive Outcome (σ ε φ α : Type) where
  | returned (value : α) (state : σ)
  | thrown (exception : ε) (state : σ)
  | undefined (fault : φ)

def Call (σ ε φ α : Type) : Type := σ → Outcome σ ε φ α

variable {σ ε φ α β : Type}

instance : Monad (Call σ ε φ) where
  pure a := fun s => .returned a s
  bind m f := fun s =>
    match m s with
    | .returned a s' => f a s'
    | .thrown e s' => .thrown e s'
    | .undefined u => .undefined u

def raise (e : ε) : Call σ ε φ α := fun s => .thrown e s

def undefined (u : φ) : Call σ ε φ α := fun _ => .undefined u

/-- A scope whose end runs a destructor, also when an exception leaves it. -/
def inScope (body : Call σ ε φ α) (destructor : σ → Except φ σ) : Call σ ε φ α := fun s =>
  match body s with
  | .returned a s' =>
    match destructor s' with
    | .ok s'' => .returned a s''
    | .error u => .undefined u
  | .thrown e s' =>
    match destructor s' with
    | .ok s'' => .thrown e s''
    | .error u => .undefined u
  | .undefined u => .undefined u

/-- A function that no exception may leave. -/
def nothrow (body : Call σ ε φ α) (u : φ) : Call σ ε φ α := fun s =>
  match body s with
  | .thrown _ _ => .undefined u
  | o => o

@[simp] theorem pure_run (a : α) (s : σ) : (pure a : Call σ ε φ α) s = .returned a s := rfl

theorem bind_returned {m : Call σ ε φ α} {f : α → Call σ ε φ β} {s s' : σ} {a : α}
    (h : m s = .returned a s') : (m >>= f) s = f a s' := by
  simp [bind, h]

theorem bind_thrown {m : Call σ ε φ α} {f : α → Call σ ε φ β} {s s' : σ} {e : ε}
    (h : m s = .thrown e s') : (m >>= f) s = .thrown e s' := by
  simp [bind, h]

theorem inScope_returned {body : Call σ ε φ α} {d : σ → Except φ σ} {s s' s'' : σ} {a : α}
    (h : body s = .returned a s') (hd : d s' = .ok s'') : inScope body d s = .returned a s'' := by
  simp [inScope, h, hd]

theorem inScope_thrown {body : Call σ ε φ α} {d : σ → Except φ σ} {s s' s'' : σ} {e : ε}
    (h : body s = .thrown e s') (hd : d s' = .ok s'') : inScope body d s = .thrown e s'' := by
  simp [inScope, h, hd]

theorem nothrow_returned {body : Call σ ε φ α} {u : φ} {s s' : σ} {a : α}
    (h : body s = .returned a s') : nothrow body u s = .returned a s' := by
  simp [nothrow, h]

/-! ## Two runs of one call -/

/-- Two outcomes that differ in the state only, and there by the relation. -/
inductive Outcome.Rel (R : σ → σ → Prop) : Outcome σ ε φ α → Outcome σ ε φ α → Prop
  | returned (a : α) {s t : σ} (h : R s t) : Rel R (.returned a s) (.returned a t)
  | thrown (e : ε) {s t : σ} (h : R s t) : Rel R (.thrown e s) (.thrown e t)
  | undefined (u : φ) : Rel R (.undefined u) (.undefined u)

/-- Two results that are the same fault, or related values. -/
inductive ExceptRel (R : α → α → Prop) : Except φ α → Except φ α → Prop
  | ok {a b : α} (h : R a b) : ExceptRel R (.ok a) (.ok b)
  | error (u : φ) : ExceptRel R (.error u) (.error u)

namespace ExceptRel

theorem of_eq (x : Except φ α) : ExceptRel (fun a b => b = a) x x := by
  cases x with
  | ok a => exact .ok rfl
  | error u => exact .error u

theorem bind {R : α → α → Prop} {Q : β → β → Prop} {x y : Except φ α} {f g : α → Except φ β}
    (h : ExceptRel R x y) (hf : ∀ a b, R a b → ExceptRel Q (f a) (g b)) :
    ExceptRel Q (x >>= f) (y >>= g) := by
  cases h with
  | ok h => exact hf _ _ h
  | error u => exact .error u

theorem mapError {R : α → α → Prop} {x y : Except φ α} (f : φ → ε) (h : ExceptRel R x y) :
    ExceptRel R (x.mapError f) (y.mapError f) := by
  cases h with
  | ok h => exact .ok h
  | error u => exact .error _

end ExceptRel

/-- The call does the same in two states that are related. -/
def Respects (R : σ → σ → Prop) (m : Call σ ε φ α) : Prop :=
  ∀ s t, R s t → (m s).Rel R (m t)

namespace Respects

variable {R : σ → σ → Prop}

theorem pure (a : α) : Respects R (Pure.pure a : Call σ ε φ α) := fun _ _ h => .returned a h

theorem raise (e : ε) : Respects R (Calls.raise e : Call σ ε φ α) := fun _ _ h => .thrown e h

theorem undefined (u : φ) : Respects R (Calls.undefined u : Call σ ε φ α) :=
  fun _ _ _ => .undefined u

theorem bind {m : Call σ ε φ α} {f : α → Call σ ε φ β} (hm : Respects R m)
    (hf : ∀ a, Respects R (f a)) : Respects R (m >>= f) := by
  intro s t h
  have := hm s t h
  simp only [Bind.bind]
  generalize m s = o1 at this ⊢
  generalize m t = o2 at this ⊢
  cases this with
  | returned a h => exact hf a _ _ h
  | thrown e h => exact .thrown e h
  | undefined u => exact .undefined u

theorem inScope {m : Call σ ε φ α} {d : σ → Except φ σ} (hm : Respects R m)
    (hd : ∀ s t, R s t → ExceptRel R (d s) (d t)) : Respects R (Calls.inScope m d) := by
  intro s t h
  have := hm s t h
  unfold Calls.inScope
  generalize m s = o1 at this ⊢
  generalize m t = o2 at this ⊢
  cases this with
  | @returned a s' t' h =>
    have := hd _ _ h
    simp only
    generalize d s' = e1 at this ⊢
    generalize d t' = e2 at this ⊢
    cases this with
    | ok h => exact .returned a h
    | error u => exact .undefined u
  | @thrown e s' t' h =>
    have := hd _ _ h
    simp only
    generalize d s' = e1 at this ⊢
    generalize d t' = e2 at this ⊢
    cases this with
    | ok h => exact .thrown e h
    | error u => exact .undefined u
  | undefined u => exact .undefined u

theorem nothrow {m : Call σ ε φ α} {u : φ} (hm : Respects R m) :
    Respects R (Calls.nothrow m u) := by
  intro s t h
  have := hm s t h
  unfold Calls.nothrow
  generalize m s = o1 at this ⊢
  generalize m t = o2 at this ⊢
  cases this with
  | returned a h => exact .returned a h
  | thrown e h => exact .undefined u
  | undefined u => exact .undefined u

end Respects

/-! ## Rules of pre- and postconditions -/

/-- From a state with `P` the call returns a value and a state with `Q`, or
throws in a state with `E`, or has no defined meaning. -/
def Triple (P : σ → Prop) (m : Call σ ε φ α) (Q : α → σ → Prop) (E : σ → Prop) : Prop :=
  ∀ s, P s →
    match m s with
    | .returned a s' => Q a s'
    | .thrown _ s' => E s'
    | .undefined _ => True

/-- The call keeps `P`, however it ends. -/
abbrev Keeps (P : σ → Prop) (m : Call σ ε φ α) : Prop := Triple P m (fun _ => P) P

namespace Triple

variable {P : σ → Prop} {Q : α → σ → Prop} {E : σ → Prop}

theorem pure {a : α} (h : ∀ s, P s → Q a s) : Triple P (Pure.pure a : Call σ ε φ α) Q E := h

theorem raise {e : ε} (h : ∀ s, P s → E s) : Triple P (Calls.raise e : Call σ ε φ α) Q E := h

theorem undefined (u : φ) : Triple P (Calls.undefined u : Call σ ε φ α) Q E := fun _ _ => trivial

theorem bind {R : β → σ → Prop} {m : Call σ ε φ α} {f : α → Call σ ε φ β} (hm : Triple P m Q E)
    (hf : ∀ a, Triple (Q a) (f a) R E) : Triple P (m >>= f) R E := by
  intro s hs
  have h := hm s hs
  simp only [Bind.bind]
  generalize m s = o at h ⊢
  cases o with
  | returned a s' => exact hf a s' h
  | thrown e s' => exact h
  | undefined u => trivial

/-- The destructor runs on both ways out of the scope. -/
theorem inScope {Q' : α → σ → Prop} {E' : σ → Prop} {m : Call σ ε φ α} {d : σ → Except φ σ}
    (hm : Triple P m Q E) (hd : ∀ a s s', Q a s → d s = .ok s' → Q' a s')
    (he : ∀ s s', E s → d s = .ok s' → E' s') : Triple P (Calls.inScope m d) Q' E' := by
  intro s hs
  have h := hm s hs
  unfold Calls.inScope
  generalize m s = o at h ⊢
  cases o with
  | returned a s' =>
    simp only
    cases hds : d s' with
    | ok s'' => exact hd a s' s'' h hds
    | error u => trivial
  | thrown e s' =>
    simp only
    cases hds : d s' with
    | ok s'' => exact he s' s'' h hds
    | error u => trivial
  | undefined u => trivial

theorem nothrow {m : Call σ ε φ α} {u : φ} (hm : Triple P m Q E) (E' : σ → Prop) :
    Triple P (Calls.nothrow m u) Q E' := by
  intro s hs
  have h := hm s hs
  unfold Calls.nothrow
  generalize m s = o at h ⊢
  cases o with
  | returned a s' => exact h
  | thrown e s' => trivial
  | undefined u => trivial

theorem returned {m : Call σ ε φ α} {s s' : σ} {a : α} (hm : Triple P m Q E) (hs : P s)
    (h : m s = .returned a s') : Q a s' := by
  have := hm s hs
  rw [h] at this
  exact this

theorem thrown {m : Call σ ε φ α} {s s' : σ} {e : ε} (hm : Triple P m Q E) (hs : P s)
    (h : m s = .thrown e s') : E s' := by
  have := hm s hs
  rw [h] at this
  exact this

end Triple

end Calls
