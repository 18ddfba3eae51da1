import Nipa.Support.Checks

/-!
# Computations that fail and keep their state

A program that stops with an error has already done what came before.  An
attempt is a computation on a state that ends with a value or an error and
leaves a state either way.  What every step of an attempt keeps, the attempt
keeps, whether it fails or not.
-/

namespace Nipa.Support

/-- A computation on `σ` that can fail with `ε`. -/
def Attempt (σ ε α : Type) : Type :=
  σ → Except ε α × σ

namespace Attempt

variable {σ τ ε α β : Type}

def run (x : Attempt σ ε α) (s : σ) : Except ε α × σ :=
  x s

instance : Monad (Attempt σ ε) where
  pure a := fun s => (.ok a, s)
  bind x f := fun s =>
    match x s with
    | (.ok a, s') => f a s'
    | (.error e, s') => (.error e, s')

/-- A step that does not look at the state. -/
def lift (x : Except ε α) : Attempt σ ε α :=
  fun s => (x, s)

def get : Attempt σ ε σ :=
  fun s => (.ok s, s)

def modify (f : σ → σ) : Attempt σ ε Unit :=
  fun s => (.ok (), f s)

/-- Carry on with the outcome, whether the computation fails or not. -/
def settle (x : Attempt σ ε α) : Attempt σ ε (Except ε α) :=
  fun s => (.ok (x s).1, (x s).2)

/-! ## Runs that succeed -/

variable {x : Attempt σ ε α} {f : α → Attempt σ ε β}

theorem run_bind_of_ok {s s' : σ} {a : α} (h : x.run s = (.ok a, s')) :
    (x >>= f).run s = (f a).run s' := by
  change (match x.run s with
    | (.ok a, s') => (f a).run s'
    | (.error e, s') => (.error e, s')) = _
  rw [h]

theorem run_bind_of_error {s s' : σ} {e : ε} (h : x.run s = (.error e, s')) :
    (x >>= f).run s = (.error e, s') := by
  change (match x.run s with
    | (.ok a, s') => (f a).run s'
    | (.error e, s') => (.error e, s')) = _
  rw [h]

theorem exists_ok_of_toOption {s : σ} (h : (x.run s).1.toOption.isSome = true) :
    ∃ a s', x.run s = (.ok a, s') := by
  rcases hx : x.run s with ⟨e | a, s'⟩
  · rw [hx] at h
    cases h
  · exact ⟨a, s', rfl⟩

/-! ## What an attempt keeps -/

/-- However the attempt ends, `π` of the state is as before. -/
def Keeps (π : σ → τ) (x : Attempt σ ε α) : Prop :=
  ∀ s, π (x.run s).2 = π s

variable {π : σ → τ}

theorem Keeps.pure (a : α) : Keeps π (Pure.pure a : Attempt σ ε α) := fun _ => rfl

theorem Keeps.lift (x : Except ε α) : Keeps π (Attempt.lift x : Attempt σ ε α) := fun _ => rfl

theorem Keeps.get : Keeps π (Attempt.get : Attempt σ ε σ) := fun _ => rfl

theorem Keeps.modify {f : σ → σ} (h : ∀ s, π (f s) = π s) :
    Keeps π (Attempt.modify f : Attempt σ ε Unit) := h

theorem Keeps.bind (hx : Keeps π x) (hf : ∀ a, Keeps π (f a)) : Keeps π (x >>= f) := by
  intro s
  have hfirst := hx s
  change π (match x.run s with
    | (.ok a, s') => (f a).run s'
    | (.error e, s') => (.error e, s')).2 = π s
  rcases hrun : x.run s with ⟨_ | a, s'⟩
  · rwa [hrun] at hfirst
  · rw [hrun] at hfirst
    exact (hf a s').trans hfirst

theorem Keeps.ite {p : Prop} [Decidable p] {y : Attempt σ ε α} (hx : Keeps π x) (hy : Keeps π y) :
    Keeps π (if p then x else y) := by
  split
  · exact hx
  · exact hy

theorem Keeps.foldlM {f : β → α → Attempt σ ε β} (hf : ∀ b a, Keeps π (f b a)) (l : List α)
    (b : β) : Keeps π (l.foldlM f b) := by
  induction l generalizing b with
  | nil => exact Keeps.pure b
  | cons a l ih =>
      rw [List.foldlM_cons]
      exact Keeps.bind (hf b a) fun b' => ih b'

/-! ## Outcomes -/

/-- The value and the state an attempt succeeds with, or its error.  This is what is
left of an attempt that is undone when it fails. -/
def outcome (x : Attempt σ ε α) (s : σ) : Except ε (α × σ) :=
  (x.run s).1.map fun a => (a, (x.run s).2)

@[simp] theorem outcome_pure (a : α) (s : σ) :
    (pure a : Attempt σ ε α).outcome s = .ok (a, s) := rfl

@[simp] theorem outcome_lift (x : Except ε α) (s : σ) :
    (lift x : Attempt σ ε α).outcome s = x.map fun a => (a, s) := rfl

@[simp] theorem outcome_get (s : σ) : (get : Attempt σ ε σ).outcome s = .ok (s, s) := rfl

@[simp] theorem outcome_modify (f : σ → σ) (s : σ) :
    (modify f : Attempt σ ε Unit).outcome s = .ok ((), f s) := rfl

theorem outcome_bind (x : Attempt σ ε α) (f : α → Attempt σ ε β) (s : σ) :
    (x >>= f).outcome s = x.outcome s >>= fun r => (f r.1).outcome r.2 := by
  have hrun : (x >>= f).run s = match x.run s with
    | (.ok a, s') => (f a).run s'
    | (.error e, s') => (.error e, s') := rfl
  rw [outcome, outcome, hrun]
  cases x.run s with
  | mk r s' =>
      cases r with
      | error e => rfl
      | ok a => rfl

end Attempt

end Nipa.Support
