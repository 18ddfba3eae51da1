import Nipa.Support.Checks

/-!
# Programs that read and act

A program reads a state and acts on it, and what it has done stays when it fails
later.  A relation that every action keeps holds between the ends of a run, and a
program whose actions find their work done leaves the state as it was.
-/

namespace Nipa.Support

/-- A program over states `σ` with actions `κ` that can fail with `ε`. -/
inductive Program (σ κ ε α : Type) where
  | ret (a : α)
  | fail (e : ε)
  | read (k : σ → Program σ κ ε α)
  | act (c : κ) (k : Program σ κ ε α)

namespace Program

variable {σ κ ε α β : Type}

def bind : Program σ κ ε α → (α → Program σ κ ε β) → Program σ κ ε β
  | ret a, f => f a
  | fail e, _ => fail e
  | read k, f => read fun s => (k s).bind f
  | act c k, f => act c (k.bind f)

instance : Monad (Program σ κ ε) where
  pure := ret
  bind := bind

def get : Program σ κ ε σ :=
  read ret

/-- A step that neither reads nor acts. -/
def lift : Except ε α → Program σ κ ε α
  | .ok a => ret a
  | .error e => fail e

def perform (c : κ) : Program σ κ ε Unit :=
  act c (ret ())

/-! ## Runs -/

section Runs

variable (effect : κ → σ → Except ε σ)

/-- An action that fails has no effect and ends the program. -/
def exec : Program σ κ ε α → σ → Except ε α × σ
  | ret a, s => (.ok a, s)
  | fail e, s => (.error e, s)
  | read k, s => (k s).exec s
  | act c k, s =>
      match effect c s with
      | .ok s' => k.exec s'
      | .error e => (.error e, s)

variable {effect}

theorem exec_bind (p : Program σ κ ε α) (f : α → Program σ κ ε β) (s : σ) :
    (p >>= f).exec effect s =
      match p.exec effect s with
      | (.ok a, s') => (f a).exec effect s'
      | (.error e, s') => (.error e, s') := by
  change (p.bind f).exec effect s = _
  induction p generalizing s with
  | ret a => rfl
  | fail e => rfl
  | read k ih => exact ih s s
  | act c k ih =>
      rw [bind, exec, exec]
      cases effect c s with
      | error e => rfl
      | ok s' => exact ih s'

theorem exec_bind_eq_ok {p : Program σ κ ε α} {f : α → Program σ κ ε β} {s s'' : σ} {b : β} :
    (p >>= f).exec effect s = (.ok b, s'') ↔
      ∃ a s', p.exec effect s = (.ok a, s') ∧ (f a).exec effect s' = (.ok b, s'') := by
  rw [exec_bind]
  rcases p.exec effect s with ⟨_ | a, s'⟩
  · simp
  · simp

@[simp] theorem exec_pure (a : α) (s : σ) :
    (pure a : Program σ κ ε α).exec effect s = (.ok a, s) := rfl

@[simp] theorem exec_get (s : σ) :
    (get : Program σ κ ε σ).exec effect s = (.ok s, s) := rfl

@[simp] theorem exec_lift (x : Except ε α) (s : σ) :
    (lift x : Program σ κ ε α).exec effect s = (x, s) := by
  cases x with
  | error e => rfl
  | ok a => rfl

theorem exec_related {R : σ → σ → Prop} (hrefl : ∀ s, R s s)
    (htrans : ∀ s s' s'', R s s' → R s' s'' → R s s'')
    (hact : ∀ c s s', effect c s = .ok s' → R s s') (p : Program σ κ ε α) (s : σ) :
    R s (p.exec effect s).2 := by
  induction p generalizing s with
  | ret a => exact hrefl s
  | fail e => exact hrefl s
  | read k ih => exact ih s s
  | act c k ih =>
      rw [exec]
      cases hc : effect c s with
      | error e => exact hrefl s
      | ok s' => exact htrans s s' _ (hact c s s' hc) (ih s')

end Runs

/-! ## Runs that change nothing -/

variable {effect : κ → σ → Except ε σ}

/-- The program leaves the state as it is, and what it returns has the property. -/
structure Stays (effect : κ → σ → Except ε σ) (s : σ) (Q : α → Prop)
    (p : Program σ κ ε α) : Prop where
  state_eq : (p.exec effect s).2 = s
  returns : ∀ a, (p.exec effect s).1 = .ok a → Q a

namespace Stays

variable {s : σ} {Q : α → Prop} {R : β → Prop}

theorem pure {a : α} (h : Q a) : Stays effect s Q (pure a) where
  state_eq := rfl
  returns := by
    rintro _ ⟨⟩
    exact h

theorem lift {x : Except ε α} (h : ∀ a, x = .ok a → Q a) :
    Stays effect s Q (lift x : Program σ κ ε α) := by
  constructor
  · rw [exec_lift]
  · rwa [exec_lift]

theorem perform {c : κ} (h : ∀ s', effect c s = .ok s' → s' = s) :
    Stays effect s (fun _ => True) (perform c) := by
  refine ⟨?_, fun _ _ => trivial⟩
  rw [Program.perform, exec]
  cases hc : effect c s with
  | error e => rfl
  | ok s' => exact h s' hc

theorem bind {p : Program σ κ ε α} {f : α → Program σ κ ε β} (hp : Stays effect s Q p)
    (hf : ∀ a, Q a → Stays effect s R (f a)) : Stays effect s R (p >>= f) := by
  obtain ⟨hstate, hreturns⟩ := hp
  rcases hrun : p.exec effect s with ⟨e | a, s'⟩
  all_goals
    rw [hrun] at hstate hreturns
    have hs : s' = s := hstate
    rw [hs] at hrun
  · constructor
    · rw [exec_bind, hrun]
    · intro b hb
      rw [exec_bind, hrun] at hb
      cases hb
  · obtain ⟨hstate', hreturns'⟩ := hf a (hreturns a rfl)
    constructor
    · rwa [exec_bind, hrun]
    · rwa [exec_bind, hrun]

theorem get_bind {f : σ → Program σ κ ε β} (h : Stays effect s R (f s)) :
    Stays effect s R (Program.get >>= f) := by
  constructor
  · exact h.state_eq
  · exact h.returns

theorem lift_bind {x : Except ε α} {f : α → Program σ κ ε β}
    (h : ∀ a, x = .ok a → Stays effect s R (f a)) :
    Stays effect s R (Program.lift x >>= f) :=
  (lift fun _ ha => ha).bind h

theorem imp {Q' : α → Prop} {p : Program σ κ ε α} (h : Stays effect s Q p)
    (himp : ∀ a, Q a → Q' a) : Stays effect s Q' p :=
  ⟨h.state_eq, fun a ha => himp a (h.returns a ha)⟩

theorem forM {γ : Type} {f : γ → Program σ κ ε Unit} {l : List γ}
    (h : ∀ a ∈ l, Stays effect s (fun _ => True) (f a)) :
    Stays effect s (fun _ => True) (l.forM f) := by
  induction l with
  | nil => exact Stays.pure trivial
  | cons a l ih =>
      refine (h a List.mem_cons_self).bind ?_
      intro _ _
      exact ih fun b hb => h b (List.mem_cons_of_mem _ hb)

theorem foldlM {γ τ : Type} {f : β → γ → Program σ κ ε β} {g : τ → γ → Except ε τ} {φ : β → τ}
    {l : List γ} (h : ∀ a ∈ l, ∀ b, Stays effect s (fun b' => g (φ b) a = .ok (φ b')) (f b a))
    (b : β) : Stays effect s (fun b' => l.foldlM g (φ b) = .ok (φ b')) (l.foldlM f b) := by
  induction l generalizing b with
  | nil => exact Stays.pure rfl
  | cons a l ih =>
      rw [List.foldlM_cons]
      refine (h a List.mem_cons_self b).bind ?_
      intro mid hmid
      refine (ih (fun c hc => h c (List.mem_cons_of_mem _ hc)) mid).imp ?_
      intro b' hb'
      exact bind_eq_ok.mpr ⟨φ mid, hmid, hb'⟩

end Stays

end Program

end Nipa.Support
