import Mathlib.Data.List.Forall2

/-!
# Computations that can fail

A request handler is a sequence of checks and steps, each of which can stop it
with an error.  A handler that returns normally has passed every check and
finished every step.
-/

namespace Nipa.Support

variable {ε α β : Type}

/-- Stop with `e` when `p` holds. -/
def refuseIf (p : Prop) [Decidable p] (e : ε) : Except ε Unit :=
  if p then .error e else .ok ()

@[simp] theorem refuseIf_eq_ok {p : Prop} [Decidable p] {e : ε} {u : Unit} :
    refuseIf p e = .ok u ↔ ¬ p := by
  by_cases h : p
  · simp [refuseIf, h]
  · simp [refuseIf, h]

/-- A missing value is an error. -/
def orError (x : Option α) (e : ε) : Except ε α :=
  match x with
  | none => .error e
  | some a => .ok a

@[simp] theorem orError_eq_ok {x : Option α} {e : ε} {a : α} :
    orError x e = .ok a ↔ x = some a := by
  rcases x with _ | b
  · simp [orError]
  · simp [orError]

theorem bind_eq_ok {x : Except ε α} {f : α → Except ε β} {b : β} :
    (x >>= f) = .ok b ↔ ∃ a, x = .ok a ∧ f a = .ok b := by
  rcases x with e | a
  · constructor
    · intro h
      exact absurd h (by simp [bind, Except.bind])
    · rintro ⟨a, h, -⟩
      exact absurd h (by simp)
  · constructor
    · intro h
      exact ⟨a, rfl, h⟩
    · rintro ⟨a', h, hf⟩
      obtain rfl := Except.ok.inj h
      exact hf

theorem pure_eq_ok {a b : α} : (pure a : Except ε α) = .ok b ↔ a = b := by
  constructor
  · intro h
    exact Except.ok.inj h
  · rintro rfl
    rfl

theorem eq_ok_of_toOption {x : Except ε α} (d : α) (h : x.toOption.isSome = true) :
    x = .ok (x.toOption.getD d) := by
  rcases x with e | a
  · simp [Except.toOption] at h
  · rfl

theorem toOption_eq_some {x : Except ε α} {a : α} (h : x.toOption = some a) : x = .ok a := by
  cases x with
  | error e => cases h
  | ok b => rw [Option.some.inj h]

theorem exists_ok_of_toOption {x : Except ε α} (h : x.toOption.isSome = true) :
    ∃ a, x = .ok a := by
  rcases x with e | a
  · simp [Except.toOption] at h
  · exact ⟨a, rfl⟩

theorem mapM_ok {f : α → Except ε β} {l : List α} {ys : List β} (h : l.mapM f = .ok ys) :
    List.Forall₂ (fun x y => f x = .ok y) l ys := by
  induction l generalizing ys with
  | nil =>
      have hys : [] = ys := by simpa [pure_eq_ok] using h
      rw [← hys]
      exact List.Forall₂.nil
  | cons x xs ih =>
      rw [List.mapM_cons] at h
      obtain ⟨y, hy, hrest⟩ := bind_eq_ok.mp h
      obtain ⟨zs, hzs, hcons⟩ := bind_eq_ok.mp hrest
      rw [← pure_eq_ok.mp hcons]
      exact List.Forall₂.cons hy (ih hzs)

theorem exists_foldlM_ok {σ : Type} {f : σ → α → Except ε σ} {l : List α}
    (h : ∀ s, ∀ a ∈ l, ∃ s', f s a = .ok s') (s : σ) : ∃ s', l.foldlM f s = .ok s' := by
  induction l generalizing s with
  | nil => exact ⟨s, rfl⟩
  | cons a l ih =>
      obtain ⟨mid, hmid⟩ := h s a List.mem_cons_self
      obtain ⟨s', hs'⟩ := ih (fun s a ha => h s a (List.mem_cons_of_mem _ ha)) mid
      rw [List.foldlM_cons]
      exact ⟨s', bind_eq_ok.mpr ⟨mid, hmid, hs'⟩⟩

theorem foldlM_related {σ : Type} {f : σ → α → Except ε σ} {R : σ → σ → Prop}
    (hrefl : ∀ s, R s s) (htrans : ∀ s s' s'', R s s' → R s' s'' → R s s'')
    (hstep : ∀ s a s', f s a = .ok s' → R s s') {l : List α} {s s' : σ}
    (h : l.foldlM f s = .ok s') : R s s' := by
  induction l generalizing s with
  | nil =>
      obtain rfl := pure_eq_ok.mp h
      exact hrefl s
  | cons a l ih =>
      rw [List.foldlM_cons] at h
      obtain ⟨mid, hmid, h⟩ := bind_eq_ok.mp h
      exact htrans s mid s' (hstep s a mid hmid) (ih h)

theorem foldlM_invariant {σ : Type} {f : σ → α → Except ε σ} {I : σ → Prop} {l : List α}
    (hstep : ∀ a ∈ l, ∀ s s', I s → f s a = .ok s' → I s') {s s' : σ} (hs : I s)
    (h : l.foldlM f s = .ok s') : I s' := by
  induction l generalizing s with
  | nil =>
      obtain rfl := pure_eq_ok.mp h
      exact hs
  | cons a l ih =>
      rw [List.foldlM_cons] at h
      obtain ⟨mid, hmid, h⟩ := bind_eq_ok.mp h
      exact ih (fun b hb => hstep b (List.mem_cons_of_mem _ hb))
        (hstep a List.mem_cons_self s mid hs hmid) h

theorem foldlM_map {σ τ : Type} {f : σ → α → Except ε σ} {g : τ → α → Except ε τ}
    {φ : σ → τ} (hstep : ∀ s a s', f s a = .ok s' → g (φ s) a = .ok (φ s')) {l : List α}
    {s s' : σ} (h : l.foldlM f s = .ok s') : l.foldlM g (φ s) = .ok (φ s') := by
  induction l generalizing s with
  | nil =>
      obtain rfl := pure_eq_ok.mp h
      rfl
  | cons a l ih =>
      rw [List.foldlM_cons] at h
      obtain ⟨mid, hmid, h⟩ := bind_eq_ok.mp h
      rw [List.foldlM_cons]
      exact bind_eq_ok.mpr ⟨φ mid, hstep s a mid hmid, ih h⟩

theorem forM_eq_ok {f : α → Except ε Unit} {l : List α} :
    l.forM f = .ok () ↔ ∀ a ∈ l, f a = .ok () := by
  induction l with
  | nil => simp [pure_eq_ok]
  | cons a l ih =>
      change (f a >>= fun _ => l.forM f) = _ ↔ _
      rw [bind_eq_ok, List.forall_mem_cons, ← ih]
      constructor
      · rintro ⟨⟨⟩, ha, hrest⟩
        exact ⟨ha, hrest⟩
      · rintro ⟨ha, hrest⟩
        exact ⟨(), ha, hrest⟩

theorem mapM_of_ok {ε α β : Type} {f : α → Except ε β} {g : α → β} {l : List α}
    (h : ∀ x ∈ l, f x = .ok (g x)) : l.mapM f = .ok (l.map g) := by
  induction l with
  | nil => rfl
  | cons x xs ih =>
      rw [List.mapM_cons, h x List.mem_cons_self,
        ih fun y hy => h y (List.mem_cons_of_mem _ hy)]
      rfl

end Nipa.Support
