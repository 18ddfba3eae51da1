import Mathlib.Logic.Relation

/-!
# Runs of a transition system

A transition system takes labelled steps; a run takes steps that all meet a
condition on the state before them.  What one step keeps, a run keeps, and what
one step relates, a run relates when the relation can be chained.
-/

namespace Nipa.Support

variable {S E : Type}

/-- Runs whose steps all meet `P`. -/
inductive Run (Step : S → E → S → Prop) (P : S → E → Prop) : S → S → Prop where
  | refl (s : S) : Run Step P s s
  | tail {s s' s'' : S} {e : E} (h : Run Step P s s') (hcond : P s' e)
      (hstep : Step s' e s'') : Run Step P s s''

namespace Run

variable {Step : S → E → S → Prop} {P Q : S → E → Prop} {s s' s'' : S}

theorem trans (h : Run Step P s s') (h' : Run Step P s' s'') : Run Step P s s'' := by
  induction h' with
  | refl => exact h
  | tail _ hcond hstep ih => exact ih.tail hcond hstep

theorem mono (h : Run Step P s s') (hPQ : ∀ s e, P s e → Q s e) : Run Step Q s s' := by
  induction h with
  | refl => exact Run.refl _
  | tail _ hcond hstep ih => exact ih.tail (hPQ _ _ hcond) hstep

theorem invariant {I : S → Prop} (h : Run Step P s s') (hinit : I s)
    (hkeep : ∀ s e s', I s → P s e → Step s e s' → I s') : I s' := by
  induction h with
  | refl => exact hinit
  | tail _ hcond hstep ih => exact hkeep _ _ _ ih hcond hstep

/-- A relation that every step gives, under an invariant, and that can be chained
holds between the two ends of a run. -/
theorem related {I : S → Prop} {R : S → S → Prop} (h : Run Step P s s') (hinit : I s)
    (hkeep : ∀ s e s', I s → P s e → Step s e s' → I s') (hrefl : ∀ s, I s → R s s)
    (htrans : ∀ s s' s'', R s s' → R s' s'' → R s s'')
    (hrel : ∀ s e s', I s → P s e → Step s e s' → R s s') : R s s' := by
  induction h with
  | refl => exact hrefl _ hinit
  | tail hrun hcond hstep ih =>
      exact htrans _ _ _ ih (hrel _ _ _ (hrun.invariant hinit hkeep) hcond hstep)

theorem of_foldlM_mem {step : S → E → Option S} {labels : List E}
    (h : labels.foldlM step s = some s') :
    Run (fun s e s' => step s e = some s') (fun _ e => e ∈ labels) s s' := by
  induction labels generalizing s with
  | nil =>
      rw [← Option.some.inj h]
      exact Run.refl s
  | cons e labels ih =>
      obtain ⟨mid, hstep, hrest⟩ := Option.bind_eq_some_iff.mp h
      have hfirst : Run (fun s e s' => step s e = some s') (fun _ e' => e' ∈ e :: labels) s mid :=
        (Run.refl s).tail List.mem_cons_self hstep
      exact hfirst.trans ((ih hrest).mono fun _ _ he => List.mem_cons_of_mem e he)

theorem of_foldlM {step : S → E → Option S} {labels : List E}
    (h : labels.foldlM step s = some s') :
    Run (fun s e s' => step s e = some s') (fun _ _ => True) s s' :=
  (of_foldlM_mem h).mono fun _ _ _ => trivial

theorem of_foldlM_checked {step : S → E → Option S} [∀ s e, Decidable (P s e)] {labels : List E}
    (h : labels.foldlM (fun s e => if P s e then step s e else none) s = some s') :
    Run (fun s e s' => step s e = some s') P s s' := by
  induction labels generalizing s with
  | nil =>
      rw [← Option.some.inj h]
      exact Run.refl s
  | cons e labels ih =>
      obtain ⟨mid, hstep, hrest⟩ := Option.bind_eq_some_iff.mp h
      obtain ⟨hcond, hstep⟩ := Option.ite_none_right_eq_some.mp hstep
      exact ((Run.refl s).tail hcond hstep).trans (ih hrest)

end Run

end Nipa.Support
