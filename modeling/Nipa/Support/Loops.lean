import Mathlib.Data.Nat.Basic

/-!
# Loops that may not end

A loop body either leaves the loop with a result, fails, or goes round again
with a new state.  `Loop` relates a state to what the loop ends with and has
nothing to say about a loop that never ends; `runFor` goes round a bounded
number of times.  The two agree, and a loop whose rounds lower a measure ends.
-/

namespace Nipa.Support

variable {S A ε : Type}

/-- The loop that starts in a state ends with a result or a failure. -/
inductive Loop (body : S → Except ε (A ⊕ S)) : S → Except ε A → Prop where
  | fail {s : S} {e : ε} (h : body s = .error e) : Loop body s (.error e)
  | leave {s : S} {a : A} (h : body s = .ok (.inl a)) : Loop body s (.ok a)
  | again {s s' : S} {r : Except ε A} (h : body s = .ok (.inr s')) (hrest : Loop body s' r) :
      Loop body s r

/-- At most the given number of rounds; nothing when they do not suffice. -/
def runFor (body : S → Except ε (A ⊕ S)) : ℕ → S → Option (Except ε A)
  | 0, _ => none
  | n + 1, s =>
      match body s with
      | .error e => some (.error e)
      | .ok (.inl a) => some (.ok a)
      | .ok (.inr s') => runFor body n s'

variable {body : S → Except ε (A ⊕ S)}

theorem Loop.of_runFor {n : ℕ} {s : S} {r : Except ε A} (h : runFor body n s = some r) :
    Loop body s r := by
  induction n generalizing s with
  | zero => cases h
  | succ n ih =>
      rw [runFor] at h
      split at h
      next e hbody =>
        rw [← Option.some.inj h]
        exact Loop.fail hbody
      next a hbody =>
        rw [← Option.some.inj h]
        exact Loop.leave hbody
      next s' hbody => exact Loop.again hbody (ih h)

/-- A loop whose rounds keep an invariant and lower a measure ends within as
many rounds as the measure allows. -/
theorem exists_runFor (I : S → Prop) (size : S → ℕ)
    (hround : ∀ s s', I s → body s = .ok (.inr s') → I s' ∧ size s' < size s)
    {n : ℕ} {s : S} (hs : I s) (hn : size s < n) : ∃ r, runFor body n s = some r := by
  induction n generalizing s with
  | zero => omega
  | succ n ih =>
      rw [runFor]
      split
      next e _ => exact ⟨.error e, rfl⟩
      next a _ => exact ⟨.ok a, rfl⟩
      next s' hbody =>
        obtain ⟨hs', hlt⟩ := hround s s' hs hbody
        exact ih hs' (by omega)

theorem Loop.invariant {I : S → Prop} {Q : Except ε A → Prop} {s : S} {r : Except ε A}
    (h : Loop body s r) (hs : I s) (hround : ∀ s s', I s → body s = .ok (.inr s') → I s')
    (hfail : ∀ s e, I s → body s = .error e → Q (.error e))
    (hleave : ∀ s a, I s → body s = .ok (.inl a) → Q (.ok a)) : Q r := by
  induction h with
  | fail hbody => exact hfail _ _ hs hbody
  | leave hbody => exact hleave _ _ hs hbody
  | again hbody _ ih => exact ih (hround _ _ hs hbody)

end Nipa.Support
