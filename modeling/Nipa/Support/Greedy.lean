import Mathlib.Data.List.Pairwise

/-!
# Greedy choice from a sorted list

The elements of a list are gone over once, and one is chosen when it clashes
with nothing chosen before.  What is left out clashes with a chosen element that
comes earlier, so in a sorted list nothing left out is better than everything
it clashes with.
-/

namespace Nipa.Support

variable {α : Type} {clash : α → α → Bool}

/-- The elements of a list that are chosen after `chosen`. -/
def greedy (clash : α → α → Bool) : List α → List α → List α
  | _, [] => []
  | chosen, x :: xs =>
      if chosen.any (clash x) then greedy clash chosen xs
      else x :: greedy clash (x :: chosen) xs

theorem greedy_sublist (chosen l : List α) : (greedy clash chosen l).Sublist l := by
  induction l generalizing chosen with
  | nil => exact List.Sublist.slnil
  | cons x xs ih =>
      rw [greedy]
      split
      · exact (ih chosen).cons x
      · exact (ih (x :: chosen)).cons_cons x

theorem greedy_not_clash {chosen l : List α} {x : α} (hx : x ∈ greedy clash chosen l) :
    ∀ y ∈ chosen, clash x y = false := by
  induction l generalizing chosen with
  | nil => cases hx
  | cons z zs ih =>
      rw [greedy] at hx
      split at hx
      · exact ih hx
      next hfree =>
        rcases List.mem_cons.mp hx with rfl | hx
        · simpa using hfree
        · intro y hy
          exact ih hx y (List.mem_cons_of_mem z hy)

theorem greedy_pairwise (chosen l : List α) :
    (greedy clash chosen l).Pairwise fun x y => clash y x = false := by
  induction l generalizing chosen with
  | nil => exact List.Pairwise.nil
  | cons x xs ih =>
      rw [greedy]
      split
      · exact ih chosen
      · refine List.pairwise_cons.mpr ⟨?_, ih (x :: chosen)⟩
        intro y hy
        exact greedy_not_clash hy x List.mem_cons_self

/-- An element of a sorted list is chosen, or it clashes with a chosen one that
is at least as good. -/
theorem greedy_covers {R : α → α → Prop} {chosen l : List α} (hl : l.Pairwise R)
    (hchosen : ∀ y ∈ chosen, ∀ x ∈ l, R y x) {x : α} (hx : x ∈ l) :
    x ∈ greedy clash chosen l ∨
      ∃ y, (y ∈ chosen ∨ y ∈ greedy clash chosen l) ∧ clash x y = true ∧ R y x := by
  induction l generalizing chosen with
  | nil => cases hx
  | cons z zs ih =>
      obtain ⟨hz, hzs⟩ := List.pairwise_cons.mp hl
      rw [greedy]
      split
      next hclash =>
        rcases List.mem_cons.mp hx with rfl | hx
        · obtain ⟨y, hy, hxy⟩ := List.any_eq_true.mp hclash
          exact Or.inr ⟨y, Or.inl hy, hxy, hchosen y hy x List.mem_cons_self⟩
        · exact ih hzs (fun y hy w hw => hchosen y hy w (List.mem_cons_of_mem z hw)) hx
      next hfree =>
        rcases List.mem_cons.mp hx with rfl | hx
        · exact Or.inl List.mem_cons_self
        · have hbefore : ∀ y ∈ z :: chosen, ∀ w ∈ zs, R y w := by
            intro y hy w hw
            rcases List.mem_cons.mp hy with rfl | hy
            · exact hz w hw
            · exact hchosen y hy w (List.mem_cons_of_mem z hw)
          rcases ih hzs hbefore hx with hin | ⟨y, hy, hxy, hR⟩
          · exact Or.inl (List.mem_cons_of_mem z hin)
          · refine Or.inr ⟨y, ?_, hxy, hR⟩
            rcases hy with hy | hy
            · rcases List.mem_cons.mp hy with rfl | hy
              · exact Or.inr List.mem_cons_self
              · exact Or.inl hy
            · exact Or.inr (List.mem_cons_of_mem z hy)

end Nipa.Support
