import Mathlib.Data.List.Basic

/-!
# Cutting a list from its front

A cutter looks at a list and says how long its first piece is.  Cutting what is
left again and again gives pieces that make up the list, and what follows a
boundary is what the rest alone is cut into.
-/

namespace Nipa.Support

/-- How long the first piece of a list is. -/
structure Cutter (α : Type) where
  size : List α → ℕ
  pos : ∀ {xs : List α}, xs ≠ [] → 0 < size xs
  le : ∀ xs : List α, size xs ≤ xs.length

namespace Cutter

variable {α : Type} (c : Cutter α)

/-- Pieces of one size, the last one possibly shorter. -/
def every (n : ℕ) (hn : 0 < n) : Cutter α where
  size xs := min n xs.length
  pos hxs := Nat.lt_min.mpr ⟨hn, List.length_pos_of_ne_nil hxs⟩
  le _ := Nat.min_le_right _ _

def pieces : List α → List (List α)
  | [] => []
  | x :: xs =>
      (x :: xs).take (c.size (x :: xs)) :: pieces ((x :: xs).drop (c.size (x :: xs)))
  termination_by xs => xs.length
  decreasing_by
    have hpos := c.pos (List.cons_ne_nil x xs)
    rw [List.length_drop, List.length_cons]
    omega

@[simp] theorem pieces_nil : c.pieces [] = [] := by
  rw [pieces]

theorem pieces_eq {xs : List α} (h : xs ≠ []) :
    c.pieces xs = xs.take (c.size xs) :: c.pieces (xs.drop (c.size xs)) := by
  cases xs with
  | nil => exact absurd rfl h
  | cons x xs => rw [pieces]

theorem pieces_flatten (xs : List α) : (c.pieces xs).flatten = xs := by
  fun_induction pieces c xs with
  | case1 => rfl
  | case2 x xs ih => rw [List.flatten_cons, ih, List.take_append_drop]

theorem piece_eq {xs : List α} {pre post : List (List α)} {p : List α}
    (h : c.pieces xs = pre ++ p :: post) :
    p ++ post.flatten ≠ [] ∧ p = (p ++ post.flatten).take (c.size (p ++ post.flatten)) ∧
      post = c.pieces post.flatten := by
  fun_induction pieces c xs generalizing pre with
  | case1 => exact absurd h (by simp)
  | case2 x xs ih =>
      cases pre with
      | cons q pre => exact ih (List.cons.inj h).2
      | nil =>
          obtain ⟨rfl, rfl⟩ := List.cons.inj h
          rw [c.pieces_flatten, List.take_append_drop]
          exact ⟨List.cons_ne_nil x xs, rfl, rfl⟩

theorem pieces_append {xs : List α} {pre post : List (List α)}
    (h : c.pieces xs = pre ++ post) : c.pieces post.flatten = post := by
  cases post with
  | nil => exact c.pieces_nil
  | cons p post =>
      obtain ⟨hne, hp, hpost⟩ := c.piece_eq h
      rw [List.flatten_cons, c.pieces_eq hne, ← hp]
      have hrest : (p ++ post.flatten).drop (c.size (p ++ post.flatten)) = post.flatten := by
        have hsplit := List.take_append_drop (c.size (p ++ post.flatten)) (p ++ post.flatten)
        rw [← hp] at hsplit
        exact List.append_cancel_left hsplit
      rw [hrest, ← hpost]

theorem length_piece {xs : List α} {pre post : List (List α)} {p : List α}
    (h : c.pieces xs = pre ++ p :: post) : p.length = c.size (p ++ post.flatten) := by
  obtain ⟨-, hp, -⟩ := c.piece_eq h
  have hlength := congrArg List.length hp
  rw [List.length_take, Nat.min_eq_left (c.le _)] at hlength
  exact hlength

end Cutter

end Nipa.Support
