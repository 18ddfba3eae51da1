import Mathlib.Data.List.GetD
import Nipa.Support.Checks
import Nipa.Support.Loops

/-!
# Programs that index

A program over lists of bytes ends with a value or with an error of its own; it can also
stop at an index out of range, or at a loop that goes round without an end.  A program is
safe for a property when it does neither of the last two and its values have the property.
Safe parts make a safe program, and a loop is safe when its rounds keep an invariant and
lower a measure.
-/

namespace Nipa.Support

/-- Why a program has no value. -/
inductive Fault (ε : Type) where
  | error (e : ε)
  | outOfRange
  | endless

abbrev Faulty (ε α : Type) : Type :=
  Except (Fault ε) α

variable {ε α β S : Type}

namespace Faulty

def fail (e : ε) : Faulty ε α :=
  .error (.error e)

/-- Stop with the error `e` when `p` holds. -/
def failIf (p : Prop) [Decidable p] (e : ε) : Faulty ε Unit :=
  if p then fail e else .ok ()

/-- The element at an index. -/
def elem (l : List α) (i : ℕ) : Faulty ε α :=
  match l[i]? with
  | some a => .ok a
  | none => .error .outOfRange

/-- The elements from `lo` on, up to `hi`. -/
def slice (l : List α) (lo hi : ℕ) : Faulty ε (List α) :=
  if lo ≤ hi ∧ hi ≤ l.length then .ok ((l.take hi).drop lo) else .error .outOfRange

/-- The elements from `lo` on. -/
def sliceFrom (l : List α) (lo : ℕ) : Faulty ε (List α) :=
  slice l lo l.length

/-- Replace the element at an index. -/
def store (l : List α) (i : ℕ) (a : α) : Faulty ε (List α) :=
  if i < l.length then .ok (l.set i a) else .error .outOfRange

/-- Write `src` to the elements from `lo` on, as far as it goes, but not beyond `hi`. -/
def copy (l : List α) (lo hi : ℕ) (src : List α) : Faulty ε (List α) :=
  if lo ≤ hi ∧ hi ≤ l.length then
    .ok (l.take lo ++ (src.take (hi - lo) ++ l.drop (lo + min (hi - lo) src.length)))
  else .error .outOfRange

/-- The loop over `0, …, n - 1`. -/
def forRange (n : ℕ) (s : S) (body : S → ℕ → Faulty ε S) : Faulty ε S :=
  (List.range n).foldlM body s

/-- A loop that is given up after `n` rounds. -/
def loop (body : S → Faulty ε (α ⊕ S)) (n : ℕ) (s : S) : Faulty ε α :=
  (runFor body n s).getD (.error .endless)

/-- Carry on when the program fails with an error of its own. -/
def settle (x : Faulty ε α) : Faulty ε (Option α) :=
  match x with
  | .ok a => .ok (some a)
  | .error (.error _) => .ok none
  | .error .outOfRange => .error .outOfRange
  | .error .endless => .error .endless

/-! ## Safety -/

/-- The program stays in range and ends, and its value satisfies `Q`. -/
def Safe (x : Faulty ε α) (Q : α → Prop) : Prop :=
  match x with
  | .ok a => Q a
  | .error (.error _) => True
  | .error .outOfRange => False
  | .error .endless => False

variable {x : Faulty ε α} {Q R : α → Prop}

theorem Safe.pure {a : α} (h : Q a) : Safe (Pure.pure a : Faulty ε α) Q := h

theorem Safe.ok {a : α} (h : Q a) : Safe (.ok a : Faulty ε α) Q := h

theorem Safe.fail (e : ε) : Safe (Faulty.fail e : Faulty ε α) Q := trivial

theorem Safe.bind {f : α → Faulty ε β} {T : β → Prop} (hx : Safe x Q)
    (hf : ∀ a, Q a → Safe (f a) T) : Safe (x >>= f) T := by
  match x with
  | .ok a => exact hf a hx
  | .error (.error _) => exact trivial
  | .error .outOfRange => exact hx
  | .error .endless => exact hx

theorem Safe.mono (hx : Safe x Q) (h : ∀ a, Q a → R a) : Safe x R := by
  match x with
  | .ok a => exact h a hx
  | .error (.error _) => exact trivial
  | .error .outOfRange => exact hx
  | .error .endless => exact hx

theorem Safe.settle (hx : Safe x Q) : Safe x.settle fun o => ∀ a, o = some a → Q a := by
  match x with
  | .ok a =>
      rintro _ ⟨⟩
      exact hx
  | .error (.error _) =>
      rintro _ ⟨⟩
  | .error .outOfRange => exact hx
  | .error .endless => exact hx

theorem Safe.of_ok {a : α} (hx : Safe x Q) (h : x = .ok a) : Q a := by
  rw [h] at hx
  exact hx

theorem Safe.failIf (p : Prop) [Decidable p] (e : ε) :
    Safe (Faulty.failIf p e) fun _ => ¬ p := by
  unfold Faulty.failIf
  split
  case isTrue => exact Safe.fail e
  case isFalse hp => exact hp

theorem Safe.failIf_bind {p : Prop} [Decidable p] {e : ε} {f : Unit → Faulty ε α}
    (hf : ¬ p → Safe (f ()) Q) : Safe (Faulty.failIf p e >>= f) Q :=
  (Safe.failIf p e).bind fun _ hp => hf hp

theorem Safe.ite {p : Prop} [Decidable p] {y : Faulty ε α} (hx : p → Safe x Q)
    (hy : ¬ p → Safe y Q) : Safe (if p then x else y) Q := by
  split
  case isTrue hp => exact hx hp
  case isFalse hp => exact hy hp

variable {l : List α}

theorem Safe.elem {i : ℕ} (h : i < l.length) :
    Safe (Faulty.elem l i : Faulty ε α) fun a => a ∈ l := by
  unfold Faulty.elem
  rw [List.getElem?_eq_getElem h]
  exact List.getElem_mem h

theorem Safe.elem_eq {i : ℕ} {a : α} (h : l[i]? = some a) :
    Safe (Faulty.elem l i : Faulty ε α) fun b => a = b := by
  unfold Faulty.elem
  rw [h]
  exact rfl

theorem Safe.slice {lo hi : ℕ} (hlo : lo ≤ hi) (hhi : hi ≤ l.length) :
    Safe (Faulty.slice l lo hi : Faulty ε (List α)) fun r => r.length = hi - lo := by
  unfold Faulty.slice
  rw [if_pos ⟨hlo, hhi⟩]
  change ((l.take hi).drop lo).length = hi - lo
  rw [List.length_drop, List.length_take, min_eq_left hhi]

theorem Safe.sliceFrom {lo : ℕ} (hlo : lo ≤ l.length) :
    Safe (Faulty.sliceFrom l lo : Faulty ε (List α)) fun r => r.length = l.length - lo :=
  Safe.slice hlo le_rfl

theorem Safe.store {i : ℕ} (h : i < l.length) (a : α) :
    Safe (Faulty.store l i a : Faulty ε (List α)) fun r => r.length = l.length := by
  unfold Faulty.store
  rw [if_pos h]
  exact List.length_set

theorem Safe.copy {lo hi : ℕ} (hlo : lo ≤ hi) (hhi : hi ≤ l.length) (src : List α) :
    Safe (Faulty.copy l lo hi src : Faulty ε (List α)) fun r => r.length = l.length := by
  unfold Faulty.copy
  rw [if_pos ⟨hlo, hhi⟩]
  change (l.take lo ++ (src.take (hi - lo) ++
    l.drop (lo + min (hi - lo) src.length))).length = l.length
  rw [List.length_append, List.length_append, List.length_take, List.length_take,
    List.length_drop]
  omega

/-! ## Safe loops -/

theorem Safe.foldlM {I : S → Prop} {f : S → α → Faulty ε S} {s : S} (hs : I s)
    (hstep : ∀ a ∈ l, ∀ s, I s → Safe (f s a) I) : Safe (l.foldlM f s) I := by
  induction l generalizing s with
  | nil => exact hs
  | cons a l ih =>
      rw [List.foldlM_cons]
      refine (hstep a List.mem_cons_self s hs).bind fun s' hs' => ?_
      exact ih hs' fun b hb => hstep b (List.mem_cons_of_mem a hb)

theorem Safe.forRange {I : ℕ → S → Prop} {f : S → ℕ → Faulty ε S} {n : ℕ} {s : S} (hs : I 0 s)
    (hstep : ∀ k < n, ∀ s, I k s → Safe (f s k) (I (k + 1))) :
    Safe (Faulty.forRange n s f) (I n) := by
  unfold Faulty.forRange
  induction n with
  | zero => exact hs
  | succ n ih =>
      rw [List.range_succ, List.foldlM_append]
      refine (ih fun k hk => hstep k (Nat.lt_succ_of_lt hk)).bind fun s' hs' => ?_
      rw [List.foldlM_cons]
      exact (hstep n (Nat.lt_succ_self n) s' hs').bind fun s'' hs'' => Safe.pure hs''

theorem Safe.mapM {f : α → Faulty ε β} {T : β → Prop} (h : ∀ a ∈ l, Safe (f a) T) :
    Safe (l.mapM f) fun r => r.length = l.length ∧ ∀ b ∈ r, T b := by
  induction l with
  | nil => exact Safe.pure ⟨rfl, fun _ hb => absurd hb List.not_mem_nil⟩
  | cons a l ih =>
      rw [List.mapM_cons]
      refine (h a List.mem_cons_self).bind fun b hb => ?_
      refine (ih fun c hc => h c (List.mem_cons_of_mem a hc)).bind fun r hr => ?_
      refine Safe.pure ⟨congrArg (· + 1) hr.1, fun c hc => ?_⟩
      cases List.mem_cons.mp hc with
      | inl hsame =>
          rw [hsame]
          exact hb
      | inr hmem => exact hr.2 c hmem

/-- A loop whose rounds keep an invariant and lower a measure ends, with what its last round
ends with. -/
theorem Safe.loop {I : S → Prop} {body : S → Faulty ε (α ⊕ S)} (size : S → ℕ) {n : ℕ} {s : S}
    (hs : I s) (hn : size s < n)
    (hround : ∀ s, I s → Safe (body s) (Sum.elim Q fun s' => I s' ∧ size s' < size s)) :
    Safe (Faulty.loop body n s) Q := by
  have hagain : ∀ s s', I s → body s = .ok (.inr s') → I s' ∧ size s' < size s :=
    fun s s' hI hbody => (hround s hI).of_ok hbody
  obtain ⟨r, hr⟩ := exists_runFor I size hagain hs hn
  unfold Faulty.loop
  rw [hr, Option.getD_some]
  refine (Loop.of_runFor hr).invariant (Q := fun r => Safe r Q) hs
    (fun s s' hI hbody => (hagain s s' hI hbody).1) ?_ ?_
  · intro s e hI hbody
    have hsafe := hround s hI
    rw [hbody] at hsafe
    match e with
    | .error _ => exact trivial
    | .outOfRange => exact hsafe
    | .endless => exact hsafe
  · intro s a hI hbody
    exact (hround s hI).of_ok hbody

end Faulty

end Nipa.Support
