import Nipa.Support.EditGraph

/-!
# Line diffs

Two versions of a text are compared line by line with Myers' algorithm.  The
frontier array holds, for every diagonal, how far the edits spent so far reach;
a copy of it is kept for every round, and the edit script is read off those
copies from the end of both texts back to their start.
-/

namespace Nipa

namespace Text

/-- A line with its newline, if it has one. -/
abbrev Line := List UInt8

inductive OpKind where
  | equal
  | removed
  | added
  deriving DecidableEq

/-- One operation of an edit script, with its index on either side; an added
line has the index where it is inserted, a removed one likewise. -/
structure Op where
  kind : OpKind
  line : Line
  a : ℕ
  b : ℕ
  deriving DecidableEq

/-! ## Slices

An index outside of the slice has no value: the code would panic there. -/

def at? {α : Type} (l : List α) (i : ℤ) : Option α :=
  if 0 ≤ i then l[i.toNat]? else none

def set? (l : List ℤ) (i x : ℤ) : Option (List ℤ) :=
  if 0 ≤ i ∧ i < l.length then some (l.set i.toNat x) else none

/-! ## The search -/

section Search

variable (equal : Line → Line → Bool) (a b : List Line)

/-- Follow the diagonal over equal lines. -/
def snake : ℕ → ℤ → ℤ → Option ℤ
  | 0, x, _ => some x
  | fuel + 1, x, y =>
      if x < a.length ∧ y < b.length then do
        let s ← at? a x
        let t ← at? b y
        if equal s t then snake fuel (x + 1) (y + 1) else some x
      else some x

/-- Whether diagonal `k` is entered from above rather than from the left. -/
def entersDown (v : List ℤ) (max d k : ℤ) : Option Bool :=
  if k = -d then some true
  else if k = d then some false
  else do
    let l ← at? v (k - 1 + max)
    let r ← at? v (k + 1 + max)
    some (l < r)

/-- Where the furthest path enters diagonal `k`. -/
def enter (v : List ℤ) (max d k : ℤ) : Option ℤ := do
  if ← entersDown v max d k then at? v (k + 1 + max)
  else
    let x ← at? v (k - 1 + max)
    some (x + 1)

/-- One round over the diagonals `ks`, stopped when the end of both sides is
reached. -/
def round (max d : ℤ) : List ℤ → List ℤ → Option (Bool × List ℤ)
  | [], v => some (false, v)
  | k :: ks, v => do
      let x₀ ← enter v max d k
      let x ← snake equal a b (a.length - x₀).toNat x₀ (x₀ - k)
      let v ← set? v (k + max) x
      if a.length ≤ x ∧ b.length ≤ x - k then some (true, v)
      else round max d ks v

/-- The diagonals of round `d`: every other one from `-d` to `d`. -/
def diagonals (d : ℕ) : List ℤ :=
  (List.range (d + 1)).map fun j : ℕ => (2 * j - d : ℤ)

/-- Round after round, until one reaches the end; the last argument holds the
frontiers of the earlier rounds. -/
def search (max : ℤ) : ℕ → ℕ → List ℤ → List (List ℤ) → Option (ℕ × List (List ℤ))
  | 0, d, _, trace => some (d, trace)
  | fuel + 1, d, v, trace => do
      let (found, v) ← round equal a b max d (diagonals d) v
      if found then some (d, trace ++ [v])
      else search max fuel (d + 1) v (trace ++ [v])

end Search

/-! ## The way back

The source appends operations from the last to the first and reverses the
slice at the end; here each goes in front of the ones after it. -/

section Backtrack

variable (equal : Line → Line → Bool) (a b : List Line)

/-- Back along the diagonal to where it was entered. -/
def backSnake (prevX prevY : ℤ) : ℕ → ℤ → ℤ → List Op → Option (ℤ × ℤ × List Op)
  | 0, x, y, ops => some (x, y, ops)
  | fuel + 1, x, y, ops =>
      if prevX < x ∧ prevY < y then do
        let s ← at? a (x - 1)
        backSnake prevX prevY fuel (x - 1) (y - 1)
          (⟨.equal, s, (x - 1).toNat, (y - 1).toNat⟩ :: ops)
      else some (x, y, ops)

/-- Back along the first run of equal lines. -/
def backStart : ℕ → ℤ → ℤ → List Op → Option (List Op)
  | 0, _, _, ops => some ops
  | fuel + 1, x, y, ops =>
      if 0 < x ∧ 0 < y then do
        let s ← at? a (x - 1)
        let t ← at? b (y - 1)
        if equal s t then
          backStart fuel (x - 1) (y - 1)
            (⟨.equal, s, (x - 1).toNat, (y - 1).toNat⟩ :: ops)
        else some ops
      else some ops

def backtrack (max : ℤ) (trace : List (List ℤ)) : ℕ → ℤ → ℤ → List Op → Option (List Op)
  | 0, x, y, ops => backStart equal a b x.toNat x y ops
  | d + 1, x, y, ops => do
      let k := x - y
      let prevV ← at? trace d
      let down ← entersDown prevV max (d + 1 : ℕ) k
      let prevK := if down then k + 1 else k - 1
      let prevX ← at? prevV (prevK + max)
      let prevY := prevX - prevK
      let (x, y, ops) ← backSnake a prevX prevY (x - prevX).toNat x y ops
      if x = prevX then
        let t ← at? b (y - 1)
        backtrack max trace d x (y - 1) (⟨.added, t, x.toNat, (y - 1).toNat⟩ :: ops)
      else
        let s ← at? a (x - 1)
        backtrack max trace d (x - 1) y (⟨.removed, s, (x - 1).toNat, y.toNat⟩ :: ops)

end Backtrack

/-- The edit script from `a` to `b`, with `equal` to compare lines. -/
def linesWith (a b : List Line) (equal : Line → Line → Bool) : Option (List Op) :=
  if a.length = 0 then some (b.mapIdx fun y l => ⟨.added, l, 0, y⟩)
  else if b.length = 0 then some (a.mapIdx fun x l => ⟨.removed, l, x, 0⟩)
  else do
    let max := a.length + b.length
    let v := List.replicate (2 * max + 1) 0
    let (d, trace) ← search equal a b max (max + 1) 0 v []
    backtrack equal a b max trace d a.length b.length []

/-- The edit script with lines compared exactly. -/
def lines (a b : List Line) : Option (List Op) :=
  linesWith a b fun s t => s = t

end Text

end Nipa
