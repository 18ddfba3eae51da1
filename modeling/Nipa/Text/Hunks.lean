import Nipa.Text.Newlines

/-!
# Hunks

The operations of a line diff are grouped into hunks: changes with at most
twice the context between them share one, and every hunk is padded with context
lines.  The context is an `int` of the caller's choice, so sums with it wrap
around at 64 bits; an index that has wrapped out of its slice is a panic, which
the model reports as no result.
-/

namespace Nipa

namespace Text

/-- A line of a hunk with its number on either side, which is 0 on the side
that does not have the line. -/
structure HunkLine where
  kind : OpKind
  old : ℕ
  new : ℕ
  text : Line
  noNewline : Bool
  deriving DecidableEq

structure Hunk where
  oldStart : ℕ
  oldLines : ℕ
  newStart : ℕ
  newLines : ℕ
  lines : List HunkLine
  deriving DecidableEq

/-- A sum of `int`s. -/
def wrap (i : ℤ) : ℤ :=
  Int.bmod i (2 ^ 64)

/-! ## Grouping -/

/-- The indices of the changed operations. -/
def changes (ops : List Op) : List ℤ :=
  (ops.zipIdx.filter fun e => e.1.kind ≠ .equal).map fun e => (e.2 : ℤ)

/-- The ranges from the group that starts at `start` and has its latest change
at `prev`. -/
def rangesFrom (len context : ℤ) (start prev : ℤ) : List ℤ → List (ℤ × ℤ)
  | [] => [(start, min len (wrap (prev + context + 1)))]
  | c :: cs =>
      if c - prev - 1 > wrap (2 * context) then
        (start, min len (wrap (prev + context + 1))) ::
          rangesFrom len context (max 0 (c - context)) c cs
      else rangesFrom len context start c cs

def hunkRanges (ops : List Op) (context : ℤ) : List (ℤ × ℤ) :=
  match changes ops with
  | [] => []
  | c :: cs => rangesFrom ops.length context (max 0 (c - context)) c cs

/-! ## Line numbers -/

/-- How many of the operations before each index satisfy `p`. -/
def prefixCounts (p : Op → Bool) : ℕ → List Op → List ℕ
  | n, [] => [n]
  | n, op :: ops => n :: prefixCounts p (if p op then n + 1 else n) ops

/-- The start and count of a hunk on one side; with no line on that side, the
start is the line before the change. -/
def hunkStartCount (pre : List ℕ) (start stop : ℤ) : Option (ℕ × ℕ) := do
  let s ← at? pre start
  let e ← at? pre stop
  if e - s = 0 then some (s, 0) else some (s + 1, e - s)

/-- One line of a hunk. -/
def hunkLine (ops : List Op) (preA preB : List ℕ) (i : ℕ) : Option HunkLine := do
  let op ← at? ops i
  let old ← if op.kind ≠ .added then (at? preA i).map (· + 1) else some 0
  let new ← if op.kind ≠ .removed then (at? preB i).map (· + 1) else some 0
  some ⟨op.kind, old, new, op.line, !endsInNewline op.line && op.kind ≠ .equal⟩

def hunk (ops : List Op) (preA preB : List ℕ) (r : ℤ × ℤ) : Option Hunk := do
  let (aStart, aCount) ← hunkStartCount preA r.1 r.2
  let (bStart, bCount) ← hunkStartCount preB r.1 r.2
  -- the slice for the lines is allocated with capacity r.2 - r.1
  if r.2 < r.1 then none
  else
    let lines ← (List.range' r.1.toNat (r.2 - r.1).toNat).mapM (hunkLine ops preA preB)
    some ⟨aStart, aCount, bStart, bCount, lines⟩

/-- The hunks of an edit script. -/
def hunksOf (ops : List Op) (context : ℤ) : Option (List Hunk) :=
  (hunkRanges ops context).mapM
    (hunk ops (prefixCounts (fun op => op.kind ≠ .added) 0 ops)
      (prefixCounts (fun op => op.kind ≠ .removed) 0 ops))

/-- The hunks between two texts compared exactly. -/
def hunks (old new : List UInt8) (context : ℤ) : Option (List Hunk) := do
  let ops ← lines (splitLines old) (splitLines new)
  hunksOf ops context

/-! ## Looking up a line -/

/-- The side of a diff that a comment is anchored to. -/
inductive Side where
  | left
  | right
  deriving DecidableEq

/-- The line has the number `lineNo` on the side. -/
def HunkLine.isAt (side : Side) (lineNo : ℕ) (l : HunkLine) : Bool :=
  match side with
  | .left => l.kind ≠ .added && l.old = lineNo
  | .right => l.kind ≠ .removed && l.new = lineNo

/-- The first hunk and line with the number on the side. -/
def hunkLineAt (side : Side) (lineNo : ℕ) : List Hunk → Option (Hunk × HunkLine)
  | [] => none
  | h :: hs =>
      match h.lines.find? (HunkLine.isAt side lineNo) with
      | some l => some (h, l)
      | none => hunkLineAt side lineNo hs

end Text

end Nipa
