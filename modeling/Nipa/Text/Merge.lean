import Mathlib.Data.List.Sort
import Nipa.Text.Newlines

/-!
# Three-way text merge

Both sides are diffed against the base.  Their changed ranges are sorted, ranges
that overlap are coalesced into clusters, and each cluster is replaced by the
changing side's lines; where both sides changed it differently, by both sides'
lines between conflict markers.
-/

namespace Nipa

namespace Text

/-! ## Conflict markers -/

/-- `"<<<<<<< ours\n"` -/
def mergeStart : Line :=
  [60, 60, 60, 60, 60, 60, 60, 32, 111, 117, 114, 115, newline]

/-- `"=======\n"` -/
def mergeMid : Line :=
  [61, 61, 61, 61, 61, 61, 61, newline]

/-- `">>>>>>> theirs\n"` -/
def mergeEnd : Line :=
  [62, 62, 62, 62, 62, 62, 62, 32, 116, 104, 101, 105, 114, 115, newline]

/-- End a section with a newline, so that the next marker starts a line. -/
def ensureTrailingNL (lines : List Line) : List Line :=
  match lines.getLast? with
  | none => [[]]
  | some last =>
      if endsInNewline last then lines else lines.dropLast ++ [last ++ [newline]]

def appendConflictMarkers (ours theirs : List Line) : List Line :=
  [mergeStart] ++ ensureTrailingNL ours ++ [mergeMid] ++ ensureTrailingNL theirs ++ [mergeEnd]

/-! ## Changed ranges -/

inductive Which where
  | ours
  | theirs
  deriving DecidableEq

/-- The base lines from `aStart` up to `aEnd` are replaced by the side's lines
from `bStart` up to `bEnd`. -/
structure SRange where
  aStart : ℕ
  aEnd : ℕ
  bStart : ℕ
  bEnd : ℕ
  side : Which
  deriving DecidableEq

/-- The ranges of an edit script; `start` is where the current run of changes
began. -/
def changeRangesFrom (which : Which) : ℕ → ℕ → Option (ℕ × ℕ) → List Op → List SRange
  | aPos, bPos, start, [] => (start.map fun s => ⟨s.1, aPos, s.2, bPos, which⟩).toList
  | aPos, bPos, start, op :: ops =>
      match op.kind with
      | .equal =>
          (start.map fun s => ⟨s.1, aPos, s.2, bPos, which⟩).toList ++
            changeRangesFrom which (op.a + 1) (op.b + 1) none ops
      | .removed =>
          changeRangesFrom which (aPos + 1) bPos (some (start.getD (aPos, bPos))) ops
      | .added =>
          changeRangesFrom which aPos (bPos + 1) (some (start.getD (aPos, bPos))) ops

def changeRanges (base side : List Line) (which : Which) : Option (List SRange) :=
  (lines base side).map (changeRangesFrom which 0 0 none)

/-! ## Clusters -/

/-- The order of the sort: by start, then by end, then ours before theirs. -/
def SRange.before (r r' : SRange) : Prop :=
  r.aStart < r'.aStart ∨ r.aStart = r'.aStart ∧
    (r.aEnd < r'.aEnd ∨ r.aEnd = r'.aEnd ∧ (r.side = .ours ∨ r'.side = .theirs))

instance (r r' : SRange) : Decidable (r.before r') :=
  inferInstanceAs (Decidable (_ ∨ _ ∧ (_ ∨ _ ∧ (_ ∨ _))))

/-- Whether a range overlaps the base span of a cluster; insertions on its
boundary stay separate. -/
def rangesIntersect (cStart cEnd : ℕ) (r : SRange) : Bool :=
  if cStart = cEnd ∧ r.aStart = r.aEnd then cStart = r.aStart
  else if cStart = cEnd then r.aStart < cStart && cStart < r.aEnd
  else if r.aStart = r.aEnd then cStart < r.aStart && r.aStart < cEnd
  else r.aStart < cEnd && cStart < r.aEnd

/-- The lines from `s` up to `e`. -/
def slice (l : List Line) (s e : ℕ) : List Line :=
  (l.drop s).take (e - s)

/-- One side's view of a cluster from `pos` on. -/
def sideViewFrom (side : Which) (base sideLines : List Line) (cEnd : ℕ) :
    ℕ → List SRange → List Line
  | pos, [] => slice base pos cEnd
  | pos, r :: rs =>
      if r.side ≠ side then sideViewFrom side base sideLines cEnd pos rs
      else slice base pos r.aStart ++ slice sideLines r.bStart r.bEnd ++
        sideViewFrom side base sideLines cEnd (min r.aEnd cEnd) rs

def sideView (cluster : List SRange) (side : Which) (base sideLines : List Line)
    (cStart cEnd : ℕ) : List Line :=
  sideViewFrom side base sideLines cEnd cStart cluster

section Loop

variable (base ours theirs : List Line)

/-- What replaces a cluster, and whether it is a conflict. -/
def clusterText (cluster : List SRange) (cStart cEnd : ℕ) : List Line × Bool :=
  let hasA := cluster.any fun r => r.side = .ours
  let hasB := cluster.any fun r => r.side ≠ .ours
  let o := sideView cluster .ours base ours cStart cEnd
  let t := sideView cluster .theirs base theirs cStart cEnd
  if hasA && hasB then
    if o = t then (o, false) else (appendConflictMarkers o t, true)
  else if hasA then (o, false)
  else (t, false)

/-- The rest of the merge from the cluster that has been collected so far. -/
def mergeLoop : ℕ → ℕ → List SRange → List SRange → List Line × Bool
  | cStart, cEnd, cluster, [] =>
      let (text, conflict) := clusterText base ours theirs cluster cStart cEnd
      (text ++ base.drop cEnd, conflict)
  | cStart, cEnd, cluster, r :: rs =>
      if rangesIntersect cStart cEnd r then
        mergeLoop (min cStart r.aStart) (max cEnd r.aEnd) (cluster ++ [r]) rs
      else
        let (text, conflict) := clusterText base ours theirs cluster cStart cEnd
        let (out, conflicted) := mergeLoop r.aStart r.aEnd [r] rs
        (text ++ slice base cEnd r.aStart ++ out, conflict || conflicted)

/-- The merge of sorted ranges. -/
def mergeRanges : List SRange → List Line × Bool
  | [] => (base, false)
  | r :: rs =>
      let (out, conflicted) := mergeLoop base ours theirs r.aStart r.aEnd [r] rs
      (slice base 0 r.aStart ++ out, conflicted)

def mergeLines : Option (List Line × Bool) :=
  if base = [] then
    if ours = [] then some (theirs, false)
    else if theirs = [] then some (ours, false)
    else if ours = theirs then some (ours, false)
    else some (appendConflictMarkers ours theirs, true)
  else do
    let cA ← changeRanges base ours .ours
    let cB ← changeRanges base theirs .theirs
    some (mergeRanges base ours theirs ((cA ++ cB).insertionSort SRange.before))

end Loop

def splitWithNewlines (s : List UInt8) : List Line :=
  if s = [] then [] else splitAfter s

/-- Merge two versions of a base text. -/
def mergeText (base ours theirs : List UInt8) : Option (List UInt8 × Bool) := do
  let (out, conflicted) ←
    mergeLines (splitWithNewlines base) (splitWithNewlines ours) (splitWithNewlines theirs)
  some (out.flatten, conflicted)

end Text

end Nipa
