import Nipa.Support.Increasing
import Nipa.Support.Strings

/-!
# Table diffs

Two tables are compared row by row.  Columns are aligned by name or by position, rows by a
key column or by their content; what keeps its order is aligned first, and leftover rows in
one place are paired when they are similar.  An index that the code gives as -1 is `none`.
-/

namespace Nipa

open Support

namespace Preview

/-! ## Alignment -/

structure Pair where
  old : Option ℕ
  new : Option ℕ
  moved : Bool

namespace Pair

def removed (i : ℕ) : Pair := ⟨some i, none, false⟩

def added (j : ℕ) : Pair := ⟨none, some j, false⟩

/-- Both sides are there. -/
def isMatch (p : Pair) : Bool :=
  p.old.isSome && p.new.isSome

end Pair

section Align

variable {κ : Type} [DecidableEq κ]

/-- The index of a key; the last one if there are several. -/
def indexAt (k : κ) : List κ → Option ℕ
  | [] => none
  | x :: xs =>
      match indexAt k xs with
      | some i => some (i + 1)
      | none => if x = k then some 0 else none

def matchOf (a b : List κ) : List (Option ℕ) :=
  b.map fun k => indexAt k a

/-- The positions that have a match. -/
def matchedPositions (found : List (Option ℕ)) : List ℕ :=
  (List.range found.length).filter fun j => found[j]?.join.isSome

def longestIncreasing (js : List ℕ) (value : ℕ → ℕ) : List ℕ :=
  (longestPositions (fun n => value (js.getD n 0)) js.length).map fun n => js.getD n 0

def stablePositions (found : List (Option ℕ)) : List ℕ :=
  longestIncreasing (matchedPositions found) fun j => found[j]?.join.getD 0

/-- The old entries without a match from `i` on, up to `stop`. -/
def flush (matchedOld : List ℕ) (i stop : ℕ) : List Pair :=
  ((List.range' i (stop - i)).filter fun x => x ∉ matchedOld).map Pair.removed

/-- The new entries from position `j` on; the old ones before `i` have been flushed. -/
def alignFrom (stable matchedOld : List ℕ) (oldLength : ℕ) : ℕ → ℕ → List (Option ℕ) → List Pair
  | i, _, [] => flush matchedOld i oldLength
  | i, j, some m :: found =>
      if j ∈ stable then
        flush matchedOld i m ++
          ⟨some m, some j, false⟩ :: alignFrom stable matchedOld oldLength (m + 1) (j + 1) found
      else ⟨some m, some j, true⟩ :: alignFrom stable matchedOld oldLength i (j + 1) found
  | i, j, none :: found => .added j :: alignFrom stable matchedOld oldLength i (j + 1) found

def alignUnique (a b : List κ) : List Pair :=
  let found := matchOf a b
  alignFrom (stablePositions found) (found.filterMap id) a.length 0 0 found

end Align

/-! ## Tables -/

structure Table where
  rows : List (List Str)

structure TableColumn where
  name : Str
  oldName : Str
  old : Option ℕ
  new : Option ℕ

inductive RowStatus where
  | same
  | added
  | removed
  | changed
  deriving DecidableEq

/-- Lines are record numbers from 1 on, 0 where the record is absent. -/
structure TableRow where
  status : RowStatus
  oldLine : ℕ
  newLine : ℕ
  cells : List Str
  old : List Str
  changed : List ℕ
  moved : Bool

structure TableDiff where
  columns : List TableColumn
  rows : List TableRow
  keyColumn : Option ℕ
  rowsAdded : ℕ
  rowsRemoved : ℕ
  rowsChanged : ℕ
  rowsMoved : ℕ
  cellsChanged : ℕ
  columnsAdded : ℕ
  columnsRemoved : ℕ

def uniqueNonEmptyFrom (seen : List Str) : List Str → Bool
  | [] => true
  | v :: values => if v = [] ∨ v ∈ seen then false else uniqueNonEmptyFrom (v :: seen) values

def uniqueNonEmpty (values : List Str) : Bool :=
  uniqueNonEmptyFrom [] values

/-- The first row is the header; a missing table has no rows. -/
def header (t : Option Table) : List Str × List (List Str) :=
  match t.elim [] Table.rows with
  | [] => ([], [])
  | head :: rows => (head, rows)

def widest (head : List Str) (rows : List (List Str)) : ℕ :=
  rows.foldl (fun w r => max w r.length) head.length

def cell (row : List Str) (i : Option ℕ) : Str :=
  i.elim [] fun i => row.getD i []

def TableColumn.named (c : TableColumn) : TableColumn :=
  if c.name = [] then { c with name := c.oldName } else c

def columnsByName (oh nh : List Str) : List TableColumn :=
  (alignUnique oh nh).map fun p => ⟨cell nh p.new, cell oh p.old, p.old, p.new⟩

def columnsByPosition (oh nh : List Str) (ow nw : ℕ) : List TableColumn :=
  (List.range (max ow nw)).map fun i =>
    TableColumn.named
      ⟨cell nh (some i), cell oh (some i), if i < ow then some i else none,
        if i < nw then some i else none⟩

def alignColumns (oh nh : List Str) (oldRows newRows : List (List Str)) : List TableColumn :=
  let ow := widest oh oldRows
  let nw := widest nh newRows
  let cols := columnsByName oh nh
  if uniqueNonEmpty oh && uniqueNonEmpty nh && ow == oh.length && nw == nh.length &&
      ((cols.any fun c => c.old.isSome && c.new.isSome) || oh.isEmpty || nh.isEmpty) then
    cols.map TableColumn.named
  else columnsByPosition oh nh ow nw

def separator : Char := Char.ofNat 0x1f

/-- The cells of every row in the given columns, joined. -/
def project (rows : List (List Str)) (sides : List (Option ℕ)) : List Str :=
  rows.map fun row => joinWith separator (sides.map fun i => cell row i)

def nul : Char := Char.ofNat 0

/-- Equal keys are numbered. -/
def occurrencesFrom (seen : List Str) : List Str → List Str
  | [] => []
  | k :: keys =>
      (k ++ nul :: (toString (seen.count k)).toList) :: occurrencesFrom (k :: seen) keys

def occurrences (keys : List Str) : List Str :=
  occurrencesFrom [] keys

def similar (a b : List Str) (common : List TableColumn) : Bool :=
  common.length ≤ 2 ||
    common.length ≤ 2 * common.countP fun c => cell a c.old == cell b c.new

def similarWindow : ℕ := 64

/-- The leftover rows of one place: an added row is paired with the first similar removed
row of the window; what was removed before that one comes out first. -/
def pairRun (alike : ℕ → ℕ → Bool) (removed : List ℕ) : List ℕ → List ℕ → List Pair
  | [], rest => removed.map Pair.removed ++ rest.map Pair.added
  | j :: added, rest =>
      match (removed.take similarWindow).findIdx? fun i => alike i j with
      | none => pairRun alike removed added (rest ++ [j])
      | some x =>
          (removed.take x).map Pair.removed ++
            ⟨removed[x]?, some j, false⟩ :: pairRun alike (removed.drop (x + 1)) added rest

def pairChanged (alike : ℕ → ℕ → Bool) : List Pair → List Pair
  | [] => []
  | p :: pairs =>
      if p.isMatch then p :: pairChanged alike pairs
      else
        let run := (p :: pairs).takeWhile fun q => !q.isMatch
        pairRun alike ((run.filter fun q => q.new.isNone).filterMap Pair.old)
          (run.filterMap Pair.new) [] ++
          pairChanged alike (pairs.dropWhile fun q => !q.isMatch)
  termination_by pairs => pairs.length
  decreasing_by
    · simp
    · have hle := (List.dropWhile_sublist (p := fun q : Pair => !q.isMatch) (l := pairs)).length_le
      simp only [List.length_cons]
      omega

def tableRow (columns : List TableColumn) (oldRows newRows : List (List Str)) (p : Pair) :
    TableRow :=
  let o := p.old.elim [] fun i => oldRows.getD i []
  let n := p.new.elim [] fun j => newRows.getD j []
  let changed := (List.range columns.length).filter fun i =>
    columns[i]?.any fun c =>
      p.isMatch && c.old.isSome && c.new.isSome && cell o c.old != cell n c.new
  let status :=
    if p.old.isNone then .added
    else if p.new.isNone then .removed
    else if changed ≠ [] then .changed
    else RowStatus.same
  { status := status
    oldLine := p.old.elim 0 fun i => i + 2
    newLine := p.new.elim 0 fun j => j + 2
    cells := columns.map fun c =>
      if p.new.isSome && c.new.isSome then cell n c.new else cell o c.old
    old := if status = .changed then columns.map fun c => cell o c.old else []
    changed := changed
    moved := p.moved }

def TableDiff.addRow (d : TableDiff) (r : TableRow) : TableDiff :=
  { d with
    rows := d.rows ++ [r]
    rowsAdded := d.rowsAdded + if r.status = .added then 1 else 0
    rowsRemoved := d.rowsRemoved + if r.status = .removed then 1 else 0
    rowsChanged := d.rowsChanged + if r.status = .changed then 1 else 0
    cellsChanged := d.cellsChanged + if r.status = .changed then r.changed.length else 0
    rowsMoved := d.rowsMoved + if r.moved then 1 else 0 }

/-- The indexes of the columns that both tables have. -/
def commonColumns (columns : List TableColumn) : List ℕ :=
  (List.range columns.length).filter fun i =>
    columns[i]?.any fun c => c.old.isSome && c.new.isSome

/-- The column rows are matched by, if there is one, and the aligned rows. -/
def alignRows (columns : List TableColumn) (oldRows newRows : List (List Str)) :
    Option ℕ × List Pair :=
  let common := commonColumns columns
  let shared := common.filterMap fun i => columns[i]?
  let oldKeys := project oldRows ((shared.take 1).map TableColumn.old)
  let newKeys := project newRows ((shared.take 1).map TableColumn.new)
  if !common.isEmpty && uniqueNonEmpty oldKeys && uniqueNonEmpty newKeys then
    (common.head?, alignUnique oldKeys newKeys)
  else
    let oldKeys := occurrences (project oldRows (shared.map TableColumn.old))
    let newKeys := occurrences (project newRows (shared.map TableColumn.new))
    let alike := fun i j => similar (oldRows.getD i []) (newRows.getD j []) shared
    (none, pairChanged alike (alignUnique oldKeys newKeys))

def diffTables (old new : Option Table) : TableDiff :=
  let oldRows := (header old).2
  let newRows := (header new).2
  let columns := alignColumns (header old).1 (header new).1 oldRows newRows
  let aligned := alignRows columns oldRows newRows
  let d : TableDiff :=
    { columns := columns
      rows := []
      keyColumn := aligned.1
      rowsAdded := 0
      rowsRemoved := 0
      rowsChanged := 0
      rowsMoved := 0
      cellsChanged := 0
      columnsAdded := columns.countP fun c => c.old.isNone
      columnsRemoved := columns.countP fun c => c.old.isSome && c.new.isNone }
  (aligned.2.map (tableRow columns oldRows newRows)).foldl TableDiff.addRow d

end Preview

end Nipa
