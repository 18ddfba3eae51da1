import Nipa.Diff.ConservedChanges
import Nipa.Text.HunkGroups

/-!
# Patches and ignored changes

A change is printed as a patch, and a list of changes is filtered for those that
the whitespace options leave nothing of.  Both decide on their own whether there
is anything to show.  A modified file whose lines are all equal under the options
has an empty patch even when its mode changed, while the filter keeps every change
of a mode, and keeps everything when no whitespace option is set.
-/

namespace Nipa

open Support

namespace Diff

open Text

/-! ## Comparing lines -/

/-- The options a diff is rendered with. -/
structure Options where
  context : ℤ
  ignoreAllSpace : Bool
  ignoreSpaceChange : Bool

/-- The width of the white space a byte string begins with, 0 without one.  The
first byte of an encoded space never continues another character, so looking at
every byte finds the spaces of a decoded string. -/
def spaceWidth (s : List UInt8) : ℕ :=
  if s.take 1 ∈ [[0x09], [0x0A], [0x0B], [0x0C], [0x0D], [0x20]] then 1
  else if s.take 2 ∈ [[0xC2, 0x85], [0xC2, 0xA0]] then 2
  else if s.take 3 ∈ [[0xE1, 0x9A, 0x80], [0xE2, 0x80, 0x80], [0xE2, 0x80, 0x81],
      [0xE2, 0x80, 0x82], [0xE2, 0x80, 0x83], [0xE2, 0x80, 0x84], [0xE2, 0x80, 0x85],
      [0xE2, 0x80, 0x86], [0xE2, 0x80, 0x87], [0xE2, 0x80, 0x88], [0xE2, 0x80, 0x89],
      [0xE2, 0x80, 0x8A], [0xE2, 0x80, 0xA8], [0xE2, 0x80, 0xA9], [0xE2, 0x80, 0xAF],
      [0xE2, 0x81, 0x9F], [0xE3, 0x80, 0x80]] then 3
  else 0

/-- The fields from a position on: `skip` bytes belong to a space, and `field` is
the open field. -/
def fieldsFrom : ℕ → List UInt8 → List UInt8 → List (List UInt8)
  | _, field, [] => if field = [] then [] else [field]
  | skip + 1, field, _ :: s => fieldsFrom skip field s
  | 0, field, c :: s =>
      if spaceWidth (c :: s) = 0 then fieldsFrom 0 (field ++ [c]) s
      else if field = [] then fieldsFrom (spaceWidth (c :: s) - 1) [] s
      else field :: fieldsFrom (spaceWidth (c :: s) - 1) [] s

/-- `strings.Fields`. -/
def fields (s : List UInt8) : List (List UInt8) :=
  fieldsFrom 0 [] s

def normalizeLine (line : Line) (o : Options) : Line :=
  let s := if endsInNewline line then line.dropLast else line
  if o.ignoreAllSpace then (fields s).flatten
  else if o.ignoreSpaceChange then [0x20].intercalate (fields s)
  else s

/-- The equality of lines, when the options ask for one. -/
def Options.equalFunc (o : Options) : Option (Line → Line → Bool) :=
  if !o.ignoreAllSpace && !o.ignoreSpaceChange then none
  else some fun a b => normalizeLine a o = normalizeLine b o

/-- The equality a diff uses. -/
def Options.equal (o : Options) : Line → Line → Bool :=
  o.equalFunc.getD fun a b => a = b

/-- The hunks between two texts. -/
def hunksWith (old new : List UInt8) (o : Options) : Option (List Hunk) := do
  let ops ← linesWith (splitLines old) (splitLines new) o.equal
  hunksOf ops o.context

/-! ## Printing -/

section Printing

variable {H : Type} [DecidableEq H]

/-- A change with the contents needed to render it. -/
structure FileDiff (H : Type) where
  change : ScoredChange H
  old : List UInt8
  new : List UInt8
  oldUnavailable : Bool
  newUnavailable : Bool
  deriving DecidableEq

/-- Load the contents of changes; a side whose content cannot be loaded is marked,
and a side that does not exist is empty. -/
def attachContents (changes : List (ScoredChange H))
    (load : Option (Entry H → Bool → Option (List UInt8))) : List (FileDiff H) :=
  changes.map fun c =>
    let attach (e : Entry H) (isNew : Bool) : Option (List UInt8) := load.bind fun l => l e isNew
    let old := attach c.old false
    let new := attach c.new true
    match c.status with
    | .added => ⟨c, [], new.getD [], false, new.isNone⟩
    | .deleted => ⟨c, old.getD [], [], old.isNone, false⟩
    | .modified | .renamed => ⟨c, old.getD [], new.getD [], old.isNone, new.isNone⟩

def bytes (s : String) : Line :=
  utf8 s.toList

def number (n : ℕ) : Line :=
  utf8 n.repr.toList

def contentUnavailable : Line :=
  bytes "content not available locally (run 'nipa update' to fetch it)"

/-- A file mode as an octal mode. -/
def modeString (mode : ℕ) : Line :=
  if mode = 1 then bytes "100444"
  else if mode = 3 then bytes "100755"
  else bytes "100644"

def headerLine (c : ScoredChange H) : Line :=
  let oldPath := if c.status = .renamed then c.old.path else c.path
  bytes "diff --nipa a/" ++ utf8 oldPath ++ bytes " b/" ++ utf8 c.path

def modeLines (c : ScoredChange H) : List Line :=
  if c.old.mode ≠ c.new.mode then
    [bytes "old mode " ++ modeString c.old.mode, bytes "new mode " ++ modeString c.new.mode]
  else []

/-- The lines of a patch before the contents. -/
def patchHead (c : ScoredChange H) : List Line :=
  headerLine c ::
    match c.status with
    | .added => [bytes "new file mode " ++ modeString c.new.mode]
    | .deleted => [bytes "deleted file mode " ++ modeString c.old.mode]
    | .renamed => modeLines c ++
        (if 0 < c.similarity then [bytes "similarity index " ++ number c.similarity ++ bytes "%"]
        else []) ++
        [bytes "rename from " ++ utf8 c.old.path, bytes "rename to " ++ utf8 c.path]
    | .modified => modeLines c

/-- The patch ends after its head: the contents are the same. -/
def endsAtHead (c : ScoredChange H) : Bool :=
  match c.status with
  | .renamed => c.old.hash = c.new.hash
  | .modified => c.old.mode ≠ c.new.mode ∧ c.old.hash = c.new.hash
  | .added | .deleted => false

def oldName (c : ScoredChange H) : Line :=
  match c.status with
  | .added => bytes "/dev/null"
  | .renamed => bytes "a/" ++ utf8 c.old.path
  | .deleted | .modified => bytes "a/" ++ utf8 c.path

def newName (c : ScoredChange H) : Line :=
  if c.status = .deleted then bytes "/dev/null" else bytes "b/" ++ utf8 c.path

def hunkHeader (h : Hunk) : Line :=
  bytes "@@ -" ++ number h.oldStart ++ bytes "," ++ number h.oldLines ++ bytes " +" ++
    number h.newStart ++ bytes "," ++ number h.newLines ++ bytes " @@"

def kindByte : OpKind → UInt8
  | .equal => 0x20
  | .removed => 0x2D
  | .added => 0x2B

def renderLine (l : HunkLine) : List Line :=
  (kindByte l.kind :: if endsInNewline l.text then l.text.dropLast else l.text) ::
    if l.noNewline then [bytes "\\ No newline at end of file"] else []

def renderHunk (h : Hunk) : List Line :=
  hunkHeader h :: h.lines.flatMap renderLine

def renderHunks (hunks : List Hunk) : List Line :=
  hunks.flatMap renderHunk

/-- The lines of the patch of one change. -/
def filePatch (f : FileDiff H) (o : Options) : Option (List Line) :=
  let c := f.change
  if endsAtHead c then some (patchHead c)
  else if c.old.isBinary || c.new.isBinary then
    some (patchHead c ++
      [bytes "Binary files " ++ oldName c ++ bytes " and " ++ newName c ++ bytes " differ"])
  else if f.oldUnavailable || f.newUnavailable then some (patchHead c ++ [contentUnavailable])
  else do
    let hunks ← hunksWith f.old f.new o
    if renderHunks hunks ≠ [] then
      return patchHead c ++ [bytes "--- " ++ oldName c, bytes "+++ " ++ newName c] ++
        renderHunks hunks
    else if c.status = .added ∨ c.status = .deleted ∨ c.status = .renamed then
      return patchHead c
    else
      -- every difference is ignored by the whitespace options
      return []

/-! ## Filtering -/

/-- Whether the filter keeps a change. -/
def keepsChange (equal : Line → Line → Bool) (f : FileDiff H) : Option Bool :=
  let c := f.change
  if c.status ≠ .modified ∨ c.old.hash = c.new.hash ∨ c.old.mode ≠ c.new.mode then some true
  else if f.oldUnavailable || f.newUnavailable || c.old.isBinary || c.new.isBinary then some true
  else do
    let ops ← linesWith (splitLines f.old) (splitLines f.new) equal
    return hunkRanges ops 0 ≠ []

def filterWith (equal : Line → Line → Bool) : List (FileDiff H) → Option (List (FileDiff H))
  | [] => some []
  | f :: files => do
      let keeps ← keepsChange equal f
      let kept ← filterWith equal files
      return if keeps then f :: kept else kept

/-- Drop the modified files that the whitespace options leave nothing of. -/
def filterIgnored (files : List (FileDiff H)) (o : Options) : Option (List (FileDiff H)) :=
  match o.equalFunc with
  | none => some files
  | some equal => filterWith equal files

end Printing

/-! ## Equal lines -/

section Lines

variable {equal : Line → Line → Bool} {a b : List Line} {ops : List Op}

/-- No line differs. -/
def SameLines (equal : Line → Line → Bool) (a b : List Line) : Prop :=
  List.Forall₂ (fun s t => equal s t = true) a b

theorem sameLines_of_script {i j : ℕ} (h : IsScript equal i j a b ops)
    (hops : ops.countP Op.edits = 0) : SameLines equal a b := by
  induction h with
  | nil => exact List.Forall₂.nil
  | keep heq _ ih =>
      rw [List.countP_cons_of_neg (by simp [Op.edits])] at hops
      exact List.Forall₂.cons heq (ih hops)
  | remove _ _ => simp [Op.edits] at hops
  | add _ _ => simp [Op.edits] at hops

theorem SameLines.exists_script (h : SameLines equal a b) (i j : ℕ) :
    ∃ ops, IsScript equal i j a b ops ∧ ops.countP Op.edits = 0 := by
  induction h generalizing i j with
  | nil => exact ⟨[], IsScript.nil, rfl⟩
  | cons heq _ ih =>
      obtain ⟨ops, hscript, hops⟩ := ih (i + 1) (j + 1)
      refine ⟨_, IsScript.keep heq hscript, ?_⟩
      rw [List.countP_cons_of_neg (by simp [Op.edits])]
      exact hops

theorem changes_eq_nil_iff : Text.changes ops = [] ↔ ops.countP Op.edits = 0 := by
  rw [Text.changes, List.map_eq_nil_iff, List.filter_eq_nil_iff, List.countP_eq_zero]
  constructor
  · intro h op hop
    obtain ⟨i, hi⟩ := List.mem_iff_getElem?.mp hop
    exact h (op, i) (List.mem_zipIdx_iff_getElem?.mpr hi)
  · intro h e he
    exact h e.1 (List.mem_of_getElem? (List.mem_zipIdx_iff_getElem?.mp he))

theorem hunkRanges_eq_nil_iff (context : ℤ) :
    hunkRanges ops context = [] ↔ ops.countP Op.edits = 0 := by
  rw [← changes_eq_nil_iff, hunkRanges]
  cases Text.changes ops with
  | nil => simp
  | cons c cs =>
      simp only [reduceCtorEq, iff_false]
      obtain ⟨prev, rs, hranges⟩ :=
        rangesFrom_head ops.length context (max 0 (c - context)) c cs
      rw [hranges]
      exact List.cons_ne_nil _ rs

theorem exists_lines (equal : Line → Line → Bool) (a b : List Line) :
    ∃ ops, linesWith a b equal = some ops ∧
      ∀ context, hunkRanges ops context = [] ↔ SameLines equal a b := by
  obtain ⟨ops, hops, hscript, hshortest⟩ := linesWith_spec a b equal
  refine ⟨ops, hops, ?_⟩
  intro context
  rw [hunkRanges_eq_nil_iff]
  constructor
  · exact sameLines_of_script hscript
  · intro hsame
    obtain ⟨ops', hscript', hops'⟩ := hsame.exists_script 0 0
    have hle := hshortest.le hscript'
    omega

end Lines

/-! ## Nothing to show -/

section Shows

variable {H : Type} [DecidableEq H] {f : FileDiff H} {o : Options}

/-- The contents of a change are compared line by line. -/
def IsText (f : FileDiff H) : Prop :=
  f.change.old.isBinary = false ∧ f.change.new.isBinary = false ∧
    f.oldUnavailable = false ∧ f.newUnavailable = false

theorem renderHunks_eq_nil_iff (hunks : List Hunk) : renderHunks hunks = [] ↔ hunks = [] := by
  cases hunks with
  | nil => simp [renderHunks]
  | cons h hunks => simp [renderHunks, renderHunk]

theorem hunksWith_eq_nil_iff (old new : List UInt8) (o : Options) :
    hunksWith old new o = some [] ↔ SameLines o.equal (splitLines old) (splitLines new) := by
  obtain ⟨ops, hops, hranges⟩ := exists_lines o.equal (splitLines old) (splitLines new)
  rw [hunksWith, hops, Option.bind_eq_bind, Option.bind_some, hunksOf, ← hranges o.context]
  cases hunkRanges ops o.context with
  | nil => simp
  | cons r rs =>
      simp only [reduceCtorEq, iff_false]
      intro h
      obtain ⟨_, _, -, -, hcons⟩ := mapM_cons_eq_some h
      cases hcons

/-- A patch is empty when the change is a modification of a text whose lines are
all equal under the options. -/
theorem filePatch_eq_nil_iff : filePatch f o = some [] ↔
    f.change.status = .modified ∧ ¬ endsAtHead f.change = true ∧ IsText f ∧
      SameLines o.equal (splitLines f.old) (splitLines f.new) := by
  have hhead : patchHead f.change ≠ [] := by simp [patchHead]
  rw [filePatch, IsText, ← hunksWith_eq_nil_iff]
  by_cases hends : endsAtHead f.change = true
  · simp [hends, hhead]
  rw [if_neg hends]
  by_cases hbinary : (f.change.old.isBinary || f.change.new.isBinary) = true
  · rw [if_pos hbinary]
    simp only [Bool.or_eq_true] at hbinary
    rcases hbinary with h | h <;> simp [h]
  rw [if_neg hbinary]
  by_cases hunavailable : (f.oldUnavailable || f.newUnavailable) = true
  · rw [if_pos hunavailable]
    simp only [Bool.or_eq_true] at hunavailable
    rcases hunavailable with h | h <;> simp [h]
  rw [if_neg hunavailable]
  simp only [Bool.or_eq_true, not_or, Bool.not_eq_true] at hbinary hunavailable
  rcases hhunks : hunksWith f.old f.new o with _ | hunks
  · simp
  · simp only [Option.bind_eq_bind, Option.bind_some]
    by_cases hnil : hunks = []
    · subst hnil
      cases hstatus : f.change.status <;>
        simp [renderHunks, hhead, hends, hbinary, hunavailable]
    · have hrender : renderHunks hunks ≠ [] := by rwa [ne_eq, renderHunks_eq_nil_iff]
      simp [hrender, hhead, hnil]

/-- The filter keeps everything but modifications in contents alone of texts whose
lines are all equal. -/
theorem keepsChange_eq (equal : Line → Line → Bool) (f : FileDiff H) :
    ∃ keeps, keepsChange equal f = some keeps ∧
      (keeps = true ↔ ¬ (f.change.status = .modified ∧ f.change.old.hash ≠ f.change.new.hash ∧
        f.change.old.mode = f.change.new.mode ∧ IsText f ∧
          SameLines equal (splitLines f.old) (splitLines f.new))) := by
  obtain ⟨ops, hops, hranges⟩ := exists_lines equal (splitLines f.old) (splitLines f.new)
  rw [keepsChange, IsText, ← hranges 0]
  by_cases hkind : f.change.status ≠ .modified ∨ f.change.old.hash = f.change.new.hash ∨
      f.change.old.mode ≠ f.change.new.mode
  · refine ⟨true, if_pos hkind, ?_⟩
    simp only [true_iff]
    rintro ⟨hstatus, hhash, hmode, -⟩
    rcases hkind with h | h | h
    · exact h hstatus
    · exact hhash h
    · exact h hmode
  rw [if_neg hkind]
  push Not at hkind
  by_cases hcontents : (f.oldUnavailable || f.newUnavailable || f.change.old.isBinary ||
      f.change.new.isBinary) = true
  · refine ⟨true, if_pos hcontents, ?_⟩
    simp only [true_iff]
    rintro ⟨-, -, -, ⟨hold, hnew, hoa, hna⟩, -⟩
    simp [hold, hnew, hoa, hna] at hcontents
  · refine ⟨decide (hunkRanges ops 0 ≠ []), ?_, ?_⟩
    · rw [if_neg hcontents, hops]
      rfl
    · simp only [Bool.or_eq_true, not_or, Bool.not_eq_true] at hcontents
      simp [hkind, hcontents]

theorem filterWith_eq (equal : Line → Line → Bool) (files : List (FileDiff H)) :
    ∃ kept, filterWith equal files = some kept ∧
      ∀ f, f ∈ kept ↔ f ∈ files ∧ keepsChange equal f = some true := by
  induction files with
  | nil => exact ⟨[], rfl, by simp⟩
  | cons f files ih =>
      obtain ⟨kept, hkept, hmem⟩ := ih
      obtain ⟨keeps, hkeeps, -⟩ := keepsChange_eq equal f
      refine ⟨if keeps then f :: kept else kept, ?_, ?_⟩
      · rw [filterWith, hkeeps, hkept]
        rfl
      · intro g
        cases keeps with
        | true =>
            simp only [if_true, List.mem_cons, hmem]
            constructor
            · rintro (rfl | hg)
              · exact ⟨Or.inl rfl, hkeeps⟩
              · exact ⟨Or.inr hg.1, hg.2⟩
            · rintro ⟨rfl | hg, hkeep⟩
              · exact Or.inl rfl
              · exact Or.inr ⟨hg, hkeep⟩
        | false =>
            simp only [Bool.false_eq_true, if_false, List.mem_cons, hmem]
            constructor
            · exact fun hg => ⟨Or.inr hg.1, hg.2⟩
            · rintro ⟨rfl | hg, hkeep⟩
              · rw [hkeeps] at hkeep
                cases hkeep
              · exact ⟨hg, hkeep⟩

end Shows

/-! ## When filter and patch agree -/

section Agree

variable {H : Type} [DecidableEq H]

/-- The change survives the filter. -/
def Survives (files : List (FileDiff H)) (o : Options) (f : FileDiff H) : Prop :=
  ∃ kept, filterIgnored files o = some kept ∧ f ∈ kept

/-- A modified text without a line that differs under the options, although its
content hash changed. -/
def OnlyIgnored (o : Options) (f : FileDiff H) : Prop :=
  f.change.status = .modified ∧ f.change.old.hash ≠ f.change.new.hash ∧ IsText f ∧
    SameLines o.equal (splitLines f.old) (splitLines f.new)

theorem survives_iff {files : List (FileDiff H)} {f : FileDiff H} (hf : f ∈ files)
    (o : Options) : Survives files o f ↔
      ¬ (OnlyIgnored o f ∧ f.change.old.mode = f.change.new.mode ∧ o.equalFunc ≠ none) := by
  rw [Survives, filterIgnored, OnlyIgnored]
  rcases hequal : o.equalFunc with _ | equal
  · simpa using hf
  · have ho : o.equal = equal := by rw [Options.equal, hequal, Option.getD_some]
    obtain ⟨kept, hkept, hmem⟩ := filterWith_eq equal files
    obtain ⟨keeps, hkeeps, hiff⟩ := keepsChange_eq equal f
    rw [ho]
    constructor
    · rintro ⟨kept', hkept', hin⟩ ⟨⟨hstatus, hhash, htext, hsame⟩, hmode, -⟩
      obtain rfl : kept = kept' := Option.some.inj (hkept.symm.trans hkept')
      have hkeep := ((hmem f).mp hin).2
      rw [hkeeps, Option.some.injEq] at hkeep
      exact hiff.mp hkeep ⟨hstatus, hhash, hmode, htext, hsame⟩
    · intro hshows
      refine ⟨kept, hkept, (hmem f).mpr ⟨hf, ?_⟩⟩
      rw [hkeeps, Option.some.injEq, hiff]
      rintro ⟨hstatus, hhash, hmode, htext, hsame⟩
      exact hshows ⟨⟨hstatus, hhash, htext, hsame⟩, hmode, by simp⟩

variable [HashScheme H] {order : MapOrder} {old new : FileMap H}

theorem compared_modified {c : ScoredChange H} (hc : c ∈ compared order old new)
    (hstatus : c.status = .modified) : c.old.hash ≠ c.new.hash ∨ c.old.mode ≠ c.new.mode := by
  obtain ⟨d, rfl, hd⟩ := mem_compared.mp hc
  revert hd
  rcases old.entries.lookup d.path with _ | o <;> rcases new.entries.lookup d.path with _ | n
  · intro hd
    cases hd
  · intro hd
    rw [← Option.some.inj hd] at hstatus
    cases hstatus
  · intro hd
    rw [← Option.some.inj hd] at hstatus
    cases hstatus
  · intro hd
    rw [changeAt] at hd
    split at hd
    next hne =>
      rw [← Option.some.inj hd]
      exact hne
    · cases hd

theorem compared_filePatch_eq_nil_iff {f : FileDiff H}
    (hc : f.change ∈ compared order old new) (o : Options) :
    filePatch f o = some [] ↔ OnlyIgnored o f := by
  rw [filePatch_eq_nil_iff, OnlyIgnored]
  refine and_congr_right fun hstatus => and_congr_left fun _ => ?_
  have hends : endsAtHead f.change =
      decide (f.change.old.mode ≠ f.change.new.mode ∧ f.change.old.hash = f.change.new.hash) := by
    rw [endsAtHead, hstatus]
  rw [hends, decide_eq_true_eq]
  have hmodified := compared_modified hc hstatus
  constructor
  · intro hnot hhash
    rcases hmodified with h | h
    · exact h hhash
    · exact hnot ⟨h, hhash⟩
  · rintro hhash ⟨-, heq⟩
    exact hhash heq

/-- A change of a comparison survives the filter exactly when its patch shows
something, unless no line differs but the mode does or no whitespace option is
set. -/
theorem filterIgnored_agrees_iff (order : MapOrder) (old new : FileMap H)
    {files : List (FileDiff H)} {f : FileDiff H} (hf : f ∈ files)
    (hc : f.change ∈ compared order old new) (o : Options) :
    (Survives files o f ↔ filePatch f o ≠ some []) ↔
      ¬ (OnlyIgnored o f ∧
        (f.change.old.mode ≠ f.change.new.mode ∨ o.equalFunc = none)) := by
  rw [survives_iff hf o, ne_eq, ne_eq (filePatch f o), compared_filePatch_eq_nil_iff hc o]
  by_cases hignored : OnlyIgnored o f
  · by_cases hmode : f.change.old.mode = f.change.new.mode
    · by_cases hequal : o.equalFunc = none <;> simp [hignored, hmode, hequal]
    · simp [hignored, hmode]
  · simp [hignored]

end Agree

/-! ## A mode change with other spaces -/

def scriptEntry (mode : ℕ) (n : UInt8) : Entry IdealHash :=
  ⟨"a.sh".toList, mode, 4, false, [], .digest [n], [.digest [n]], [4]⟩

/-- A text file with a mode and a content hash. -/
def scriptFile (mode : ℕ) (n : UInt8) : FileMap IdealHash where
  entries := AList.singleton "a.sh".toList (scriptEntry mode n)
  keyed := by
    intro p e h
    have h := AList.mem_lookup_iff.mp h
    rw [AList.singleton_entries, List.mem_singleton] at h
    obtain ⟨rfl, he⟩ := Sigma.mk.inj h
    rw [eq_of_heq he]
    rfl

/-- The change between two versions whose lines are `a b` and `ab`. -/
def scriptDiff (newMode : ℕ) : FileDiff IdealHash :=
  ⟨.plain ⟨"a.sh".toList, .modified, scriptEntry 2 1, scriptEntry newMode 2⟩,
    bytes "a b\n", bytes "ab\n", false, false⟩

def scriptDiffs (newMode : ℕ) : List (FileDiff IdealHash) :=
  attachContents (compared .stored (scriptFile 2 1) (scriptFile newMode 2))
    (some fun _ isNew => some (if isNew then bytes "ab\n" else bytes "a b\n"))

def allSpaceIgnored : Options :=
  ⟨3, true, false⟩

/-- Where the mode stays, the filter drops the change and its patch is empty. -/
theorem filterIgnored_agrees_demo :
    Survives (scriptDiffs 2) allSpaceIgnored (scriptDiff 2) ↔
      filePatch (scriptDiff 2) allSpaceIgnored ≠ some [] :=
  (filterIgnored_agrees_iff .stored (scriptFile 2 1) (scriptFile 2 2) (by decide) (by decide)
    allSpaceIgnored).mpr fun h => h.2.elim (fun hmode => hmode rfl) nofun

/-- The file became executable and lost a space: the filter keeps the change, and
its patch is empty. -/
theorem mode_change_not_printed :
    scriptDiff 3 ∈ scriptDiffs 3 ∧
      (scriptDiff 3).change ∈ compared .stored (scriptFile 2 1) (scriptFile 3 2) ∧
      filterIgnored (scriptDiffs 3) allSpaceIgnored = some [scriptDiff 3] ∧
      filePatch (scriptDiff 3) allSpaceIgnored = some [] ∧
      ¬ (Survives (scriptDiffs 3) allSpaceIgnored (scriptDiff 3) ↔
        filePatch (scriptDiff 3) allSpaceIgnored ≠ some []) := by
  have hkept : filterIgnored (scriptDiffs 3) allSpaceIgnored = some [scriptDiff 3] := by
    decide +kernel
  have hpatch : filePatch (scriptDiff 3) allSpaceIgnored = some [] := by
    decide +kernel
  refine ⟨by decide +kernel, by decide, hkept, hpatch, ?_⟩
  rw [hpatch]
  intro h
  exact h.mp ⟨_, hkept, List.mem_singleton_self _⟩ rfl

end Diff

end Nipa
