import Nipa.Text.Hunks
import Nipa.Text.ShortestScript

/-!
# Hunks apply

A patch is applied at the positions its headers state: the lines between hunks
are copied and each hunk replaces exactly the old lines of its body.  The hunks
of a diff apply to the old text, and reversed to the new one, because their
ranges cover every change and leave only kept lines between them.
-/

namespace Nipa

open Support

namespace Text

/-! ## Applying a patch -/

def HunkLine.onOld (l : HunkLine) : Bool :=
  l.kind ≠ .added

def HunkLine.onNew (l : HunkLine) : Bool :=
  l.kind ≠ .removed

def OpKind.reverse : OpKind → OpKind
  | .equal => .equal
  | .removed => .added
  | .added => .removed

def HunkLine.reverse (l : HunkLine) : HunkLine :=
  ⟨l.kind.reverse, l.new, l.old, l.text, l.noNewline⟩

namespace Hunk

/-- How many lines of the old text are before the hunk. -/
def oldPos (h : Hunk) : ℕ :=
  if h.oldLines = 0 then h.oldStart else h.oldStart - 1

def newPos (h : Hunk) : ℕ :=
  if h.newLines = 0 then h.newStart else h.newStart - 1

def oldBody (h : Hunk) : List Line :=
  (h.lines.filter HunkLine.onOld).map HunkLine.text

def newBody (h : Hunk) : List Line :=
  (h.lines.filter HunkLine.onNew).map HunkLine.text

/-- The hunk of the diff in the other direction. -/
def reverse (h : Hunk) : Hunk :=
  ⟨h.newStart, h.newLines, h.oldStart, h.oldLines, h.lines.map HunkLine.reverse⟩

end Hunk

/-- Apply hunks to what is left of a text after its first `pos` lines; a hunk
that starts earlier or does not find its old lines does not apply. -/
def applyHunks : ℕ → List Line → List Hunk → Option (List Line)
  | _, rest, [] => some rest
  | pos, rest, h :: hs =>
      let skip := h.oldPos - pos
      if pos ≤ h.oldPos ∧ skip ≤ rest.length ∧
          (rest.drop skip).take h.oldLines = h.oldBody then
        (applyHunks (h.oldPos + h.oldLines) (rest.drop (skip + h.oldLines)) hs).map
          fun tail => rest.take skip ++ h.newBody ++ tail
      else none

/-- What the hunks between the lines `a` and `b` have to satisfy. -/
structure HunksApply (a b : List Line) (hs : List Hunk) : Prop where
  /-- Applied to the old lines they give the new ones. -/
  apply : applyHunks 0 a hs = some b
  /-- Applied in reverse to the new lines they give the old ones. -/
  reverse : applyHunks 0 b (hs.map Hunk.reverse) = some a
  /-- They are in order and disjoint on both sides. -/
  ordered : hs.Pairwise fun h h' =>
    h.oldPos + h.oldLines ≤ h'.oldPos ∧ h.newPos + h.newLines ≤ h'.newPos
  /-- The header counts the lines of the body from its start on. -/
  headers : ∀ h ∈ hs,
    (h.lines.filter HunkLine.onOld).map HunkLine.old = List.range' h.oldStart h.oldLines ∧
    (h.lines.filter HunkLine.onNew).map HunkLine.new = List.range' h.newStart h.newLines
  /-- A line number is found exactly when a hunk shows it on the side. -/
  lineAt : ∀ side lineNo, (∃ e, hunkLineAt side lineNo hs = some e) ↔
    ∃ h ∈ hs, ∃ l ∈ h.lines, l.isAt side lineNo = true

/-! ## Finding a line -/

theorem hunkLineAt_eq_some {side : Side} {lineNo : ℕ} {hs : List Hunk} {h : Hunk}
    {l : HunkLine} (hfound : hunkLineAt side lineNo hs = some (h, l)) :
    h ∈ hs ∧ l ∈ h.lines ∧ l.isAt side lineNo = true := by
  induction hs with
  | nil => exact absurd hfound (by simp [hunkLineAt])
  | cons h' hs ih =>
      rw [hunkLineAt] at hfound
      split at hfound
      next l' hfind =>
        obtain ⟨rfl, rfl⟩ := Prod.mk.inj (Option.some.inj hfound)
        exact ⟨by simp, List.mem_of_find?_eq_some hfind, List.find?_some hfind⟩
      next =>
        obtain ⟨hmem, hrest⟩ := ih hfound
        exact ⟨List.mem_cons_of_mem _ hmem, hrest⟩

theorem exists_hunkLineAt_iff {side : Side} {lineNo : ℕ} {hs : List Hunk} :
    (∃ e, hunkLineAt side lineNo hs = some e) ↔
      ∃ h ∈ hs, ∃ l ∈ h.lines, l.isAt side lineNo = true := by
  constructor
  · rintro ⟨⟨h, l⟩, hfound⟩
    obtain ⟨hmem, hl, hat⟩ := hunkLineAt_eq_some hfound
    exact ⟨h, hmem, l, hl, hat⟩
  · rintro ⟨h, hmem, l, hl, hat⟩
    induction hs with
    | nil => exact absurd hmem (by simp)
    | cons h' hs ih =>
        rw [hunkLineAt]
        cases hfind : h'.lines.find? (HunkLine.isAt side lineNo) with
        | some l' => exact ⟨_, rfl⟩
        | none =>
            rcases List.mem_cons.mp hmem with rfl | hmem
            · exact absurd hat (List.find?_eq_none.mp hfind l hl)
            · exact ih hmem

/-! ## The texts of an edit script -/

def oldText (ops : List Op) : List Line :=
  (ops.filter Op.onOld).map Op.line

def newText (ops : List Op) : List Line :=
  (ops.filter Op.onNew).map Op.line

@[simp] theorem oldText_append (ops ops' : List Op) :
    oldText (ops ++ ops') = oldText ops ++ oldText ops' := by
  simp [oldText]

@[simp] theorem newText_append (ops ops' : List Op) :
    newText (ops ++ ops') = newText ops ++ newText ops' := by
  simp [newText]

@[simp] theorem oldText_length (ops : List Op) :
    (oldText ops).length = ops.countP Op.onOld := by
  rw [oldText, List.length_map, List.countP_eq_length_filter]

@[simp] theorem newText_length (ops : List Op) :
    (newText ops).length = ops.countP Op.onNew := by
  rw [newText, List.length_map, List.countP_eq_length_filter]

theorem newText_of_equal {ops : List Op} (h : ∀ op ∈ ops, op.kind = .equal) :
    newText ops = oldText ops := by
  rw [newText, oldText]
  congr 1
  refine List.filter_congr fun op hop => ?_
  simp [Op.onOld, Op.onNew, h op hop]

/-! ## Reversed scripts -/

def Op.reverse (op : Op) : Op :=
  ⟨op.kind.reverse, op.line, op.b, op.a⟩

theorem Op.reverse_onOld (op : Op) : op.reverse.onOld = op.onNew := by
  cases h : op.kind <;> simp [Op.reverse, Op.onOld, Op.onNew, OpKind.reverse, h]

theorem Op.reverse_onNew (op : Op) : op.reverse.onNew = op.onOld := by
  cases h : op.kind <;> simp [Op.reverse, Op.onOld, Op.onNew, OpKind.reverse, h]

theorem countP_onOld_reverse (ops : List Op) :
    (ops.map Op.reverse).countP Op.onOld = ops.countP Op.onNew := by
  rw [List.countP_map]
  exact List.countP_congr fun op _ => by simp [op.reverse_onOld]

theorem countP_onNew_reverse (ops : List Op) :
    (ops.map Op.reverse).countP Op.onNew = ops.countP Op.onOld := by
  rw [List.countP_map]
  exact List.countP_congr fun op _ => by simp [op.reverse_onNew]

theorem oldText_reverse (ops : List Op) : oldText (ops.map Op.reverse) = newText ops := by
  rw [oldText, newText, List.filter_map, List.map_map]
  congr 1
  exact List.filter_congr fun op _ => op.reverse_onOld

theorem newText_reverse (ops : List Op) : newText (ops.map Op.reverse) = oldText ops := by
  rw [oldText, newText, List.filter_map, List.map_map]
  congr 1
  exact List.filter_congr fun op _ => op.reverse_onNew

/-! ## The hunk of a range -/

/-- The lines of a hunk, numbered from what is before them. -/
def numbered : ℕ → ℕ → List Op → List HunkLine
  | _, _, [] => []
  | i, j, op :: ops =>
      ⟨op.kind, if op.onOld then i + 1 else 0, if op.onNew then j + 1 else 0, op.line,
        !endsInNewline op.line && op.kind ≠ .equal⟩ ::
      numbered (if op.onOld then i + 1 else i) (if op.onNew then j + 1 else j) ops

/-- The start of a side with `i` lines before the hunk and `count` lines in it. -/
def startOf (i count : ℕ) : ℕ :=
  if count = 0 then i else i + 1

/-- The hunk over some operations, after `i` old and `j` new lines. -/
def hunkOver (i j : ℕ) (ops : List Op) : Hunk :=
  ⟨startOf i (ops.countP Op.onOld), ops.countP Op.onOld, startOf j (ops.countP Op.onNew),
    ops.countP Op.onNew, numbered i j ops⟩

theorem numbered_old (i j : ℕ) (ops : List Op) :
    ((numbered i j ops).filter HunkLine.onOld).map (fun l => (l.text, l.old)) =
      (oldText ops).zipIdx (i + 1) := by
  induction ops generalizing i j with
  | nil => rfl
  | cons op ops ih =>
      by_cases h : op.kind = .added <;>
        simp [numbered, oldText, HunkLine.onOld, Op.onOld, h, List.zipIdx_cons] at ih ⊢ <;>
        exact ih _ _

theorem numbered_new (i j : ℕ) (ops : List Op) :
    ((numbered i j ops).filter HunkLine.onNew).map (fun l => (l.text, l.new)) =
      (newText ops).zipIdx (j + 1) := by
  induction ops generalizing i j with
  | nil => rfl
  | cons op ops ih =>
      by_cases h : op.kind = .removed <;>
        simp [numbered, newText, HunkLine.onNew, Op.onNew, h, List.zipIdx_cons] at ih ⊢ <;>
        exact ih _ _

theorem numbered_reverse (i j : ℕ) (ops : List Op) :
    (numbered i j ops).map HunkLine.reverse = numbered j i (ops.map Op.reverse) := by
  induction ops generalizing i j with
  | nil => rfl
  | cons op ops ih =>
      rw [numbered, List.map_cons, List.map_cons, numbered, ih, op.reverse_onOld,
        op.reverse_onNew]
      cases h : op.kind <;> simp [HunkLine.reverse, Op.reverse, OpKind.reverse, h]

section HunkOver

variable (i j : ℕ) (ops : List Op)

@[simp] theorem hunkOver_oldPos : (hunkOver i j ops).oldPos = i := by
  simp only [hunkOver, Hunk.oldPos, startOf]
  split <;> rfl

@[simp] theorem hunkOver_newPos : (hunkOver i j ops).newPos = j := by
  simp only [hunkOver, Hunk.newPos, startOf]
  split <;> rfl

@[simp] theorem hunkOver_oldBody : (hunkOver i j ops).oldBody = oldText ops := by
  have h := congrArg (List.map Prod.fst) (numbered_old i j ops)
  rw [List.map_map, List.zipIdx_map_fst] at h
  exact h

@[simp] theorem hunkOver_newBody : (hunkOver i j ops).newBody = newText ops := by
  have h := congrArg (List.map Prod.fst) (numbered_new i j ops)
  rw [List.map_map, List.zipIdx_map_fst] at h
  exact h

theorem hunkOver_reverse :
    (hunkOver i j ops).reverse = hunkOver j i (ops.map Op.reverse) := by
  rw [hunkOver, hunkOver, countP_onOld_reverse, countP_onNew_reverse, Hunk.reverse,
    numbered_reverse]

theorem range'_startOf (i n : ℕ) : List.range' (i + 1) n = List.range' (startOf i n) n := by
  rw [startOf]
  split
  next h => rw [h, List.range'_zero, List.range'_zero]
  next => rfl

theorem hunkOver_headers :
    ((hunkOver i j ops).lines.filter HunkLine.onOld).map HunkLine.old =
        List.range' (hunkOver i j ops).oldStart (hunkOver i j ops).oldLines ∧
      ((hunkOver i j ops).lines.filter HunkLine.onNew).map HunkLine.new =
        List.range' (hunkOver i j ops).newStart (hunkOver i j ops).newLines := by
  constructor
  · have h := congrArg (List.map Prod.snd) (numbered_old i j ops)
    rw [List.map_map, List.zipIdx_map_snd, oldText_length, range'_startOf] at h
    exact h
  · have h := congrArg (List.map Prod.snd) (numbered_new i j ops)
    rw [List.map_map, List.zipIdx_map_snd, newText_length, range'_startOf] at h
    exact h

end HunkOver

/-! ## The hunk the code builds -/

theorem prefixCounts_at? {p : Op → Bool} {ops : List Op} {i : ℕ} (hi : i ≤ ops.length)
    (n : ℕ) : at? (prefixCounts p n ops) i = some (n + (ops.take i).countP p) := by
  rw [at?, if_pos (by omega), Int.toNat_natCast]
  induction ops generalizing i n with
  | nil =>
      obtain rfl : i = 0 := by simpa using hi
      rfl
  | cons op ops ih =>
      cases i with
      | zero => rfl
      | succ i =>
          rw [prefixCounts, List.getElem?_cons_succ, ih (by simpa using hi)]
          rw [List.take_succ_cons, List.countP_cons]
          congr 1
          split <;> omega

/-- The operations in a range. -/
def segment (ops : List Op) (s e : ℕ) : List Op :=
  (ops.drop s).take (e - s)

section Built

variable {ops : List Op} {s e : ℕ}

theorem take_append_segment (h : s ≤ e) : ops.take s ++ segment ops s e = ops.take e := by
  rw [segment, ← List.take_add, Nat.add_sub_cancel' h]

theorem countP_segment (p : Op → Bool) (h : s ≤ e) :
    (ops.take e).countP p = (ops.take s).countP p + (segment ops s e).countP p := by
  rw [← take_append_segment h, List.countP_append]

theorem hunkStartCount_eq (p : Op → Bool) (hse : s ≤ e) (he : e ≤ ops.length) :
    hunkStartCount (prefixCounts p 0 ops) s e =
      some (startOf ((ops.take s).countP p) ((segment ops s e).countP p),
        (segment ops s e).countP p) := by
  rw [hunkStartCount, prefixCounts_at? (hse.trans he), prefixCounts_at? he,
    countP_segment p hse]
  simp only [Option.bind_eq_bind, Option.bind_some, zero_add, Nat.add_sub_cancel_left, startOf]
  split <;> simp [*]

theorem mapM_hunkLine {cnt : ℕ} : ∀ {s : ℕ}, s + cnt ≤ ops.length →
    (List.range' s cnt).mapM (hunkLine ops (prefixCounts Op.onOld 0 ops)
        (prefixCounts Op.onNew 0 ops)) =
      some (numbered ((ops.take s).countP Op.onOld) ((ops.take s).countP Op.onNew)
        ((ops.drop s).take cnt)) := by
  induction cnt with
  | zero => exact fun _ => rfl
  | succ cnt ih =>
      intro s hs
      have hlt : s < ops.length := by omega
      have htake : ops.take (s + 1) = ops.take s ++ [ops[s]] :=
        List.take_succ_eq_append_getElem hlt
      have hline : hunkLine ops (prefixCounts Op.onOld 0 ops)
          (prefixCounts Op.onNew 0 ops) s =
          some ⟨ops[s].kind, if ops[s].onOld then (ops.take s).countP Op.onOld + 1 else 0,
            if ops[s].onNew then (ops.take s).countP Op.onNew + 1 else 0, ops[s].line,
            !endsInNewline ops[s].line && ops[s].kind ≠ .equal⟩ := by
        have hop : at? ops s = some ops[s] := by
          rw [at?, if_pos (by omega), Int.toNat_natCast, List.getElem?_eq_getElem hlt]
        rw [hunkLine, hop, prefixCounts_at? hlt.le, prefixCounts_at? hlt.le]
        by_cases hadded : ops[s].kind = .added <;> by_cases hremoved : ops[s].kind = .removed <;>
          simp [Op.onOld, Op.onNew, hadded, hremoved]
      rw [List.range'_succ, List.mapM_cons, hline, ih (by omega), List.drop_eq_getElem_cons hlt,
        List.take_succ_cons, numbered, htake, List.countP_append, List.countP_append,
        List.countP_singleton, List.countP_singleton]
      cases ops[s].onOld <;> cases ops[s].onNew <;> rfl

theorem hunk_eq (hse : s ≤ e) (he : e ≤ ops.length) :
    hunk ops (prefixCounts Op.onOld 0 ops) (prefixCounts Op.onNew 0 ops) (s, e) =
      some (hunkOver ((ops.take s).countP Op.onOld) ((ops.take s).countP Op.onNew)
        (segment ops s e)) := by
  have hlines := @mapM_hunkLine ops (e - s) s (by omega)
  rw [hunk, hunkStartCount_eq _ hse he, hunkStartCount_eq _ hse he]
  simp only [Option.bind_eq_bind, Option.bind_some]
  rw [if_neg (by omega), Int.toNat_natCast, show ((e : ℤ) - s).toNat = e - s by omega, hlines]
  rfl

end Built

/-! ## Ranges that cover the changes -/

/-- The ranges from `pos` on are in order, and outside of them every line is
kept. -/
def Covers (ops : List Op) : ℕ → List (ℤ × ℤ) → Prop
  | pos, [] => ∀ op ∈ ops.drop pos, op.kind = .equal
  | pos, r :: rs => ∃ s e : ℕ, r = ((s : ℤ), (e : ℤ)) ∧ pos ≤ s ∧ s ≤ e ∧ e ≤ ops.length ∧
      (∀ op ∈ segment ops pos s, op.kind = .equal) ∧ Covers ops e rs

/-- The hunk over a range of the operations. -/
def hunkAt (ops : List Op) (r : ℤ × ℤ) : Hunk :=
  hunkOver ((ops.take r.1.toNat).countP Op.onOld) ((ops.take r.1.toNat).countP Op.onNew)
    (segment ops r.1.toNat r.2.toNat)

section Covering

variable {ops : List Op}

variable {pos : ℕ}

theorem segment_append_drop {s : ℕ} (h : pos ≤ s) :
    segment ops pos s ++ ops.drop s = ops.drop pos := by
  have hdrop : ops.drop s = (ops.drop pos).drop (s - pos) := by
    rw [List.drop_drop, Nat.add_sub_cancel' h]
  rw [segment, hdrop, List.take_append_drop]

theorem segment_map_reverse (s e : ℕ) :
    segment (ops.map Op.reverse) s e = (segment ops s e).map Op.reverse := by
  rw [segment, segment, List.map_take, List.map_drop]

variable {rs : List (ℤ × ℤ)}

theorem Covers.reverse (h : Covers ops pos rs) : Covers (ops.map Op.reverse) pos rs := by
  have hkept : ∀ l : List Op, (∀ op ∈ l, op.kind = .equal) →
      ∀ op ∈ l.map Op.reverse, op.kind = .equal := by
    intro l hl op hop
    obtain ⟨op', hop', rfl⟩ := List.mem_map.mp hop
    rw [Op.reverse, hl op' hop']
    rfl
  induction rs generalizing pos with
  | nil =>
      rw [Covers, ← List.map_drop]
      exact hkept _ h
  | cons r rs ih =>
      obtain ⟨s, e, rfl, hpos, hse, he, hgap, hrest⟩ := h
      refine ⟨s, e, rfl, hpos, hse, by simpa using he, ?_, ih hrest⟩
      rw [segment_map_reverse]
      exact hkept _ hgap

theorem hunkAt_reverse (r : ℤ × ℤ) :
    (hunkAt ops r).reverse = hunkAt (ops.map Op.reverse) r := by
  rw [hunkAt, hunkAt, hunkOver_reverse, segment_map_reverse, ← List.map_take,
    countP_onOld_reverse, countP_onNew_reverse]

theorem Covers.mapM_hunk (h : Covers ops pos rs) :
    rs.mapM (hunk ops (prefixCounts Op.onOld 0 ops) (prefixCounts Op.onNew 0 ops)) =
      some (rs.map (hunkAt ops)) := by
  induction rs generalizing pos with
  | nil => rfl
  | cons r rs ih =>
      obtain ⟨s, e, rfl, -, hse, he, -, hrest⟩ := h
      rw [List.mapM_cons, hunk_eq hse he, ih hrest]
      rfl

theorem Covers.applyHunks (h : Covers ops pos rs) :
    applyHunks ((ops.take pos).countP Op.onOld) (oldText (ops.drop pos))
        (rs.map (hunkAt ops)) = some (newText (ops.drop pos)) := by
  induction rs generalizing pos with
  | nil => rw [List.map_nil, Text.applyHunks, newText_of_equal h]
  | cons r rs ih =>
      obtain ⟨s, e, rfl, hpos, hse, he, hgap, hrest⟩ := h
      have hparts : ops.drop pos = segment ops pos s ++ (segment ops s e ++ ops.drop e) := by
        rw [segment_append_drop hse, segment_append_drop hpos]
      have hskip : (ops.take s).countP Op.onOld - (ops.take pos).countP Op.onOld =
          (oldText (segment ops pos s)).length := by
        rw [countP_segment Op.onOld hpos, oldText_length, Nat.add_sub_cancel_left]
      have hlines : (hunkAt ops (s, e)).oldLines = (oldText (segment ops s e)).length :=
        (oldText_length _).symm
      have hend : (ops.take s).countP Op.onOld + (hunkAt ops (s, e)).oldLines =
          (ops.take e).countP Op.onOld := (countP_segment Op.onOld hse).symm
      have hstart : (hunkAt ops (s, e)).oldPos = (ops.take s).countP Op.onOld :=
        hunkOver_oldPos _ _ _
      rw [List.map_cons, Text.applyHunks]
      simp only [hstart, hskip, hend]
      rw [hlines, hparts]
      simp only [oldText_append, newText_append]
      rw [if_pos]
      · rw [← List.drop_drop, List.drop_left, List.drop_left, ih hrest, List.take_left]
        simp [hunkAt, newText_of_equal hgap]
      · refine ⟨?_, by simp, ?_⟩
        · rw [countP_segment Op.onOld hpos]
          omega
        · rw [List.drop_left, List.take_left, hunkAt, hunkOver_oldBody]
          rfl

theorem Covers.ordered (h : Covers ops pos rs) :
    (∀ h ∈ rs.map (hunkAt ops), (ops.take pos).countP Op.onOld ≤ h.oldPos ∧
      (ops.take pos).countP Op.onNew ≤ h.newPos) ∧
    (rs.map (hunkAt ops)).Pairwise fun h h' =>
      h.oldPos + h.oldLines ≤ h'.oldPos ∧ h.newPos + h.newLines ≤ h'.newPos := by
  induction rs generalizing pos with
  | nil => exact ⟨by simp, List.Pairwise.nil⟩
  | cons r rs ih =>
      obtain ⟨s, e, rfl, hpos, hse, he, -, hrest⟩ := h
      obtain ⟨hafter, hpairwise⟩ := ih hrest
      have hstart : (hunkAt ops (s, e)).oldPos = (ops.take s).countP Op.onOld :=
        hunkOver_oldPos _ _ _
      have hstart' : (hunkAt ops (s, e)).newPos = (ops.take s).countP Op.onNew :=
        hunkOver_newPos _ _ _
      have hend : (hunkAt ops (s, e)).oldPos + (hunkAt ops (s, e)).oldLines =
          (ops.take e).countP Op.onOld := by
        rw [hstart, countP_segment Op.onOld hse]
        rfl
      have hend' : (hunkAt ops (s, e)).newPos + (hunkAt ops (s, e)).newLines =
          (ops.take e).countP Op.onNew := by
        rw [hstart', countP_segment Op.onNew hse]
        rfl
      have hold := @countP_segment ops pos s Op.onOld hpos
      have hnew := @countP_segment ops pos s Op.onNew hpos
      rw [List.map_cons]
      constructor
      · intro h hmem
        rcases List.mem_cons.mp hmem with rfl | hmem
        · omega
        · have hle := hafter h hmem
          omega
      · refine List.pairwise_cons.mpr ⟨fun h hmem => ?_, hpairwise⟩
        have hle := hafter h hmem
        omega

theorem Covers.hunksApply (h : Covers ops 0 rs) :
    HunksApply (oldText ops) (newText ops) (rs.map (hunkAt ops)) := by
  constructor
  case apply => exact h.applyHunks
  case reverse =>
      have hreversed := h.reverse.applyHunks
      rw [List.drop_zero, List.take_zero, List.countP_nil, oldText_reverse,
        newText_reverse] at hreversed
      rw [List.map_map]
      simpa only [Function.comp_def, hunkAt_reverse] using hreversed
  case ordered => exact h.ordered.2
  case headers =>
      intro h hmem
      obtain ⟨r, -, rfl⟩ := List.mem_map.mp hmem
      exact hunkOver_headers _ _ _
  case lineAt => exact fun side lineNo => exists_hunkLineAt_iff

end Covering

end Text

end Nipa
