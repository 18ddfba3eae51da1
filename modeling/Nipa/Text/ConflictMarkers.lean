import Nipa.Text.Conflicts
import Nipa.Text.ConflictSections

/-!
# Conflict markers are read back as they were written

A text that is parsed and composed again is the text.  Every line the merge
writes but the last is terminated or empty, so its output is cut into the lines
it was put together from, and where no line of the inputs is a marker the
markers found are those that were written.
-/

namespace Nipa

namespace Text

/-! ## Composing what was parsed -/

section Compose

variable {χ : Type} [DecidableEq χ] (unit : UInt8 → χ)

theorem piecesAfter_flatten (text : List χ) : (piecesAfter unit text).flatten = text := by
  induction text with
  | nil => rfl
  | cons c cs ih =>
      rw [piecesAfter]
      split
      · rw [List.flatten_cons, ih]
        rfl
      · split
        next h =>
          rw [h] at ih
          rw [← ih]
          rfl
        next l ls h =>
          rw [h] at ih
          rw [← ih]
          rfl

theorem splitLookbehind_flatten (text : List χ) : (splitLookbehind unit text).flatten = text := by
  rw [splitLookbehind]
  split
  next h => rw [h]; rfl
  next => exact piecesAfter_flatten unit text

/-- The text of a segment as it stood in the file. -/
def Segment.text : Segment χ → List χ
  | .same text => text
  | .conflict ours theirs =>
      startMarker unit ++ ours ++ midMarker unit ++ theirs ++ endMarker unit

theorem compose_noPicks (segments : List (Segment χ)) (k : ℕ) :
    compose unit segments (List.replicate k none) =
      (segments.map (Segment.text unit)).flatten := by
  induction segments generalizing k with
  | nil => rfl
  | cons segment segments ih =>
      cases segment with
      | same text =>
          rw [compose, ih, List.map_cons, List.flatten_cons]
          rfl
      | conflict ours theirs =>
          have hpick : (List.replicate k (none : Option BlockPick)).head?.join = none := by
            cases k <;> rfl
          rw [compose, hpick, List.tail_replicate, ih, List.map_cons, List.flatten_cons]
          rfl

omit [DecidableEq χ] in
theorem sameSegment_text (same : List χ) :
    ((sameSegment same).map (Segment.text unit)).flatten = same := by
  rw [sameSegment]
  split
  next h => rw [h]; rfl
  next => exact List.append_nil same

variable {unit}

theorem cutAt_eq {marker : List χ} {ls before after : List (List χ)}
    (h : cutAt marker ls = some (before, after)) : ls = before ++ marker :: after := by
  induction ls generalizing before with
  | nil => exact absurd h (by simp [cutAt])
  | cons l ls ih =>
      rw [cutAt] at h
      split at h
      next hl =>
        obtain ⟨rfl, rfl⟩ := Prod.mk.inj (Option.some.inj h)
        rw [hl]
        rfl
      next =>
        obtain ⟨cut, hcut, heq⟩ := Option.map_eq_some_iff.mp h
        obtain ⟨rfl, rfl⟩ := Prod.mk.inj heq
        rw [ih hcut]
        rfl

theorem cutAt_of_notMem {marker : List χ} {before : List (List χ)} (h : marker ∉ before)
    (after : List (List χ)) : cutAt marker (before ++ marker :: after) = some (before, after) := by
  induction before with
  | nil => exact if_pos rfl
  | cons l before ih =>
      rw [List.mem_cons, not_or] at h
      rw [List.cons_append, cutAt, if_neg (Ne.symm h.1), ih h.2]
      rfl

variable {ours theirs : List (List χ)}

theorem cutRegion_eq {rest rest' : List (List χ)}
    (h : cutRegion unit rest = some (ours, theirs, rest')) :
    rest = ours ++ midMarker unit :: (theirs ++ endMarker unit :: rest') := by
  obtain ⟨⟨ours', after⟩, hmid, h⟩ := Option.bind_eq_some_iff.mp h
  obtain ⟨⟨theirs', after'⟩, hend, h⟩ := Option.bind_eq_some_iff.mp h
  obtain ⟨rfl, rfl, rfl⟩ : ours' = ours ∧ theirs' = theirs ∧ after' = rest' := by simpa using h
  rw [cutAt_eq hmid, cutAt_eq hend]

theorem cutRegion_of_notMem (hours : midMarker unit ∉ ours) (htheirs : endMarker unit ∉ theirs)
    (rest : List (List χ)) :
    cutRegion unit (ours ++ midMarker unit :: (theirs ++ endMarker unit :: rest)) =
      some (ours, theirs, rest) := by
  simp [cutRegion, cutAt_of_notMem hours, cutAt_of_notMem htheirs]

variable (unit)

theorem parseLines_text (same : List χ) (ls : List (List χ)) :
    ((parseLines unit same ls).map (Segment.text unit)).flatten = same ++ ls.flatten := by
  fun_induction parseLines unit same ls with
  | case1 same => rw [sameSegment_text, List.flatten_nil, List.append_nil]
  | case2 same l rest _ ih => rw [ih, List.flatten_cons, List.append_assoc]
  | case3 same l rest _ _ => exact sameSegment_text unit _
  | case4 same l rest hl ours theirs rest' hcut ih =>
      rw [List.map_append, List.flatten_append, sameSegment_text, List.map_cons,
        List.flatten_cons, ih, cutRegion_eq hcut]
      obtain rfl : l = startMarker unit := by simpa using hl
      simp [Segment.text]

theorem compose_parseConflicts (text : List χ) (k : ℕ) :
    compose unit (parseConflicts unit text) (List.replicate k none) = text := by
  rw [compose_noPicks, parseConflicts, parseLines_text, splitLookbehind_flatten]
  rfl

/-! ## Parsing lines -/

variable {unit}

theorem parseLines_append {ls : List (List χ)} (h : startMarker unit ∉ ls) (same : List χ)
    (rest : List (List χ)) :
    parseLines unit same (ls ++ rest) = parseLines unit (same ++ ls.flatten) rest := by
  induction ls generalizing same with
  | nil => rw [List.nil_append, List.flatten_nil, List.append_nil]
  | cons l ls ih =>
      rw [List.mem_cons, not_or] at h
      rw [List.cons_append, parseLines, if_pos (Ne.symm h.1), ih h.2, List.flatten_cons,
        List.append_assoc]

theorem parseLines_region (hours : midMarker unit ∉ ours) (htheirs : endMarker unit ∉ theirs)
    (same : List χ) (rest : List (List χ)) :
    parseLines unit same
        (startMarker unit :: (ours ++ midMarker unit :: (theirs ++ endMarker unit :: rest))) =
      sameSegment same ++ .conflict ours.flatten theirs.flatten :: parseLines unit [] rest := by
  rw [parseLines, if_neg (by simp)]
  split
  next h => rw [cutRegion_of_notMem hours htheirs] at h; exact absurd h (by simp)
  next ours' theirs' rest' h =>
    rw [cutRegion_of_notMem hours htheirs] at h
    obtain ⟨rfl, rfl, rfl⟩ : ours = ours' ∧ theirs = theirs' ∧ rest = rest' := by
      simpa using h
    rfl

end Compose

/-! ## Marker lines -/

/-- The line is a marker, with or without its newline. -/
def IsMarkerLine (l : Line) : Prop :=
  ∃ m ∈ [mergeStart, mergeMid, mergeEnd], l = m ∨ l ++ [newline] = m

instance (l : Line) : Decidable (IsMarkerLine l) :=
  inferInstanceAs (Decidable (∃ m ∈ [mergeStart, mergeMid, mergeEnd], _ ∨ _))

/-- None of the lines is a marker. -/
def Unmarked (ls : List Line) : Prop :=
  ∀ l ∈ ls, ¬IsMarkerLine l

instance (ls : List Line) : Decidable (Unmarked ls) :=
  inferInstanceAs (Decidable (∀ l ∈ ls, ¬IsMarkerLine l))

variable {ls : List Line}

theorem Unmarked.notMem (h : Unmarked ls) {m : Line} (hm : m ∈ [mergeStart, mergeMid, mergeEnd]) :
    m ∉ ls :=
  fun hmem => h m hmem ⟨m, hm, Or.inl rfl⟩

theorem Unmarked.slice (h : Unmarked ls) (s e : ℕ) : Unmarked (slice ls s e) := by
  intro l hl
  obtain ⟨i, -, hget⟩ := mem_slice hl
  exact h l (List.mem_of_getElem? hget)

theorem Region.mem_viewOf {base side : List Line} {w : Which} {g : Region} {l : Line}
    (h : l ∈ g.viewOf base side w) : l ∈ base ∨ l ∈ side := by
  rw [viewOf, sideView] at h
  generalize g.start = pos at h
  generalize g.ranges = rs at h
  have hslice : ∀ {ls : List Line} {s e : ℕ}, l ∈ slice ls s e → l ∈ ls := by
    intro ls s e hl
    obtain ⟨_, _, hget⟩ := mem_slice hl
    exact List.mem_of_getElem? hget
  induction rs generalizing pos with
  | nil => exact Or.inl (hslice h)
  | cons r rs ih =>
      rw [sideViewFrom] at h
      split at h
      · exact ih _ h
      · rw [List.mem_append, List.mem_append] at h
        rcases h with (h | h) | h
        · exact Or.inl (hslice h)
        · exact Or.inr (hslice h)
        · exact ih _ h

theorem Unmarked.viewOf {base side : List Line} (hbase : Unmarked base) (hside : Unmarked side)
    (w : Which) (g : Region) : Unmarked (g.viewOf base side w) := by
  intro l hl
  rcases Region.mem_viewOf hl with hl | hl
  · exact hbase l hl
  · exact hside l hl

theorem Unmarked.notMem_ensureTrailingNL (h : Unmarked ls) {m : Line}
    (hm : m ∈ [mergeStart, mergeMid, mergeEnd]) : m ∉ ensureTrailingNL ls := by
  have hne : m ≠ [] := by
    rintro rfl
    exact absurd hm (by decide)
  rw [ensureTrailingNL]
  split
  next => simpa using hne
  next last hlast =>
    split
    · exact h.notMem hm
    · intro hmem
      rcases List.mem_append.mp hmem with hmem | hmem
      · exact h.notMem hm ((List.dropLast_sublist ls).subset hmem)
      · exact h last (List.mem_of_getLast? hlast)
          ⟨m, hm, Or.inr (List.mem_singleton.mp hmem).symm⟩

section Written

variable (base ours theirs : List Line)

/-- The segments the merge writes: a conflict with its two sections for every
conflicting region, and the text between them. -/
def writtenSegments : List UInt8 → ℕ → List Region → List (Segment UInt8)
  | same, pos, [] => sameSegment (same ++ (base.drop pos).flatten)
  | same, pos, g :: gs =>
      if g.isConflict base ours theirs then
        sameSegment (same ++ (slice base pos g.start).flatten) ++
          .conflict (ensureTrailingNL (g.oursView base ours)).flatten
            (ensureTrailingNL (g.theirsView base theirs)).flatten ::
          writtenSegments [] g.stop gs
      else
        writtenSegments
          (same ++ (slice base pos g.start).flatten ++ (g.text base ours theirs).flatten)
          g.stop gs

variable {base ours theirs}

theorem Unmarked.text (hbase : Unmarked base) (hours : Unmarked ours)
    (htheirs : Unmarked theirs) {g : Region} (h : ¬g.isConflict base ours theirs = true) :
    Unmarked (g.text base ours theirs) := by
  rw [Region.text, if_neg h]
  split
  · exact hbase.viewOf hours .ours g
  · exact hbase.viewOf htheirs .theirs g

/-- The lines the merge writes, without the empty ones, are parsed into the
segments it wrote. -/
theorem parseLines_splice (hbase : Unmarked base) (hours : Unmarked ours)
    (htheirs : Unmarked theirs) (gs : List Region) (same : List UInt8) (pos : ℕ) :
    parseLines id same ((splice base (Region.text base ours theirs) pos gs).filter (· ≠ [])) =
      writtenSegments base ours theirs same pos gs := by
  have hstart : ∀ {ls : List Line}, Unmarked ls →
      startMarker id ∉ ls.filter (· ≠ []) := fun h hmem =>
    h.notMem (by simp [startMarker]) (List.mem_of_mem_filter hmem)
  induction gs generalizing same pos with
  | nil =>
      have hdrop : Unmarked (base.drop pos) := fun l hl => hbase l (List.mem_of_mem_drop hl)
      have hall := parseLines_append (hstart hdrop) same []
      rw [List.append_nil, List.flatten_filter_ne_nil, parseLines] at hall
      exact hall
  | cons g gs ih =>
      rw [splice, writtenSegments, List.filter_append, List.filter_append, List.append_assoc,
        parseLines_append (hstart (hbase.slice _ _)), List.flatten_filter_ne_nil]
      split
      next hconflict =>
        have hmid : midMarker id ∉ (ensureTrailingNL (g.oursView base ours)).filter (· ≠ []) :=
          fun hmem => (hbase.viewOf hours .ours g).notMem_ensureTrailingNL
            (by simp [midMarker]) (List.mem_of_mem_filter hmem)
        have hend : endMarker id ∉
            (ensureTrailingNL (g.theirsView base theirs)).filter (· ≠ []) :=
          fun hmem => (hbase.viewOf htheirs .theirs g).notMem_ensureTrailingNL
            (by simp [endMarker]) (List.mem_of_mem_filter hmem)
        have hregion := parseLines_region hmid hend
          (same ++ (slice base pos g.start).flatten)
          ((splice base (Region.text base ours theirs) g.stop gs).filter (· ≠ []))
        rw [List.flatten_filter_ne_nil, List.flatten_filter_ne_nil, ih] at hregion
        rw [← hregion, Region.text, if_pos hconflict, appendConflictMarkers]
        simp [startMarker, midMarker, endMarker, mergeStart, mergeMid, mergeEnd]
      next hclean =>
        rw [parseLines_append (hstart (hbase.text hours htheirs hclean)),
          List.flatten_filter_ne_nil, ih]

end Written

/-! ## The lines of the output -/

/-- Up to empty lines, all lines but the last are terminated and the last has
no newline. -/
def Breaks (ls : List Line) : Prop :=
  ∃ (front : List Line) (last : Line), ls.filter (· ≠ []) = (front ++ [last]).filter (· ≠ []) ∧
    (∀ l ∈ front, l = [] ∨ Terminated l) ∧ newline ∉ last

theorem Breaks.of_allButLast (h : AllButLast ls) (hlast : ∀ l ∈ ls, Terminated l ∨ newline ∉ l) :
    Breaks ls := by
  rcases List.eq_nil_or_concat' ls with rfl | ⟨ls, l, rfl⟩
  · exact ⟨[], [], rfl, by simp, by simp⟩
  · have hls : ∀ l ∈ ls, Terminated l := by simpa [AllButLast] using h
    rcases hlast l (by simp) with hl | hl
    · refine ⟨ls ++ [l], [], by rw [List.filter_append (ls ++ [l])]; simp,
        fun l' hl' => Or.inr ?_, by simp⟩
      rcases List.mem_append.mp hl' with hl' | hl'
      · exact hls l' hl'
      · rw [List.mem_singleton.mp hl']
        exact hl
    · exact ⟨ls, l, rfl, fun l' hl' => Or.inr (hls l' hl'), hl⟩

theorem Breaks.append {as bs : List Line} (ha : ∀ l ∈ as, l = [] ∨ Terminated l)
    (h : Breaks bs) : Breaks (as ++ bs) := by
  obtain ⟨front, last, hfilter, hfront, hlast⟩ := h
  refine ⟨as ++ front, last, ?_, ?_, hlast⟩
  · rw [List.filter_append, hfilter, List.append_assoc, List.filter_append as]
  · intro l hl
    rcases List.mem_append.mp hl with hl | hl
    · exact ha l hl
    · exact hfront l hl

/-- The pieces of the desktop are those of `strings.SplitAfter` without an empty
last one. -/
theorem piecesAfter_eq (s : List UInt8) : piecesAfter id s = (splitAfter s).filter (· ≠ []) := by
  induction s with
  | nil => rfl
  | cons c cs ih =>
      rw [piecesAfter, splitAfter]
      split
      next hc =>
        rw [if_pos (show c = newline from hc), ih]
        rfl
      next hc =>
        rw [if_neg (show ¬c = newline from hc), ih]
        obtain ⟨ls, last, heq, hls, hlast⟩ := splitAfter_spec cs
        rw [heq]
        cases ls with
        | nil => cases last <;> simp
        | cons l ls =>
            have hl := (hls l (by simp)).ne_nil
            simp [hl]

theorem splitAfter_flatten_terminated (h : ∀ l ∈ ls, Terminated l) (s : List UInt8) :
    splitAfter (ls.flatten ++ s) = ls ++ splitAfter s := by
  induction ls with
  | nil => rfl
  | cons l ls ih =>
      rw [List.flatten_cons, List.append_assoc, splitAfter_terminated_append (h l (by simp)),
        ih fun l' hl' => h l' (by simp [hl'])]
      rfl

theorem Breaks.piecesAfter (h : Breaks ls) : piecesAfter id ls.flatten = ls.filter (· ≠ []) := by
  obtain ⟨front, last, hfilter, hfront, hlast⟩ := h
  have hterm : ∀ l ∈ front.filter (· ≠ []), Terminated l := by
    intro l hl
    obtain ⟨hl, hne⟩ := List.mem_filter.mp hl
    exact (hfront l hl).resolve_left (by simpa using hne)
  have hflatten : ls.flatten = (front.filter (· ≠ [])).flatten ++ last := by
    rw [← List.flatten_filter_ne_nil (L := ls), hfilter, List.flatten_filter_ne_nil,
      List.flatten_filter_ne_nil, List.flatten_append, List.flatten_singleton]
  rw [piecesAfter_eq, hflatten, splitAfter_flatten_append hterm hlast, hfilter,
    List.filter_append, List.filter_append, List.filter_filter]
  simp

/-! ## Finding a marker -/

/-- A terminated line begins a line of the text exactly when it is one of its
pieces. -/
theorem startsLine_iff {m : Line} (hm : Terminated m) (s : List UInt8) :
    (m.isPrefixOf s || decide (newline :: m <:+: s)) = true ↔ m ∈ piecesAfter id s := by
  rw [piecesAfter_eq, List.mem_filter]
  simp only [Bool.or_eq_true, List.isPrefixOf_iff_prefix, decide_eq_true_eq, ne_eq, hm.ne_nil,
    not_false_eq_true, and_true]
  constructor
  · rintro (⟨t, rfl⟩ | ⟨a, t, rfl⟩)
    · rw [splitAfter_terminated_append hm]
      exact List.mem_cons_self
    · obtain ⟨ls, last, heq, hls, hlast⟩ := splitAfter_spec a
      have ha : a = ls.flatten ++ last := by
        rw [← splitAfter_flatten a, heq, List.flatten_append, List.flatten_singleton]
      have hline : Terminated (last ++ [newline]) := ⟨last, hlast, rfl⟩
      have hsplit : a ++ newline :: m ++ t = ls.flatten ++ (last ++ [newline] ++ (m ++ t)) := by
        rw [ha]
        simp
      rw [hsplit, splitAfter_flatten_terminated hls, splitAfter_terminated_append hline,
        splitAfter_terminated_append hm]
      simp
  · intro hmem
    obtain ⟨ls, last, heq, hls, hlast⟩ := splitAfter_spec s
    have hs : s = ls.flatten ++ last := by
      rw [← splitAfter_flatten s, heq, List.flatten_append, List.flatten_singleton]
    have hmem' : m ∈ ls := by
      rw [heq] at hmem
      refine (List.mem_append.mp hmem).resolve_right fun h => ?_
      obtain ⟨v, -, rfl⟩ := hm
      exact hlast (List.mem_singleton.mp h ▸ by simp)
    obtain ⟨before, after, rfl⟩ := List.append_of_mem hmem'
    rcases List.eq_nil_or_concat' before with rfl | ⟨before, l, rfl⟩
    · exact Or.inl ⟨after.flatten ++ last, by rw [hs]; simp⟩
    · obtain ⟨v, -, rfl⟩ := hls l (by simp)
      exact Or.inr ⟨before.flatten ++ v, after.flatten ++ last, by rw [hs]; simp⟩

theorem terminated_mergeStart : Terminated mergeStart :=
  ⟨mergeStart.dropLast, by decide, rfl⟩

theorem terminated_mergeMid : Terminated mergeMid :=
  ⟨mergeMid.dropLast, by decide, rfl⟩

theorem terminated_mergeEnd : Terminated mergeEnd :=
  ⟨mergeEnd.dropLast, by decide, rfl⟩

theorem clientHasMarkers_iff (s : List UInt8) : clientHasMarkers s = true ↔
    mergeStart ∈ piecesAfter id s ∨ mergeEnd ∈ piecesAfter id s := by
  rw [← startsLine_iff terminated_mergeStart, ← startsLine_iff terminated_mergeEnd,
    clientHasMarkers]
  simp only [List.any_cons, List.any_nil, Bool.or_false, Bool.or_eq_true]

theorem hasMarkers_eq (s : List UInt8) : hasMarkers id s = clientHasMarkers s := by
  rw [hasMarkers, clientHasMarkers, startMarker, endMarker, List.map_id, List.map_id]
  rfl

/-! ## Reading the output back -/

section Output

variable {base ours theirs : List Line} {gs : List Region}

theorem Tokens.terminated_or_notMem {ls : List Line} (h : Tokens ls) :
    ∀ l ∈ ls, Terminated l ∨ newline ∉ l := by
  intro l hl
  rcases List.eq_nil_or_concat' ls with rfl | ⟨ls, last, rfl⟩
  · exact absurd hl (by simp)
  · rcases List.mem_append.mp hl with hl | hl
    · exact Or.inl (h.allButLast l (by simpa using hl))
    · rw [List.mem_singleton.mp hl]
      exact Or.inr (h.last last (by simp))

theorem terminated_ensureTrailingNL {ls : List Line} (h : AllButLast ls)
    (hpieces : ∀ l ∈ ls, Terminated l ∨ newline ∉ l) :
    ∀ l ∈ ensureTrailingNL ls, l = [] ∨ Terminated l := by
  rcases List.eq_nil_or_concat' ls with rfl | ⟨ls, last, rfl⟩
  · simp [ensureTrailingNL]
  · have hls : ∀ l ∈ ls, Terminated l := by simpa [AllButLast] using h
    rw [ensureTrailingNL, List.getLast?_concat]
    intro l hl
    have hmem : l ∈ ls ∨ l = last ∧ endsInNewline last = true ∨
        l = last ++ [newline] ∧ endsInNewline last = false := by
      by_cases hend : endsInNewline last = true <;> simpa [hend] using hl
    rcases hmem with hmem | ⟨rfl, hend⟩ | ⟨rfl, hend⟩
    · exact Or.inr (hls l hmem)
    · refine (hpieces l (by simp)).elim Or.inr fun hnot => ?_
      rw [endsInNewline_of_notMem hnot] at hend
      exact absurd hend (by simp)
    · refine (hpieces last (by simp)).elim (fun hterm => ?_) fun hnot => Or.inr ⟨last, hnot, rfl⟩
      rw [hterm.endsInNewline] at hend
      exact absurd hend (by simp)

theorem Layout.breaks (h : Layout base gs) (hbase : Tokens base) (hours : Tokens ours)
    (htheirs : Tokens theirs) (hA : SideRegions base ours .ours gs)
    (hB : SideRegions base theirs .theirs gs) :
    Breaks (splice base (Region.text base ours theirs) 0 gs) := by
  have hpieces : ∀ {side : List Line} {w : Which}, Tokens side → ∀ g : Region,
      ∀ l ∈ g.viewOf base side w, Terminated l ∨ newline ∉ l := by
    intro side w hside g l hl
    rcases Region.mem_viewOf hl with hl | hl
    · exact hbase.terminated_or_notMem l hl
    · exact hside.terminated_or_notMem l hl
  have hviews : ∀ g ∈ gs, AllButLast (g.oursView base ours) ∧
      AllButLast (g.theirsView base theirs) :=
    fun g hg => ⟨hA.allButLast h hours hg, hB.allButLast h htheirs hg⟩
  have hterm : ∀ g ∈ gs, g.stop < base.length →
      (∀ l ∈ g.oursView base ours, Terminated l) ∧ ∀ l ∈ g.theirsView base theirs, Terminated l :=
    fun g hg hstop => ⟨hA.terminated g hg hstop, hB.terminated g hg hstop⟩
  clear hA hB
  have hmarkers : ∀ g ∈ gs, ∀ l ∈ appendConflictMarkers (g.oursView base ours)
      (g.theirsView base theirs), l = [] ∨ Terminated l := by
    intro g hg l hl
    obtain ⟨hviewA, hviewB⟩ := hviews g hg
    simp only [appendConflictMarkers, List.mem_append, List.mem_singleton] at hl
    rcases hl with (((rfl | hl) | rfl) | hl) | rfl
    · exact Or.inr terminated_mergeStart
    · exact terminated_ensureTrailingNL hviewA (hpieces hours g) l hl
    · exact Or.inr terminated_mergeMid
    · exact terminated_ensureTrailingNL hviewB (hpieces htheirs g) l hl
    · exact Or.inr terminated_mergeEnd
  generalize 0 = pos
  induction gs generalizing pos with
  | nil =>
      refine Breaks.of_allButLast ?_ fun l hl =>
        hbase.terminated_or_notMem l (List.mem_of_mem_drop hl)
      exact AllButLast.of_append ((List.take_append_drop pos base).symm ▸ hbase.allButLast)
  | cons g gs ih =>
      have hkept := h.kept g List.mem_cons_self pos
      rw [splice, List.append_assoc]
      refine Breaks.append (fun l hl => Or.inr (hkept l hl)) ?_
      have hrest := ih h.tail (fun g' hg' => hviews g' (List.mem_cons_of_mem _ hg'))
        (fun g' hg' => hterm g' (List.mem_cons_of_mem _ hg'))
        (fun g' hg' => hmarkers g' (List.mem_cons_of_mem _ hg')) g.stop
      have hlast : ¬g.stop < base.length →
          splice base (Region.text base ours theirs) g.stop gs = [] := by
        intro hstop
        have hgs : gs = [] := by
          rw [List.eq_nil_iff_forall_not_mem]
          intro g' hg'
          have hlt := (List.pairwise_cons.mp h.last).1 g' hg'
          omega
        rw [hgs, splice, List.drop_of_length_le (by omega)]
      -- a view is terminated, or nothing comes after it
      have hview : ∀ ls : List Line, AllButLast ls → (∀ l ∈ ls, Terminated l ∨ newline ∉ l) →
          (g.stop < base.length → ∀ l ∈ ls, Terminated l) →
          Breaks (ls ++ splice base (Region.text base ours theirs) g.stop gs) := by
        intro ls hls hpiece hlines
        by_cases hstop : g.stop < base.length
        · exact hrest.append fun l hl => Or.inr (hlines hstop l hl)
        · rw [hlast hstop, List.append_nil]
          exact Breaks.of_allButLast hls hpiece
      obtain ⟨hviewA, hviewB⟩ := hviews g List.mem_cons_self
      rw [Region.text]
      split
      · exact hrest.append (hmarkers g List.mem_cons_self)
      · split
        · exact hview _ hviewA (hpieces hours g) fun hstop => (hterm g List.mem_cons_self hstop).1
        · exact hview _ hviewB (hpieces htheirs g) fun hstop =>
            (hterm g List.mem_cons_self hstop).2

theorem mem_splice {text : Region → List Line} {pos : ℕ} {l : Line}
    (h : l ∈ splice base text pos gs) : l ∈ base ∨ ∃ g ∈ gs, l ∈ text g := by
  induction gs generalizing pos with
  | nil => exact Or.inl (List.mem_of_mem_drop h)
  | cons g gs ih =>
      rw [splice, List.mem_append, List.mem_append] at h
      rcases h with (h | h) | h
      · obtain ⟨i, -, hget⟩ := mem_slice h
        exact Or.inl (List.mem_of_getElem? hget)
      · exact Or.inr ⟨g, List.mem_cons_self, h⟩
      · rcases ih h with h | ⟨g', hg', h⟩
        · exact Or.inl h
        · exact Or.inr ⟨g', List.mem_cons_of_mem _ hg', h⟩

theorem mem_splice_of_mem {text : Region → List Line} {g : Region} (hg : g ∈ gs) {l : Line}
    (h : l ∈ text g) (pos : ℕ) : l ∈ splice base text pos gs := by
  induction gs generalizing pos with
  | nil => exact absurd hg (by simp)
  | cons g' gs ih =>
      rw [splice, List.mem_append, List.mem_append]
      rcases List.mem_cons.mp hg with rfl | hg
      · exact Or.inl (Or.inr h)
      · exact Or.inr (ih hg _)

/-- Without marker lines in the inputs, a marker in the output is one the merge
wrote. -/
theorem clientHasMarkers_splice (hbase : Unmarked base) (hours : Unmarked ours)
    (htheirs : Unmarked theirs)
    (hbreaks : Breaks (splice base (Region.text base ours theirs) 0 gs)) :
    clientHasMarkers (splice base (Region.text base ours theirs) 0 gs).flatten =
      gs.any (Region.isConflict base ours theirs) := by
  rw [Bool.eq_iff_iff, clientHasMarkers_iff, hbreaks.piecesAfter, List.any_eq_true]
  constructor
  · intro hmem
    obtain ⟨m, hm, hmem⟩ : ∃ m ∈ [mergeStart, mergeMid, mergeEnd],
        m ∈ splice base (Region.text base ours theirs) 0 gs := by
      rcases hmem with hmem | hmem
      · exact ⟨mergeStart, by simp, List.mem_of_mem_filter hmem⟩
      · exact ⟨mergeEnd, by simp, List.mem_of_mem_filter hmem⟩
    rcases mem_splice hmem with hbad | ⟨g, hg, hbad⟩
    · exact absurd hbad (hbase.notMem hm)
    · refine ⟨g, hg, ?_⟩
      by_contra hclean
      exact (hbase.text hours htheirs hclean).notMem hm hbad
  · rintro ⟨g, hg, hconflict⟩
    refine Or.inl (List.mem_filter.mpr ⟨mem_splice_of_mem hg ?_ 0, by simp [mergeStart]⟩)
    rw [Region.text, if_pos hconflict]
    simp [appendConflictMarkers]

theorem parseConflicts_eq (s : List UInt8) :
    parseConflicts id s = parseLines id [] (piecesAfter id s) := by
  rw [parseConflicts, splitLookbehind]
  split
  next h =>
    rw [h, parseLines, if_pos (by decide)]
    rfl
  next => rfl

end Output

/-- Composing a parsed text without picks gives it back; and where no line of
the inputs is a marker, the merge's output is parsed into the conflicts it wrote
with their sections and the text between them, and both tests find markers in
it exactly when there is a conflict. -/
theorem conflict_markers_decode :
    (∀ (χ : Type) [DecidableEq χ] (unit : UInt8 → χ) (text : List χ) (k : ℕ),
      compose unit (parseConflicts unit text) (List.replicate k none) = text) ∧
    ∀ base ours theirs : List UInt8, Unmarked (splitWithNewlines base) →
      Unmarked (splitWithNewlines ours) → Unmarked (splitWithNewlines theirs) →
      ∃ gs merged conflicted,
        mergedRegions (splitWithNewlines base) (splitWithNewlines ours)
          (splitWithNewlines theirs) = some gs ∧
        mergeText base ours theirs = some (merged, conflicted) ∧
        parseConflicts id merged = writtenSegments (splitWithNewlines base)
          (splitWithNewlines ours) (splitWithNewlines theirs) [] 0 gs ∧
        clientHasMarkers merged = conflicted ∧ hasMarkers id merged = conflicted := by
  refine ⟨fun χ _ unit text k => compose_parseConflicts unit text k, ?_⟩
  intro base ours theirs hbase hours htheirs
  have htokens := tokens_splitWithNewlines
  obtain ⟨cA, hcA, hA⟩ := changeRanges_spec (splitWithNewlines base) (splitWithNewlines ours) .ours
  obtain ⟨cB, hcB, hB⟩ :=
    changeRanges_spec (splitWithNewlines base) (splitWithNewlines theirs) .theirs
  have hlayout := layout_regions hA hB (htokens base) (htokens ours) (htokens theirs)
  obtain ⟨hsideA, hsideB⟩ := (regions_spec hA hB).sideRegions hA hB (htokens base)
    (htokens ours) (htokens theirs)
  have hbreaks := hlayout.breaks (htokens base) (htokens ours) (htokens theirs) hsideA hsideB
  have hmarkers := clientHasMarkers_splice hbase hours htheirs hbreaks
  refine ⟨_, _, _, by rw [mergedRegions, hcA, hcB]; rfl, ?_, ?_, hmarkers, ?_⟩
  · rw [mergeText, mergeLines_eq, hcA, hcB]
    simp only [Option.bind_some, mergeRanges_eq hA hB]
    rfl
  · rw [parseConflicts_eq, hbreaks.piecesAfter]
    exact parseLines_splice hbase hours htheirs _ [] 0
  · rw [hasMarkers_eq, hmarkers]

/-- A file both sides added with different lines is one conflict. -/
theorem conflict_markers_decode_added :
    ∃ merged, mergeText [] [97, newline] [98, newline] = some (merged, true) ∧
      (∃ ours theirs, parseConflicts id merged = [.conflict ours theirs]) ∧
      clientHasMarkers merged = true := by
  obtain ⟨gs, merged, conflicted, hgs, hmerge, hparse, hclient, -⟩ :=
    conflict_markers_decode.2 [] [97, newline] [98, newline] (by decide) (by decide) (by decide)
  obtain rfl : [⟨0, 0, [⟨0, 0, 0, 2, .ours⟩, ⟨0, 0, 0, 2, .theirs⟩]⟩] = gs :=
    Option.some.inj hgs
  have hconflicted : (mergeText [] [97, newline] [98, newline]).map Prod.snd = some true := by
    decide +kernel
  obtain rfl : conflicted = true := by simpa [hmerge] using hconflicted
  exact ⟨merged, hmerge, ⟨_, _, hparse⟩, hclient⟩

end Text

end Nipa
