import Nipa.Text.CleanTextMerge

/-!
# The sections of a conflict

Between the markers of a conflict stand the lines of either side, ended by a
newline so that the next marker starts a line.  A text that ends in a newline
has an empty last piece, so where a conflict reaches the end of the base the
piece is completed as well, and the section has one empty line too many.
-/

namespace Nipa

namespace Text

/-- The regions of a merge. -/
def mergedRegions (base ours theirs : List Line) : Option (List Region) := do
  let cA ← changeRanges base ours .ours
  let cB ← changeRanges base theirs .theirs
  some (regions (sortedRanges cA cB))

/-! ## Texts and their last piece -/

theorem endsInNewline_append {s t : List UInt8} (h : t ≠ []) :
    endsInNewline (s ++ t) = endsInNewline t := by
  rw [endsInNewline, endsInNewline, List.getLast?_append_of_ne_nil s h]

theorem endsInNewline_flatten {ls : List Line} (hne : ls ≠ []) (h : ∀ l ∈ ls, Terminated l) :
    endsInNewline ls.flatten = true := by
  obtain ⟨ls, l, rfl⟩ := List.eq_nil_or_concat' ls |>.resolve_left hne
  have hl := h l (by simp)
  rw [List.flatten_append, List.flatten_singleton, endsInNewline_append hl.ne_nil]
  exact hl.endsInNewline

theorem splitWithNewlines_getLast? (s : List UInt8) :
    (splitWithNewlines s).getLast? = some [] ↔ endsInNewline s = true := by
  rw [splitWithNewlines]
  split
  next h => simp [h, endsInNewline]
  next hne =>
    obtain ⟨ls, last, heq, hls, hlast⟩ := splitAfter_spec s
    have hs : s = ls.flatten ++ last := by
      rw [← splitAfter_flatten s, heq, List.flatten_append, List.flatten_singleton]
    rw [heq, List.getLast?_concat, Option.some.injEq]
    constructor
    · rintro rfl
      rw [List.append_nil] at hs
      rw [hs]
      refine endsInNewline_flatten ?_ hls
      rintro rfl
      exact hne hs
    · intro hend
      by_contra hnil
      rw [hs, endsInNewline_append hnil, endsInNewline_of_notMem hlast] at hend
      exact absurd hend (by simp)

/-- The text with a newline added where it is not empty and lacks its final
one. -/
def completed (s : List UInt8) : List UInt8 :=
  if s = [] ∨ endsInNewline s then s else s ++ [newline]

theorem completed_of_endsInNewline {s : List UInt8} (h : endsInNewline s = true) :
    completed s = s :=
  if_pos (Or.inr h)

theorem completed_append {s t : List UInt8} (h : t ≠ []) :
    completed (s ++ t) = s ++ completed t := by
  rw [completed, completed, endsInNewline_append h]
  by_cases ht : endsInNewline t = true
  · rw [if_pos (Or.inr ht), if_pos (Or.inr ht)]
  · rw [if_neg (by simp [h, ht]), if_neg (by simp [h, ht]), List.append_assoc]

/-- The section of some lines is their text, completed, exactly when the last
piece is not an empty one. -/
theorem ensureTrailingNL_flatten_iff {ls : List Line} (h : AllButLast ls) :
    (ensureTrailingNL ls).flatten = completed ls.flatten ↔ ls.getLast? ≠ some [] := by
  rcases List.eq_nil_or_concat' ls with rfl | ⟨ls, l, rfl⟩
  · simp [ensureTrailingNL, completed]
  · have hls : ∀ l ∈ ls, Terminated l := by simpa [AllButLast] using h
    rw [ensureTrailingNL, List.getLast?_concat]
    simp only [List.dropLast_concat, List.flatten_append, List.flatten_singleton, ne_eq,
      Option.some.injEq]
    by_cases hnil : l = []
    · subst hnil
      have hcompleted : completed ls.flatten = ls.flatten := by
        by_cases hls' : ls = []
        · simp [hls', completed]
        · exact completed_of_endsInNewline (endsInNewline_flatten hls' hls)
      simp [endsInNewline, hcompleted]
    · rw [completed_append hnil, completed]
      by_cases hend : endsInNewline l = true <;> simp [hend, hnil]

/-! ## The last region -/

/-- Only the last of the regions can reach the end of the base, and what is kept
before each of them is terminated. -/
structure Layout (base : List Line) (gs : List Region) : Prop where
  last : gs.Pairwise fun g _ => g.stop < base.length
  kept : ∀ g ∈ gs, ∀ pos, ∀ l ∈ slice base pos g.start, Terminated l

theorem Ordered.stop_le {n pos : ℕ} {gs : List Region} (h : Ordered n pos gs) :
    ∀ g ∈ gs, g.stop ≤ n := by
  induction gs generalizing pos with
  | nil => exact fun g hg => absurd hg (by simp)
  | cons g gs ih =>
      obtain ⟨-, -, hstop, hrest⟩ := h
      intro g' hg'
      rcases List.mem_cons.mp hg' with rfl | hg'
      · exact hstop
      · exact ih hrest g' hg'

theorem Layout.tail {base : List Line} {g : Region} {gs : List Region}
    (h : Layout base (g :: gs)) : Layout base gs where
  last := (List.pairwise_cons.mp h.last).2
  kept g' hg' := h.kept g' (List.mem_cons_of_mem _ hg')

theorem regions_length_le {ours theirs : List Line} {cA cB : List SRange}
    (hA : SideRanges [] ours .ours cA) (hB : SideRanges [] theirs .theirs cB) :
    (regions (sortedRanges cA cB)).length ≤ 1 := by
  rcases hA.of_nil with ⟨rfl, -⟩ | ⟨-, r, rfl, hrs, hre, hrside, -⟩ <;>
    rcases hB.of_nil with ⟨rfl, -⟩ | ⟨-, r', rfl, hrs', hre', -, -⟩
  · simp [sortedRanges, regions]
  · simp [sortedRanges, regions, regionsFrom]
  · simp [sortedRanges, regions, regionsFrom]
  · have hsort : sortedRanges [r] [r'] = [r, r'] := by
      have hbefore : r.before r' := by simp [SRange.before, hrs, hre, hrs', hre', hrside]
      simp [sortedRanges, List.insertionSort, hbefore]
    simp [hsort, regions, regionsFrom, rangesIntersect, hrs, hre, hrs', hre']

theorem layout_regions {base ours theirs : List Line} {cA cB : List SRange}
    (hA : SideRanges base ours .ours cA) (hB : SideRanges base theirs .theirs cB)
    (hbase : Tokens base) (hours : Tokens ours) (htheirs : Tokens theirs) :
    Layout base (regions (sortedRanges cA cB)) := by
  have hregions := regions_spec hA hB
  by_cases hne : base = []
  · subst hne
    refine ⟨?_, fun g _ pos l hl => absurd hl (by simp [slice])⟩
    have hlength := regions_length_le hA hB
    cases hgs : regions (sortedRanges cA cB) with
    | nil => exact List.Pairwise.nil
    | cons g gs =>
        rw [hgs, List.length_cons] at hlength
        obtain rfl : gs = [] := List.length_eq_zero_iff.mp (by omega)
        exact List.pairwise_singleton _ g
  · have hstart := hregions.rest.start_lt hA hB hbase hours htheirs hne
    have hordered := hregions.ordered
    generalize regions (sortedRanges cA cB) = gs at hstart hordered
    constructor
    case kept =>
        intro g hg pos l hl
        obtain ⟨i, hi, hget⟩ := mem_slice hl
        have hlt := hstart g hg
        exact hbase.allButLast.terminated (by omega) hget
    case last =>
        have hlater : ∀ {gs : List Region} {pos : ℕ}, Ordered base.length pos gs →
            ∀ g ∈ gs, pos ≤ g.start := by
          intro gs
          induction gs with
          | nil => exact fun _ g hg => absurd hg (by simp)
          | cons g gs ih =>
              intro pos h g' hg'
              obtain ⟨hpos, hle, -, hrest⟩ := h
              rcases List.mem_cons.mp hg' with rfl | hg'
              · exact hpos
              · exact hpos.trans (hle.trans (ih hrest g' hg'))
        clear hregions
        generalize 0 = pos at hordered
        induction gs generalizing pos with
        | nil => exact List.Pairwise.nil
        | cons g gs ih =>
            obtain ⟨-, -, -, hrest⟩ := hordered
            refine List.pairwise_cons.mpr ⟨fun g' hg' => ?_,
              ih (fun g' hg' => hstart g' (List.mem_cons_of_mem _ hg')) _ hrest⟩
            have hle := hlater hrest g' hg'
            have hlt := hstart g' (List.mem_cons_of_mem _ hg')
            omega

section Views

variable {base side : List Line} {w : Which} {pos : ℕ} {gs : List Region}

/-- A region that reaches the end of the base ends the side, and every line
before its view is terminated. -/
theorem Layout.suffix (h : Layout base gs)
    (hterm : ∀ g ∈ gs, g.stop < base.length → ∀ l ∈ g.viewOf base side w, Terminated l)
    {g : Region} (hg : g ∈ gs) (hstop : base.length ≤ g.stop) :
    ∃ pre, splice base (Region.viewOf base side w) pos gs = pre ++ g.viewOf base side w ∧
      ∀ l ∈ pre, Terminated l := by
  induction gs generalizing pos with
  | nil => exact absurd hg (by simp)
  | cons g' gs ih =>
      have hkept := h.kept g' List.mem_cons_self pos
      rcases List.mem_cons.mp hg with rfl | hmem
      · have hgs : gs = [] := by
          rw [List.eq_nil_iff_forall_not_mem]
          intro g' hg'
          have hlt := (List.pairwise_cons.mp h.last).1 g' hg'
          omega
        subst hgs
        refine ⟨slice base pos g.start, ?_, hkept⟩
        rw [splice, splice, List.drop_of_length_le hstop, List.append_nil]
      · obtain ⟨pre, heq, hpre⟩ := @ih g'.stop h.tail
          (fun g hg => hterm g (List.mem_cons_of_mem _ hg)) hmem
        have hlt := (List.pairwise_cons.mp h.last).1 g hmem
        refine ⟨slice base pos g'.start ++ g'.viewOf base side w ++ pre, ?_, ?_⟩
        · rw [splice, heq]
          simp only [List.append_assoc]
        · intro l hl
          rw [List.mem_append, List.mem_append] at hl
          rcases hl with (hl | hl) | hl
          · exact hkept l hl
          · exact hterm g' List.mem_cons_self hlt l hl
          · exact hpre l hl

end Views

/-! ## Sections and their last piece -/

section Sections

variable {base : List Line} {s : List UInt8} {w : Which} {rs : List SRange} {gs : List Region}

/-- What is known of one side of the regions. -/
structure SideRegions (base side : List Line) (w : Which) (gs : List Region) : Prop where
  terminated : ∀ g ∈ gs, g.stop < base.length → ∀ l ∈ g.viewOf base side w, Terminated l
  splice_eq : splice base (Region.viewOf base side w) 0 gs = side

theorem MergeRegions.sideRegions {ours theirs : List Line} {cA cB : List SRange}
    (h : MergeRegions base cA cB gs) (hA : SideRanges base ours .ours cA)
    (hB : SideRanges base theirs .theirs cB) (hbase : Tokens base) (hours : Tokens ours)
    (htheirs : Tokens theirs) :
    SideRegions base ours .ours gs ∧ SideRegions base theirs .theirs gs := by
  obtain ⟨hsplice, hsplice'⟩ := h.sides hA hB
  refine ⟨⟨fun g hg hstop => ?_, hsplice⟩, ⟨fun g hg hstop => ?_, hsplice'⟩⟩
  · exact (h.exact g hg).terminated hA hbase hours hstop (h.rest.ours g hg)
  · exact (h.exact g hg).terminated hB hbase htheirs hstop (h.rest.theirs g hg)

theorem SideRegions.allButLast {side : List Line} (h : SideRegions base side w gs)
    (hlayout : Layout base gs) (hside : Tokens side) {g : Region} (hg : g ∈ gs) :
    AllButLast (g.viewOf base side w) := by
  by_cases hstop : g.stop < base.length
  · intro l hl
    exact h.terminated g hg hstop l ((List.dropLast_sublist _).subset hl)
  · obtain ⟨pre, heq, -⟩ := @Layout.suffix base side w 0 gs hlayout h.terminated g hg (by omega)
    rw [h.splice_eq] at heq
    exact (heq ▸ hside.allButLast).of_append

/-- The last piece of a section is empty where the region reaches the end of
the base and the side ends in a newline. -/
theorem SideRegions.getLast? (h : SideRegions base (splitWithNewlines s) w gs)
    (hlayout : Layout base gs) {g : Region} (hg : g ∈ gs) :
    (g.viewOf base (splitWithNewlines s) w).getLast? = some [] ↔
      base.length ≤ g.stop ∧ endsInNewline s = true := by
  by_cases hstop : g.stop < base.length
  · refine iff_of_false (fun hlast => ?_) (by omega)
    exact (h.terminated g hg hstop [] (List.mem_of_getLast? hlast)).ne_nil rfl
  · obtain ⟨pre, heq, hpre⟩ :=
      @Layout.suffix base (splitWithNewlines s) w 0 gs hlayout h.terminated g hg (by omega)
    have hlast := congrArg List.getLast? (h.splice_eq.symm.trans heq)
    rw [← splitWithNewlines_getLast?, hlast]
    by_cases hview : g.viewOf base (splitWithNewlines s) w = []
    · rw [hview, List.append_nil]
      refine iff_of_false (fun hnil => absurd hnil (by simp)) ?_
      rintro ⟨-, hnil⟩
      exact (hpre [] (List.mem_of_getLast? hnil)).ne_nil rfl
    · rw [List.getLast?_append_of_ne_nil pre hview]
      exact ⟨fun hnil => ⟨by omega, hnil⟩, And.right⟩

/-- The section of a side is the text of its lines, completed, unless the
region reaches the end of the base and the side ends in a newline. -/
theorem SideRegions.section_iff (h : SideRegions base (splitWithNewlines s) w gs)
    (hlayout : Layout base gs) {g : Region} (hg : g ∈ gs) :
    (ensureTrailingNL (g.viewOf base (splitWithNewlines s) w)).flatten =
        completed (g.viewOf base (splitWithNewlines s) w).flatten ↔
      ¬(base.length ≤ g.stop ∧ endsInNewline s = true) := by
  rw [ensureTrailingNL_flatten_iff (h.allButLast hlayout (tokens_splitWithNewlines s) hg),
    Ne, h.getLast? hlayout hg]

end Sections

/-! ## Choosing a side in every conflict -/

section Choosing

variable (base ours theirs : List Line) (w : Which)

def sideOf : Which → List Line
  | .ours => ours
  | .theirs => theirs

/-- The region with the section of one side in place of a conflict. -/
def Region.chosen (g : Region) : List Line :=
  if g.isConflict base ours theirs then
    ensureTrailingNL (g.viewOf base (sideOf ours theirs w) w)
  else g.text base ours theirs

/-- The region with one side's lines in place of a conflict. -/
def Region.resolved (g : Region) : List Line :=
  if g.isConflict base ours theirs then g.viewOf base (sideOf ours theirs w) w
  else g.text base ours theirs

/-- The sections of every conflict are the text of either side's lines, with one
newline where it is not empty and lacks its last; and one side chosen in every
conflict gives the clean regions and that side's lines, up to this newline. -/
structure FaithfulSections (gs : List Region) : Prop where
  sections : ∀ g ∈ gs, g.isConflict base ours theirs = true → ∀ w,
    (ensureTrailingNL (g.viewOf base (sideOf ours theirs w) w)).flatten =
      completed (g.viewOf base (sideOf ours theirs w) w).flatten
  chosen : ∀ w,
    let resolved := (splice base (Region.resolved base ours theirs w) 0 gs).flatten
    (splice base (Region.chosen base ours theirs w) 0 gs).flatten = resolved ∨
      (splice base (Region.chosen base ours theirs w) 0 gs).flatten = completed resolved

variable {base ours theirs w}

theorem Layout.chosen {gs : List Region} (h : Layout base gs) {pos : ℕ}
    (hsections : ∀ g ∈ gs, g.isConflict base ours theirs = true →
      (ensureTrailingNL (g.viewOf base (sideOf ours theirs w) w)).flatten =
        completed (g.viewOf base (sideOf ours theirs w) w).flatten)
    (hterm : ∀ g ∈ gs, g.stop < base.length →
      ∀ l ∈ g.viewOf base (sideOf ours theirs w) w, Terminated l) :
    (splice base (Region.chosen base ours theirs w) pos gs).flatten =
        (splice base (Region.resolved base ours theirs w) pos gs).flatten ∨
      (splice base (Region.chosen base ours theirs w) pos gs).flatten =
        completed (splice base (Region.resolved base ours theirs w) pos gs).flatten := by
  have hprepend : ∀ p x y : List UInt8, y = x ∨ y = completed x →
      p ++ y = p ++ x ∨ p ++ y = completed (p ++ x) := by
    rintro p x y (rfl | rfl)
    · exact Or.inl rfl
    · by_cases hx : x = []
      · exact Or.inl (by rw [hx]; rfl)
      · exact Or.inr (completed_append hx).symm
  have hregion : ∀ g ∈ gs, (g.chosen base ours theirs w).flatten =
      (g.resolved base ours theirs w).flatten ∨ (g.chosen base ours theirs w).flatten =
        completed (g.resolved base ours theirs w).flatten := by
    intro g hg
    rw [Region.chosen, Region.resolved]
    split
    next hconflict => exact Or.inr (hsections g hg hconflict)
    next => exact Or.inl rfl
  have hsame : ∀ g ∈ gs, g.stop < base.length →
      (g.chosen base ours theirs w).flatten = (g.resolved base ours theirs w).flatten := by
    intro g hg hstop
    rw [Region.chosen, Region.resolved]
    split
    next hconflict =>
      rw [hsections g hg hconflict]
      by_cases hview : g.viewOf base (sideOf ours theirs w) w = []
      · rw [hview]
        rfl
      · exact completed_of_endsInNewline (endsInNewline_flatten hview (hterm g hg hstop))
    next => rfl
  induction gs generalizing pos with
  | nil => exact Or.inl rfl
  | cons g gs ih =>
      simp only [splice, List.flatten_append]
      by_cases hstop : g.stop < base.length
      · rw [hsame g List.mem_cons_self hstop]
        exact hprepend _ _ _ (ih h.tail (fun g' hg' => hsections g' (List.mem_cons_of_mem _ hg'))
          (fun g' hg' => hterm g' (List.mem_cons_of_mem _ hg'))
          (fun g' hg' => hregion g' (List.mem_cons_of_mem _ hg'))
          fun g' hg' => hsame g' (List.mem_cons_of_mem _ hg'))
      · have hgs : gs = [] := by
          rw [List.eq_nil_iff_forall_not_mem]
          intro g' hg'
          have hlt := (List.pairwise_cons.mp h.last).1 g' hg'
          omega
        subst hgs
        rw [splice, splice, List.drop_of_length_le (by omega), List.flatten_nil,
          List.append_nil, List.append_nil]
        exact hprepend _ _ _ (hregion g List.mem_cons_self)

end Choosing

/-- Every section of a conflict is the text of its side, completed, exactly when
no conflict that reaches the end of the base has a side that ends in a newline. -/
theorem conflict_sections_faithful_iff (base ours theirs : List UInt8) :
    ∃ gs, mergedRegions (splitWithNewlines base) (splitWithNewlines ours)
          (splitWithNewlines theirs) = some gs ∧
      mergeText base ours theirs = some
        ((splice (splitWithNewlines base) (Region.text (splitWithNewlines base)
          (splitWithNewlines ours) (splitWithNewlines theirs)) 0 gs).flatten,
        gs.any (Region.isConflict (splitWithNewlines base) (splitWithNewlines ours)
          (splitWithNewlines theirs))) ∧
      (FaithfulSections (splitWithNewlines base) (splitWithNewlines ours)
          (splitWithNewlines theirs) gs ↔
        ∀ g ∈ gs, g.isConflict (splitWithNewlines base) (splitWithNewlines ours)
            (splitWithNewlines theirs) = true →
          g.stop = (splitWithNewlines base).length →
          endsInNewline ours = false ∧ endsInNewline theirs = false) := by
  have htokens := tokens_splitWithNewlines
  obtain ⟨cA, hcA, hA⟩ := changeRanges_spec (splitWithNewlines base) (splitWithNewlines ours) .ours
  obtain ⟨cB, hcB, hB⟩ :=
    changeRanges_spec (splitWithNewlines base) (splitWithNewlines theirs) .theirs
  have hregions := regions_spec hA hB
  have hlayout := layout_regions hA hB (htokens base) (htokens ours) (htokens theirs)
  obtain ⟨hours, htheirs⟩ :=
    hregions.sideRegions hA hB (htokens base) (htokens ours) (htokens theirs)
  refine ⟨_, by rw [mergedRegions, hcA, hcB]; rfl, ?_, ?_⟩
  · rw [mergeText, mergeLines_eq, hcA, hcB]
    simp only [Option.bind_some, mergeRanges_eq hA hB]
    rfl
  · have hstop : ∀ g ∈ regions (sortedRanges cA cB), g.stop ≤ (splitWithNewlines base).length :=
      fun g hg => hregions.ordered.stop_le g hg
    constructor
    · intro h g hg hconflict hend
      have hsection := h.sections g hg hconflict .ours
      have hsection' := h.sections g hg hconflict .theirs
      simp only [sideOf, hours.section_iff hlayout hg, htheirs.section_iff hlayout hg, hend,
        le_refl, true_and, Bool.not_eq_true] at hsection hsection'
      exact ⟨hsection, hsection'⟩
    · intro h
      have hsections : ∀ g ∈ regions (sortedRanges cA cB),
          g.isConflict (splitWithNewlines base) (splitWithNewlines ours)
            (splitWithNewlines theirs) = true → ∀ w,
          (ensureTrailingNL (g.viewOf (splitWithNewlines base)
              (sideOf (splitWithNewlines ours) (splitWithNewlines theirs) w) w)).flatten =
            completed (g.viewOf (splitWithNewlines base)
              (sideOf (splitWithNewlines ours) (splitWithNewlines theirs) w) w).flatten := by
        intro g hg hconflict w
        have hle := hstop g hg
        cases w with
        | ours =>
            refine (hours.section_iff hlayout hg).mpr ?_
            rintro ⟨hend, hnl⟩
            rw [(h g hg hconflict (by omega)).1] at hnl
            exact absurd hnl (by simp)
        | theirs =>
            refine (htheirs.section_iff hlayout hg).mpr ?_
            rintro ⟨hend, hnl⟩
            rw [(h g hg hconflict (by omega)).2] at hnl
            exact absurd hnl (by simp)
      refine ⟨hsections, fun w => hlayout.chosen (fun g hg hc => hsections g hg hc w) ?_⟩
      cases w with
      | ours => exact hours.terminated
      | theirs => exact htheirs.terminated

/-- Against an empty base, `"a\n"` and `"b\n"` are written with an empty line
after their only one. -/
theorem conflict_section_extra_line :
    mergeText [] [97, newline] [98, newline] = some (mergeStart ++ [97, newline, newline] ++
      mergeMid ++ [98, newline, newline] ++ mergeEnd, true) ∧
    ∃ gs, mergedRegions (splitWithNewlines []) (splitWithNewlines [97, newline])
        (splitWithNewlines [98, newline]) = some gs ∧
      ¬FaithfulSections (splitWithNewlines []) (splitWithNewlines [97, newline])
        (splitWithNewlines [98, newline]) gs := by
  refine ⟨by decide +kernel,
    [⟨0, 0, [⟨0, 0, 0, 2, .ours⟩, ⟨0, 0, 0, 2, .theirs⟩]⟩], rfl, fun h => ?_⟩
  have hsection := h.sections _ List.mem_cons_self rfl .ours
  exact absurd hsection (by decide)

end Text

end Nipa
