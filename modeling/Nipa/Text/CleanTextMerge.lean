import Nipa.Text.MergeRegions

/-!
# A clean text merge keeps every change

Only the last line of a text can lack its newline.  A changed range that does
not reach the end of the base is followed by a kept line, and no range begins at
the end of the base, so lines without a newline come last in the merge as well.
-/

namespace Nipa

namespace Text

/-! ## Lines of a text -/

/-- All lines but the last are terminated. -/
def AllButLast (ls : List Line) : Prop :=
  ∀ l ∈ ls.dropLast, Terminated l

/-- The lines of a text: the last one has no newline, all others are
terminated. -/
structure Tokens (ls : List Line) : Prop where
  allButLast : AllButLast ls
  last : ∀ l, ls.getLast? = some l → newline ∉ l

theorem tokens_splitWithNewlines (s : List UInt8) : Tokens (splitWithNewlines s) := by
  rw [splitWithNewlines]
  split
  next => exact ⟨by simp [AllButLast], by simp⟩
  next =>
    obtain ⟨ls, last, heq, hls, hlast⟩ := splitAfter_spec s
    rw [heq]
    refine ⟨by simpa [AllButLast] using hls, fun l hl => ?_⟩
    obtain rfl : last = l := by simpa using hl
    exact hlast

theorem splitWithNewlines_flatten (s : List UInt8) : (splitWithNewlines s).flatten = s := by
  rw [splitWithNewlines]
  split
  next h => rw [h, List.flatten_nil]
  next => exact splitAfter_flatten s

theorem AllButLast.of_append {as bs : List Line} (h : AllButLast (as ++ bs)) :
    AllButLast bs := by
  cases bs with
  | nil => simp [AllButLast]
  | cons b bs =>
      intro l hl
      refine h l ?_
      rw [List.dropLast_append_of_ne_nil (by simp)]
      exact List.mem_append_right _ hl

theorem AllButLast.append {as bs : List Line} (has : ∀ l ∈ as, Terminated l)
    (hbs : AllButLast bs) : AllButLast (as ++ bs) := by
  intro l hl
  cases bs with
  | nil =>
      rw [List.append_nil] at hl
      exact has l ((List.dropLast_sublist as).subset hl)
  | cons b bs =>
      rw [List.dropLast_append_of_ne_nil (by simp)] at hl
      rcases List.mem_append.mp hl with hl | hl
      · exact has l hl
      · exact hbs l hl

theorem AllButLast.terminated {ls : List Line} (h : AllButLast ls) {i : ℕ} {l : Line}
    (hi : i + 1 < ls.length) (hl : ls[i]? = some l) : Terminated l := by
  refine h l ?_
  obtain ⟨hlt, rfl⟩ := List.getElem?_eq_some_iff.mp hl
  rw [List.mem_iff_getElem]
  exact ⟨i, by rw [List.length_dropLast]; omega, List.getElem_dropLast _⟩

theorem mem_slice {ls : List Line} {s e : ℕ} {l : Line} (h : l ∈ slice ls s e) :
    ∃ i, i < e ∧ ls[i]? = some l := by
  obtain ⟨i, hi, rfl⟩ := List.mem_iff_getElem.mp h
  rw [slice, List.length_take, List.length_drop] at hi
  refine ⟨s + i, by omega, ?_⟩
  simp only [slice, List.getElem_take, List.getElem_drop]
  exact List.getElem?_eq_getElem (by omega)

theorem mem_view {base side : List Line} {stop pos : ℕ} {rs : List SRange} {l : Line}
    (hrs : ∀ r ∈ rs, r.aStart ≤ stop) (h : l ∈ view base side stop pos rs) :
    (∃ i, i < stop ∧ base[i]? = some l) ∨ ∃ r ∈ rs, ∃ i, i < r.bEnd ∧ side[i]? = some l := by
  induction rs generalizing pos with
  | nil => exact Or.inl (mem_slice h)
  | cons r rs ih =>
      rw [view, List.mem_append, List.mem_append] at h
      rcases h with (h | h) | h
      · obtain ⟨i, hi, hget⟩ := mem_slice h
        have hr := hrs r List.mem_cons_self
        exact Or.inl ⟨i, by omega, hget⟩
      · obtain ⟨i, hi, hget⟩ := mem_slice h
        exact Or.inr ⟨r, List.mem_cons_self, i, hi, hget⟩
      · rcases ih (fun r' hr' => hrs r' (List.mem_cons_of_mem _ hr')) h with h | ⟨r', hr', h⟩
        · exact Or.inl h
        · exact Or.inr ⟨r', List.mem_cons_of_mem _ hr', h⟩

/-! ## The end of the base -/

section Ends

variable {base side : List Line} {w : Which} {rs : List SRange}

/-- No range begins at the end of the base: the line before it would be the
last line of the base and have a line after it on the side. -/
theorem SideRanges.start_lt (h : SideRanges base side w rs) (hbase : Tokens base)
    (hside : Tokens side) (hne : base ≠ []) {r : SRange} (hr : r ∈ rs) :
    r.aStart < base.length := by
  have hpos := List.length_pos_of_ne_nil hne
  obtain ⟨hle, hend, hle', hend', hempty⟩ := h.bounds r hr
  by_contra hlt
  obtain ⟨hbpos, k, hk, hk'⟩ := h.preceded r hr (by omega)
  have hterm := hside.allButLast.terminated (by omega) hk'
  have hlast : base.getLast? = some k := by
    rw [List.getLast?_eq_getElem?, show base.length - 1 = r.aStart - 1 by omega, hk]
  obtain ⟨v, -, rfl⟩ := hterm
  exact hbase.last _ hlast (by simp)

theorem Region.Exact.terminated {g : Region} (hg : g.Exact) (h : SideRanges base side w rs)
    (hbase : Tokens base) (hside : Tokens side) (hstop : g.stop < base.length)
    (hranges : ∀ r ∈ g.ranges, r.side = w → r ∈ rs) :
    ∀ l ∈ g.viewOf base side w, Terminated l := by
  intro l hl
  rw [hg.viewOf_eq] at hl
  have hmem : ∀ r ∈ g.ranges.filter fun r => decide (r.side = w),
      r ∈ g.ranges ∧ r ∈ rs := by
    intro r hr
    obtain ⟨hr, hw⟩ := List.mem_filter.mp hr
    exact ⟨hr, hranges r hr (of_decide_eq_true hw)⟩
  have hstart : ∀ r ∈ g.ranges.filter fun r => decide (r.side = w), r.aStart ≤ g.stop := by
    intro r hr
    have hr' := hg.within r (hmem r hr).1
    omega
  rcases mem_view hstart hl with ⟨i, hi, hget⟩ | ⟨r, hr, i, hi, hget⟩
  · exact hbase.allButLast.terminated (by omega) hget
  · have hr' := hg.within r (hmem r hr).1
    have hfollowed := h.followed r (hmem r hr).2 (by omega)
    exact hside.allButLast.terminated (by omega) hget

end Ends

/-! ## The lines of a splice -/

section Splice

variable {base ours theirs : List Line} {cA cB : List SRange}

/-- What is known of the regions from one on. -/
structure RestRegions (base : List Line) (cA cB : List SRange) (pos : ℕ)
    (gs : List Region) : Prop where
  ordered : Ordered base.length pos gs
  exact : ∀ g ∈ gs, g.Exact
  ours : ∀ g ∈ gs, ∀ r ∈ g.ranges, r.side = .ours → r ∈ cA
  theirs : ∀ g ∈ gs, ∀ r ∈ g.ranges, r.side = .theirs → r ∈ cB

theorem MergeRegions.rest {gs : List Region} (h : MergeRegions base cA cB gs) :
    RestRegions base cA cB 0 gs where
  ordered := h.ordered
  exact := h.exact
  ours g hg r hr hside := by
    rw [← h.ours_ranges, List.mem_filter]
    exact ⟨List.mem_flatMap.mpr ⟨g, hg, hr⟩, by simpa using hside⟩
  theirs g hg r hr hside := by
    rw [← h.theirs_ranges, List.mem_filter]
    exact ⟨List.mem_flatMap.mpr ⟨g, hg, hr⟩, by simpa using hside⟩

variable {pos : ℕ} {g : Region} {gs : List Region}

theorem RestRegions.tail (h : RestRegions base cA cB pos (g :: gs)) :
    RestRegions base cA cB g.stop gs where
  ordered := h.ordered.2.2.2
  exact g' hg' := h.exact g' (List.mem_cons_of_mem _ hg')
  ours g' hg' := h.ours g' (List.mem_cons_of_mem _ hg')
  theirs g' hg' := h.theirs g' (List.mem_cons_of_mem _ hg')

theorem RestRegions.start_lt (h : RestRegions base cA cB pos gs)
    (hA : SideRanges base ours .ours cA) (hB : SideRanges base theirs .theirs cB)
    (hbase : Tokens base) (hours : Tokens ours) (htheirs : Tokens theirs) (hne : base ≠ []) :
    ∀ g ∈ gs, g.start < base.length := by
  intro g hg
  obtain ⟨r, rs, hrs⟩ := List.exists_cons_of_ne_nil (h.exact g hg).ne_nil
  have hr : r ∈ g.ranges := by rw [hrs]; exact List.mem_cons_self
  have hstart := ((h.exact g hg).within r hr).1
  have hlt : r.aStart < base.length := by
    cases hside : r.side with
    | ours => exact hA.start_lt hbase hours hne (h.ours g hg r hr hside)
    | theirs => exact hB.start_lt hbase htheirs hne (h.theirs g hg r hr hside)
  omega

/-- Where every region is replaced by one side's view, only the last line of
the result can lack its newline. -/
theorem RestRegions.allButLast (h : RestRegions base cA cB pos gs)
    (hA : SideRanges base ours .ours cA) (hB : SideRanges base theirs .theirs cB)
    (hbase : Tokens base) (hours : Tokens ours) (htheirs : Tokens theirs) (hne : base ≠ [])
    {text : Region → List Line}
    (htext : ∀ g ∈ gs, text g = g.oursView base ours ∨ text g = g.theirsView base theirs)
    (hrestA : AllButLast (splice base (Region.oursView base ours) pos gs))
    (hrestB : AllButLast (splice base (Region.theirsView base theirs) pos gs)) :
    AllButLast (splice base text pos gs) := by
  have hkept : ∀ {s e : ℕ}, e < base.length → ∀ l ∈ slice base s e, Terminated l := by
    intro s e he l hl
    obtain ⟨i, hi, hget⟩ := mem_slice hl
    exact hbase.allButLast.terminated (by omega) hget
  induction gs generalizing pos with
  | nil => exact hrestA
  | cons g gs ih =>
      have hg := h.exact g List.mem_cons_self
      have hstart := h.start_lt hA hB hbase hours htheirs hne g List.mem_cons_self
      have hview := htext g List.mem_cons_self
      rw [splice] at hrestA hrestB ⊢
      rw [List.append_assoc] at hrestA hrestB ⊢
      refine AllButLast.append (hkept hstart) ?_
      have hrestA' := hrestA.of_append
      have hrestB' := hrestB.of_append
      by_cases hstop : g.stop < base.length
      · refine AllButLast.append ?_ (ih h.tail
          (fun g' hg' => htext g' (List.mem_cons_of_mem _ hg')) hrestA'.of_append
          hrestB'.of_append)
        rcases hview with heq | heq <;> rw [heq]
        · exact hg.terminated hA hbase hours hstop (h.ours g List.mem_cons_self)
        · exact hg.terminated hB hbase htheirs hstop (h.theirs g List.mem_cons_self)
      · -- no region follows one that reaches the end
        have hgs : gs = [] := by
          rw [List.eq_nil_iff_forall_not_mem]
          intro g' hg'
          have hlt := h.tail.start_lt hA hB hbase hours htheirs hne g' hg'
          obtain ⟨g'', gs', rfl⟩ := List.exists_cons_of_ne_nil (List.ne_nil_of_mem hg')
          have hlt' := h.tail.start_lt hA hB hbase hours htheirs hne g'' List.mem_cons_self
          have hle := h.ordered.2.2.2.1
          omega
        subst hgs
        rw [splice, List.drop_of_length_le (by omega), List.append_nil] at hrestA' hrestB' ⊢
        rcases hview with heq | heq <;> rw [heq]
        · exact hrestA'
        · exact hrestB'

end Splice

/-! ## What a clean merge is -/

/-- What replaces a region of a clean merge: the one range a side changed, by
the lines of that side, or overlapping ranges that both sides changed, by the
lines both have. -/
inductive Replaced (base ours theirs : List Line) (g : Region) : Prop
  | byOurs (r : SRange) (hg : g = ⟨r.aStart, r.aEnd, [r]⟩) (hside : r.side = .ours)
      (htext : g.text base ours theirs = slice ours r.bStart r.bEnd)
  | byTheirs (r : SRange) (hg : g = ⟨r.aStart, r.aEnd, [r]⟩) (hside : r.side = .theirs)
      (htext : g.text base ours theirs = slice theirs r.bStart r.bEnd)
  | byBoth (hours : g.changedBy .ours = true) (htheirs : g.changedBy .theirs = true)
      (htext : g.text base ours theirs = g.oursView base ours)
      (htext' : g.text base ours theirs = g.theirsView base theirs)

/-- The lines `out` of a clean merge: the base with each region replaced once,
where every changed range is in exactly one region and every line of a region
in one of its ranges. -/
structure KeepsChanges (base ours theirs : List Line) (cA cB : List SRange)
    (gs : List Region) (out : List Line) : Prop where
  regions : MergeRegions base cA cB gs
  out_eq : out = splice base (Region.text base ours theirs) 0 gs
  replaced : ∀ g ∈ gs, Replaced base ours theirs g
  ours_eq : ours = splice base (Region.oursView base ours) 0 gs
  theirs_eq : theirs = splice base (Region.theirsView base theirs) 0 gs
  lines : ∀ l ∈ out.dropLast, Terminated l

section Clean

variable {base ours theirs : List Line}

theorem Region.viewOf_single (base side : List Line) (r : SRange) :
    Region.viewOf base side r.side ⟨r.aStart, r.aEnd, [r]⟩ = slice side r.bStart r.bEnd := by
  simp [Region.viewOf, sideView, sideViewFrom, slice_self]

theorem Region.Exact.replaced {g : Region} (hg : g.Exact)
    (h : g.isConflict base ours theirs = false) : Replaced base ours theirs g := by
  rcases hg.alone with ⟨r, hr, hstart, hstop⟩ | hboth
  · have heq : g = ⟨r.aStart, r.aEnd, [r]⟩ := by
      cases g
      simp_all
    cases hside : r.side with
    | ours =>
        refine Replaced.byOurs r heq hside ?_
        have hview := Region.viewOf_single base ours r
        rw [hside, ← heq] at hview
        rw [Region.text, h, if_neg (by simp), if_pos (by simp [changedBy, hr, hside])]
        exact hview
    | theirs =>
        refine Replaced.byTheirs r heq hside ?_
        have hview := Region.viewOf_single base theirs r
        rw [hside, ← heq] at hview
        rw [Region.text, h, if_neg (by simp), if_neg (by simp [changedBy, hr, hside])]
        exact hview
  · have hchanged : ∀ w, g.changedBy w = true := by
      intro w
      obtain ⟨r, hr, hside⟩ := hboth w
      exact List.any_eq_true.mpr ⟨r, hr, by simpa using hside⟩
    have heq : g.oursView base ours = g.theirsView base theirs := by
      simpa [isConflict, hchanged] using h
    have htext : g.text base ours theirs = g.oursView base ours := by
      rw [Region.text, h, if_neg (by simp), if_pos (hchanged .ours)]
    exact Replaced.byBoth (hchanged .ours) (hchanged .theirs) htext (htext.trans heq)

theorem Replaced.text_eq {g : Region} (h : Replaced base ours theirs g) :
    g.text base ours theirs = g.oursView base ours ∨
      g.text base ours theirs = g.theirsView base theirs := by
  rcases h with ⟨r, rfl, hside, htext⟩ | ⟨r, rfl, hside, htext⟩ | ⟨-, -, htext, -⟩
  · have hview := Region.viewOf_single base ours r
    rw [hside] at hview
    exact Or.inl (htext.trans hview.symm)
  · have hview := Region.viewOf_single base theirs r
    rw [hside] at hview
    exact Or.inr (htext.trans hview.symm)
  · exact Or.inl htext

theorem mergeLines_nil {out : List Line} (h : mergeLines [] ours theirs = some (out, false)) :
    out = ours ∨ out = theirs := by
  rw [mergeLines, if_pos rfl] at h
  split at h
  · simp_all
  · split at h
    · simp_all
    · split at h
      · simp_all
      · simp at h

/-- A text merge always ends, and when it reports no conflict its output is the
base with the changed ranges of both sides replaced once each: no change is lost
or made twice, a change both sides made appears once, everything between the
ranges is kept, and every line but the last ends in its only newline. -/
theorem clean_text_merge_keeps_changes (base ours theirs : List UInt8) :
    ∃ merged conflicted, mergeText base ours theirs = some (merged, conflicted) ∧
      (conflicted = false → ∃ cA cB gs out,
        changeRanges (splitWithNewlines base) (splitWithNewlines ours) .ours = some cA ∧
        changeRanges (splitWithNewlines base) (splitWithNewlines theirs) .theirs = some cB ∧
        SideRanges (splitWithNewlines base) (splitWithNewlines ours) .ours cA ∧
        SideRanges (splitWithNewlines base) (splitWithNewlines theirs) .theirs cB ∧
        KeepsChanges (splitWithNewlines base) (splitWithNewlines ours)
          (splitWithNewlines theirs) cA cB gs out ∧
        merged = out.flatten) := by
  obtain ⟨cA, cB, gs, hcA, hcB, hA, hB, hregions, hmerge⟩ := mergeLines_spec
    (splitWithNewlines base) (splitWithNewlines ours) (splitWithNewlines theirs)
  refine ⟨_, _, by rw [mergeText, hmerge]; rfl, fun hclean => ?_⟩
  refine ⟨cA, cB, gs, _, hcA, hcB, hA, hB, ?_, rfl⟩
  have hreplaced : ∀ g ∈ gs, Replaced (splitWithNewlines base) (splitWithNewlines ours)
      (splitWithNewlines theirs) g := by
    intro g hg
    refine (hregions.exact g hg).replaced ?_
    simpa using List.any_eq_false.mp hclean g hg
  obtain ⟨hours, htheirs⟩ := hregions.sides hA hB
  refine ⟨hregions, rfl, hreplaced, hours.symm, htheirs.symm, ?_⟩
  have htokens := tokens_splitWithNewlines
  change AllButLast _
  by_cases hne : splitWithNewlines base = []
  · rw [hclean, hne] at hmerge
    rw [hne]
    rcases mergeLines_nil hmerge with heq | heq <;> rw [heq]
    · exact (htokens ours).allButLast
    · exact (htokens theirs).allButLast
  · refine hregions.rest.allButLast hA hB (htokens base) (htokens ours) (htokens theirs) hne
      (fun g hg => (hreplaced g hg).text_eq) ?_ ?_
    · rw [hours]
      exact (htokens ours).allButLast
    · rw [htheirs]
      exact (htokens theirs).allButLast

end Clean

end Text

end Nipa
