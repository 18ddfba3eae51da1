import Nipa.Text.Regions

/-!
# The merge, region by region

The merge of three texts is the base with every region replaced by the region's
text, and it reports a conflict when some region is one.
-/

namespace Nipa

namespace Text

/-- The regions of the changed ranges `cA` of ours and `cB` of theirs. -/
structure MergeRegions (base : List Line) (cA cB : List SRange) (gs : List Region) : Prop where
  ordered : Ordered base.length 0 gs
  exact : ∀ g ∈ gs, g.Exact
  ours_ranges : (gs.flatMap Region.ranges).filter (fun r => r.side = .ours) = cA
  theirs_ranges : (gs.flatMap Region.ranges).filter (fun r => r.side = .theirs) = cB

section Merge

variable {base ours theirs : List Line} {cA cB : List SRange}

theorem regions_spec (hA : SideRanges base ours .ours cA)
    (hB : SideRanges base theirs .theirs cB) :
    MergeRegions base cA cB (regions (sortedRanges cA cB)) := by
  have hsorted := sortedRanges_spec hA hB
  obtain ⟨hfilterA, hfilterB⟩ := filter_sortedRanges hA hB
  cases hrs : sortedRanges cA cB with
  | nil =>
      rw [hrs] at hfilterA hfilterB
      exact ⟨Nat.zero_le _, fun g hg => absurd hg (by simp [regions]), hfilterA, hfilterB⟩
  | cons r rs =>
      rw [hrs] at hsorted hfilterA hfilterB
      have hr := hsorted.bounds r List.mem_cons_self
      obtain ⟨hordered, hall, hexact⟩ := regionsFrom_spec hsorted.tail
        (Collecting.begin hsorted) hr.2 (Nat.zero_le _) fun r' hr' r'' hr'' hside => by
          obtain rfl := List.mem_singleton.mp hr'
          exact (List.pairwise_cons.mp hsorted.separated).1 r'' hr'' hside
      refine ⟨hordered, hexact, ?_, ?_⟩
      · rw [regions, hall]
        exact hfilterA
      · rw [regions, hall]
        exact hfilterB

theorem mergeRanges_eq (hA : SideRanges base ours .ours cA)
    (hB : SideRanges base theirs .theirs cB) :
    mergeRanges base ours theirs (sortedRanges cA cB) =
      (splice base (Region.text base ours theirs) 0 (regions (sortedRanges cA cB)),
        (regions (sortedRanges cA cB)).any (Region.isConflict base ours theirs)) := by
  have hsorted := sortedRanges_spec hA hB
  cases hrs : sortedRanges cA cB with
  | nil => rfl
  | cons r rs =>
      rw [hrs] at hsorted
      obtain ⟨hsplice, hany⟩ := @mergeLoop_eq base ours theirs _ _ hsorted.tail _ _ _ 0
        (Collecting.begin hsorted) fun r' hr' r'' hr'' hside => by
          obtain rfl := List.mem_singleton.mp hr'
          exact (List.pairwise_cons.mp hsorted.separated).1 r'' hr'' hside
      rw [mergeRanges, regions, hsplice, hany]

/-! ## An empty base -/

theorem SideRanges.of_nil {side : List Line} {w : Which} {rs : List SRange}
    (h : SideRanges [] side w rs) :
    rs = [] ∧ side = [] ∨ side ≠ [] ∧ ∃ r, rs = [r] ∧ r.aStart = 0 ∧ r.aEnd = 0 ∧ r.side = w ∧
      slice side r.bStart r.bEnd = side := by
  have hview := h.view_eq
  cases rs with
  | nil => exact Or.inl ⟨rfl, hview.symm⟩
  | cons r rs =>
      have hr := h.bounds r List.mem_cons_self
      simp only [List.length_nil] at hr
      have hrs : rs = [] := by
        rw [List.eq_nil_iff_forall_not_mem]
        intro r' hr'
        have hlt := (List.pairwise_cons.mp h.separated).1 r' hr'
        have hr' := h.bounds r' (List.mem_cons_of_mem _ hr')
        simp only [List.length_nil] at hr'
        omega
      subst hrs
      have hslice : slice side r.bStart r.bEnd = side := by
        simpa [view, slice] using hview
      refine Or.inr ⟨?_, r, rfl, by omega, by omega, h.side_eq r List.mem_cons_self, hslice⟩
      rintro rfl
      simp only [List.length_nil] at hr
      omega

theorem mergeLines_eq (base ours theirs : List Line) :
    mergeLines base ours theirs =
      (changeRanges base ours .ours).bind fun cA =>
        (changeRanges base theirs .theirs).bind fun cB =>
          some (mergeRanges base ours theirs (sortedRanges cA cB)) := by
  rw [mergeLines]
  split
  next hbase =>
    subst hbase
    obtain ⟨cA, hcA, hA⟩ := changeRanges_spec [] ours .ours
    obtain ⟨cB, hcB, hB⟩ := changeRanges_spec [] theirs .theirs
    rw [hcA, hcB]
    simp only [Option.bind_some]
    rcases hA.of_nil with ⟨rfl, rfl⟩ | ⟨hours, r, rfl, hrs, hre, hrside, hr⟩ <;>
      rcases hB.of_nil with ⟨rfl, rfl⟩ | ⟨htheirs, r', rfl, hrs', hre', hrside', hr'⟩
    · simp [sortedRanges, mergeRanges]
    · simp [sortedRanges, mergeRanges, mergeLoop, clusterText, sideView, sideViewFrom,
        hrs', hre', hrside', hr', slice_self]
    · simp [sortedRanges, mergeRanges, mergeLoop, clusterText, sideView, sideViewFrom,
        hours, hrs, hre, hrside, hr, slice_self]
    · have hsort : sortedRanges [r] [r'] = [r, r'] := by
        have hbefore : r.before r' := by simp [SRange.before, hrs, hre, hrs', hre', hrside]
        simp [sortedRanges, List.insertionSort, hbefore]
      rw [hsort, if_neg hours, if_neg htheirs]
      simp [mergeRanges, mergeLoop, rangesIntersect, clusterText, sideView, sideViewFrom,
        hrs, hre, hrside, hr, hrs', hre', hrside', hr', slice_self]
      split <;> simp
  next => rfl

theorem mergeLines_spec (base ours theirs : List Line) :
    ∃ cA cB gs, changeRanges base ours .ours = some cA ∧
      changeRanges base theirs .theirs = some cB ∧ SideRanges base ours .ours cA ∧
      SideRanges base theirs .theirs cB ∧ MergeRegions base cA cB gs ∧
      mergeLines base ours theirs =
        some (splice base (Region.text base ours theirs) 0 gs,
          gs.any (Region.isConflict base ours theirs)) := by
  obtain ⟨cA, hcA, hA⟩ := changeRanges_spec base ours .ours
  obtain ⟨cB, hcB, hB⟩ := changeRanges_spec base theirs .theirs
  refine ⟨cA, cB, _, hcA, hcB, hA, hB, regions_spec hA hB, ?_⟩
  rw [mergeLines_eq, hcA, hcB]
  simp only [Option.bind_some, mergeRanges_eq hA hB]

end Merge

/-! ## Either side, region by region -/

section Sides

variable {base side : List Line} {w : Which}

/-- The region as a side has it. -/
def Region.viewOf (base side : List Line) (w : Which) (g : Region) : List Line :=
  sideView g.ranges w base side g.start g.stop

theorem Region.Exact.viewOf_eq {g : Region} (h : g.Exact) :
    g.viewOf base side w =
      view base side g.stop g.start (g.ranges.filter fun r => r.side = w) :=
  sideViewFrom_eq fun r hr => (h.within r hr).2.2

theorem Ordered.le_start {n pos : ℕ} {gs : List Region} (h : Ordered n pos gs)
    (hexact : ∀ g ∈ gs, g.Exact) : ∀ r ∈ gs.flatMap Region.ranges, pos ≤ r.aStart := by
  induction gs generalizing pos with
  | nil => exact fun r hr => absurd hr (by simp)
  | cons g gs ih =>
      intro r hr
      obtain ⟨hpos, hle, -, hrest⟩ := h
      rw [List.flatMap_cons, List.mem_append] at hr
      rcases hr with hr | hr
      · have hr' := (hexact g List.mem_cons_self).within r hr
        omega
      · have hr' := ih hrest (fun g' hg' => hexact g' (List.mem_cons_of_mem _ hg')) r hr
        omega

theorem splice_viewOf {gs : List Region} {pos : ℕ} (hordered : Ordered base.length pos gs)
    (hexact : ∀ g ∈ gs, g.Exact) :
    splice base (Region.viewOf base side w) pos gs =
      view base side base.length pos
        ((gs.flatMap Region.ranges).filter fun r => r.side = w) := by
  induction gs generalizing pos with
  | nil => rw [splice, List.flatMap_nil, List.filter_nil, view, slice_length]
  | cons g gs ih =>
      obtain ⟨hpos, hle, hstop, hrest⟩ := hordered
      have hg := hexact g List.mem_cons_self
      have hwithin : ∀ r ∈ g.ranges.filter fun r => decide (r.side = w),
          g.start ≤ r.aStart ∧ r.aEnd ≤ g.stop := by
        intro r hr
        have hr' := hg.within r (List.mem_of_mem_filter hr)
        exact ⟨hr'.1, hr'.2.2⟩
      have hlater : ∀ r ∈ (gs.flatMap Region.ranges).filter fun r => decide (r.side = w),
          g.stop ≤ r.aStart := fun r hr =>
        hrest.le_start (fun g' hg' => hexact g' (List.mem_cons_of_mem _ hg')) r
          (List.mem_of_mem_filter hr)
      have hexact' : ∀ g' ∈ gs, g'.Exact := fun g' hg' => hexact g' (List.mem_cons_of_mem _ hg')
      rw [splice, ih hrest hexact', hg.viewOf_eq, List.flatMap_cons, List.filter_append,
        view_append (hpos.trans hle) hstop (fun r hr => (hwithin r hr).2) hlater]
      have hcut : view base side g.stop pos
          ([] ++ g.ranges.filter fun r => decide (r.side = w)) =
            slice base pos g.start ++
              view base side g.stop g.start (g.ranges.filter fun r => decide (r.side = w)) :=
        view_append hpos hle (by simp) fun r hr => (hwithin r hr).1
      rw [List.nil_append] at hcut
      rw [hcut]

end Sides

theorem MergeRegions.sides {base ours theirs : List Line} {cA cB : List SRange}
    {gs : List Region} (h : MergeRegions base cA cB gs) (hA : SideRanges base ours .ours cA)
    (hB : SideRanges base theirs .theirs cB) :
    splice base (Region.oursView base ours) 0 gs = ours ∧
      splice base (Region.theirsView base theirs) 0 gs = theirs := by
  have hours := @splice_viewOf base ours .ours gs 0 h.ordered h.exact
  have htheirs := @splice_viewOf base theirs .theirs gs 0 h.ordered h.exact
  rw [h.ours_ranges, hA.view_eq] at hours
  rw [h.theirs_ranges, hB.view_eq] at htheirs
  exact ⟨hours, htheirs⟩

end Text

end Nipa
