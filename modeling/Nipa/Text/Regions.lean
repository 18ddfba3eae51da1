import Mathlib.Data.List.Pairwise
import Nipa.Text.ChangeRanges

/-!
# The regions of a merge

The sorted ranges of both sides are coalesced into regions.  Regions are
disjoint and in order, every range is in exactly one of them, and each covers
no more of the base than its ranges do.  The merge replaces every region and
keeps the base between them, and either side is the base with every region
replaced by the side's view of it.
-/

namespace Nipa

namespace Text

/-- A cluster of overlapping ranges over the base lines from `start` to `stop`. -/
structure Region where
  start : ℕ
  stop : ℕ
  ranges : List SRange

/-- The regions from the one collected so far. -/
def regionsFrom : ℕ → ℕ → List SRange → List SRange → List Region
  | s, e, cl, [] => [⟨s, e, cl⟩]
  | s, e, cl, r :: rs =>
      if rangesIntersect s e r then
        regionsFrom (min s r.aStart) (max e r.aEnd) (cl ++ [r]) rs
      else ⟨s, e, cl⟩ :: regionsFrom r.aStart r.aEnd [r] rs

def regions : List SRange → List Region
  | [] => []
  | r :: rs => regionsFrom r.aStart r.aEnd [r] rs

/-- The base from `pos` on with every region replaced by its text. -/
def splice (base : List Line) (text : Region → List Line) : ℕ → List Region → List Line
  | pos, [] => base.drop pos
  | pos, g :: gs => slice base pos g.start ++ text g ++ splice base text g.stop gs

/-! ## Sorted ranges -/

/-- The ranges of both sides in the order the merge goes over them. -/
structure SortedRanges (n : ℕ) (rs : List SRange) : Prop where
  sorted : rs.Pairwise SRange.before
  bounds : ∀ r ∈ rs, r.aStart ≤ r.aEnd ∧ r.aEnd ≤ n
  separated : rs.Pairwise fun r r' => r.side = r'.side → r.aEnd < r'.aStart

namespace SortedRanges

variable {n : ℕ} {r : SRange} {rs : List SRange}

theorem tail (h : SortedRanges n (r :: rs)) : SortedRanges n rs where
  sorted := (List.pairwise_cons.mp h.sorted).2
  bounds r' hr' := h.bounds r' (List.mem_cons_of_mem _ hr')
  separated := (List.pairwise_cons.mp h.separated).2

end SortedRanges

/-- A cluster as it is collected: `rest` are the ranges still to come. -/
structure Collecting (s e : ℕ) (cl rest : List SRange) : Prop where
  ne_nil : cl ≠ []
  within : ∀ r ∈ cl, s ≤ r.aStart ∧ r.aStart ≤ r.aEnd ∧ r.aEnd ≤ e
  covered : ∀ i, s ≤ i → i < e → ∃ r ∈ cl, r.aStart ≤ i ∧ i < r.aEnd
  /-- Later ranges start later, and an insertion at the start of a replacement
  would have come before it. -/
  later : ∀ r ∈ rest, s ≤ r.aStart ∧ (s < e → s < r.aEnd)
  /-- Ranges of one side do not meet. -/
  alone : (∃ r, cl = [r] ∧ r.aStart = s ∧ r.aEnd = e) ∨ ∀ w : Which, ∃ r ∈ cl, r.side = w

namespace Collecting

variable {s e n : ℕ} {cl rest : List SRange} {r : SRange} {rs : List SRange}

theorem start_le_stop (h : Collecting s e cl rest) : s ≤ e := by
  obtain ⟨r, cl', rfl⟩ := List.exists_cons_of_ne_nil h.ne_nil
  have hr := h.within r List.mem_cons_self
  omega

theorem begin (h : SortedRanges n (r :: rs)) : Collecting r.aStart r.aEnd [r] rs where
  ne_nil := by simp
  within r' hr' := by
    obtain rfl := List.mem_singleton.mp hr'
    have := h.bounds r' List.mem_cons_self
    omega
  covered i hs he := ⟨r, by simp, hs, he⟩
  later r' hr' := by
    have hbefore := (List.pairwise_cons.mp h.sorted).1 r' hr'
    have hr := h.bounds r' (List.mem_cons_of_mem _ hr')
    rw [SRange.before] at hbefore
    omega
  alone := Or.inl ⟨r, rfl, rfl, rfl⟩

/-- The next range joins the cluster exactly when it starts inside of it, or is
an insertion at the same place. -/
theorem intersect_iff (h : Collecting s e cl (r :: rs)) (_ : r.aStart ≤ r.aEnd) :
    rangesIntersect s e r = true ↔
      r.aStart < e ∨ s = e ∧ r.aStart = s ∧ r.aEnd = s := by
  have hse := h.start_le_stop
  obtain ⟨hstart, hlater⟩ := h.later r List.mem_cons_self
  rw [rangesIntersect]
  split
  next => rw [decide_eq_true_eq]; omega
  next =>
    split
    next => simp only [Bool.and_eq_true, decide_eq_true_eq]; omega
    next =>
      have hpos := hlater (by omega)
      split <;> simp only [Bool.and_eq_true, decide_eq_true_eq] <;> omega

/-- A range that does not overlap lies behind the cluster, and so do all after
it. -/
theorem stop_le (h : Collecting s e cl (r :: rs)) (hsorted : SortedRanges n (r :: rs))
    (hnot : ¬rangesIntersect s e r = true) : ∀ r' ∈ r :: rs, e ≤ r'.aStart := by
  have hse := h.start_le_stop
  have hstart := (h.later r List.mem_cons_self).1
  have hr := (hsorted.bounds r List.mem_cons_self).1
  rw [h.intersect_iff hr] at hnot
  intro r' hr'
  rcases List.mem_cons.mp hr' with rfl | hr'
  · omega
  · have hbefore := (List.pairwise_cons.mp hsorted.sorted).1 r' hr'
    rw [SRange.before] at hbefore
    omega

theorem extend (h : Collecting s e cl (r :: rs)) (hsorted : SortedRanges n (r :: rs))
    (hside : ∀ r' ∈ cl, r'.side = r.side → r'.aEnd < r.aStart)
    (hmeet : rangesIntersect s e r = true) :
    min s r.aStart = s ∧ Collecting s (max e r.aEnd) (cl ++ [r]) rs := by
  have hse := h.start_le_stop
  obtain ⟨hstart, -⟩ := h.later r List.mem_cons_self
  have hr := (hsorted.bounds r List.mem_cons_self).1
  rw [h.intersect_iff hr] at hmeet
  refine ⟨by omega, ?_⟩
  constructor
  case ne_nil => simp
  case within =>
      intro r' hr'
      rcases List.mem_append.mp hr' with hr' | hr'
      · have := h.within r' hr'
        omega
      · obtain rfl := List.mem_singleton.mp hr'
        omega
  case covered =>
      intro i hsi hie
      by_cases hi : i < e
      · obtain ⟨r', hr', hcover⟩ := h.covered i hsi hi
        exact ⟨r', by simp [hr'], hcover⟩
      · exact ⟨r, by simp, by omega, by omega⟩
  case later =>
      intro r' hr'
      obtain ⟨hs', hlater'⟩ := h.later r' (List.mem_cons_of_mem _ hr')
      exact ⟨hs', fun hlt => hlater' (by omega)⟩
  case alone =>
      -- a single range and the one that joins it are of different sides
      refine Or.inr fun w => ?_
      rcases h.alone with ⟨r', rfl, hs', he'⟩ | hboth
      · have hne : r'.side ≠ r.side := by
          intro heq
          have hlt := hside r' (by simp) heq
          omega
        by_cases hw : r.side = w
        · exact ⟨r, by simp, hw⟩
        · refine ⟨r', by simp, ?_⟩
          cases w <;> cases hr'side : r'.side <;> cases hrside : r.side <;> simp_all
      · obtain ⟨r', hr', hw⟩ := hboth w
        exact ⟨r', by simp [hr'], hw⟩

end Collecting

/-! ## The regions of sorted ranges -/

namespace Region

/-- The region is exactly what its ranges cover. -/
def Exact (g : Region) : Prop :=
  Collecting g.start g.stop g.ranges []

variable (base ours theirs : List Line) (g : Region)

/-- Our side's lines for the region. -/
def oursView : List Line :=
  sideView g.ranges .ours base ours g.start g.stop

def theirsView : List Line :=
  sideView g.ranges .theirs base theirs g.start g.stop

/-- A side changed the region. -/
def changedBy (w : Which) : Bool :=
  g.ranges.any fun r => r.side = w

/-- Both sides changed the region, differently. -/
def isConflict : Bool :=
  g.changedBy .ours && g.changedBy .theirs && g.oursView base ours ≠ g.theirsView base theirs

/-- What replaces the region. -/
def text : List Line :=
  if g.isConflict base ours theirs then
    appendConflictMarkers (g.oursView base ours) (g.theirsView base theirs)
  else if g.changedBy .ours then g.oursView base ours
  else g.theirsView base theirs

theorem clusterText_eq : clusterText base ours theirs g.ranges g.start g.stop =
    (g.text base ours theirs, g.isConflict base ours theirs) := by
  have hboth : (g.ranges.any fun r => decide (r.side ≠ .ours)) = g.changedBy .theirs := by
    rw [changedBy]
    congr 1
    funext r
    cases r.side <;> rfl
  have hours : (g.ranges.any fun r => decide (r.side = .ours)) = g.changedBy .ours := rfl
  rw [clusterText]
  simp only [hboth, hours, text, isConflict, oursView, theirsView]
  by_cases hA : g.changedBy .ours = true <;> by_cases hB : g.changedBy .theirs = true <;>
    by_cases heq : sideView g.ranges .ours base ours g.start g.stop =
      sideView g.ranges .theirs base theirs g.start g.stop <;> simp [hA, hB, heq]

end Region

/-- The regions are in order, from `pos` on and within the first `n` lines. -/
def Ordered (n : ℕ) : ℕ → List Region → Prop
  | pos, [] => pos ≤ n
  | pos, g :: gs => pos ≤ g.start ∧ g.start ≤ g.stop ∧ g.stop ≤ n ∧ Ordered n g.stop gs

theorem regionsFrom_spec {n : ℕ} {rs : List SRange} (hsorted : SortedRanges n rs) :
    ∀ {s e : ℕ} {cl : List SRange} {pos : ℕ}, Collecting s e cl rs → e ≤ n → pos ≤ s →
      (∀ r ∈ cl, ∀ r' ∈ rs, r.side = r'.side → r.aEnd < r'.aStart) →
      Ordered n pos (regionsFrom s e cl rs) ∧
      (regionsFrom s e cl rs).flatMap Region.ranges = cl ++ rs ∧
      ∀ g ∈ regionsFrom s e cl rs, g.Exact := by
  induction rs with
  | nil =>
      intro s e cl pos hcl hen hpos _
      refine ⟨⟨hpos, hcl.start_le_stop, hen, hen⟩, by simp [regionsFrom], ?_⟩
      intro g hg
      obtain rfl := List.mem_singleton.mp hg
      exact hcl
  | cons r rs ih =>
      intro s e cl pos hcl hen hpos hsep
      have hr := hsorted.bounds r List.mem_cons_self
      rw [regionsFrom]
      split
      next hmeet =>
        obtain ⟨hmin, hcl'⟩ := hcl.extend hsorted
          (fun r' hr' => hsep r' hr' r List.mem_cons_self) hmeet
        rw [hmin]
        obtain ⟨hordered, hall, hexact⟩ := ih hsorted.tail hcl' (by omega) hpos (by
          intro r' hr' r'' hr'' hside
          rcases List.mem_append.mp hr' with hr' | hr'
          · exact hsep r' hr' r'' (List.mem_cons_of_mem _ hr'') hside
          · obtain rfl := List.mem_singleton.mp hr'
            exact (List.pairwise_cons.mp hsorted.separated).1 r'' hr'' hside)
        exact ⟨hordered, by rw [hall, List.append_assoc]; rfl, hexact⟩
      next hnot =>
        have hstop := hcl.stop_le hsorted hnot r List.mem_cons_self
        obtain ⟨hordered, hall, hexact⟩ := ih hsorted.tail (Collecting.begin hsorted) hr.2
          hstop (by
            intro r' hr' r'' hr'' hside
            obtain rfl := List.mem_singleton.mp hr'
            exact (List.pairwise_cons.mp hsorted.separated).1 r'' hr'' hside)
        refine ⟨⟨hpos, hcl.start_le_stop, hen, hordered⟩, ?_, ?_⟩
        · rw [List.flatMap_cons, hall]
          rfl
        · intro g hg
          rcases List.mem_cons.mp hg with rfl | hg
          · exact { hcl with later := fun r' hr' => absurd hr' (by simp) }
          · exact hexact g hg

theorem mergeLoop_eq {base ours theirs : List Line} {n : ℕ} {rs : List SRange}
    (hsorted : SortedRanges n rs) :
    ∀ {s e : ℕ} {cl : List SRange} (pos : ℕ), Collecting s e cl rs →
      (∀ r ∈ cl, ∀ r' ∈ rs, r.side = r'.side → r.aEnd < r'.aStart) →
      splice base (Region.text base ours theirs) pos (regionsFrom s e cl rs) =
        slice base pos s ++ (mergeLoop base ours theirs s e cl rs).1 ∧
      (regionsFrom s e cl rs).any (Region.isConflict base ours theirs) =
        (mergeLoop base ours theirs s e cl rs).2 := by
  induction rs with
  | nil =>
      intro s e cl pos _ _
      have hcluster := Region.clusterText_eq base ours theirs ⟨s, e, cl⟩
      simp only at hcluster
      simp [regionsFrom, splice, mergeLoop, hcluster]
  | cons r rs ih =>
      intro s e cl pos hcl hsep
      rw [regionsFrom, mergeLoop]
      split
      next hmeet =>
        obtain ⟨hmin, hcl'⟩ := hcl.extend hsorted
          (fun r' hr' => hsep r' hr' r List.mem_cons_self) hmeet
        rw [hmin]
        refine ih hsorted.tail pos hcl' fun r' hr' r'' hr'' hside => ?_
        rcases List.mem_append.mp hr' with hr' | hr'
        · exact hsep r' hr' r'' (List.mem_cons_of_mem _ hr'') hside
        · obtain rfl := List.mem_singleton.mp hr'
          exact (List.pairwise_cons.mp hsorted.separated).1 r'' hr'' hside
      next hnot =>
        obtain ⟨hsplice, hany⟩ := ih hsorted.tail e (Collecting.begin hsorted)
          fun r' hr' r'' hr'' hside => by
            obtain rfl := List.mem_singleton.mp hr'
            exact (List.pairwise_cons.mp hsorted.separated).1 r'' hr'' hside
        have hcluster := Region.clusterText_eq base ours theirs ⟨s, e, cl⟩
        simp only at hcluster
        rw [splice, List.any_cons, hsplice, hany, hcluster]
        exact ⟨by simp only [List.append_assoc], rfl⟩

/-! ## Sorting the ranges of both sides -/

instance : Std.Total SRange.before where
  total r r' := by
    simp only [SRange.before]
    cases r.side <;> cases r'.side <;> simp <;> omega

instance : IsTrans SRange SRange.before where
  trans r r' r'' := by
    simp only [SRange.before]
    cases r.side <;> cases r'.side <;> cases r''.side <;> simp <;> omega

theorem SideRanges.apart {base side : List Line} {w : Which} {rs : List SRange}
    (h : SideRanges base side w rs) {r r' : SRange} (hr : r ∈ rs) (hr' : r' ∈ rs)
    (hne : r ≠ r') : r.aEnd < r'.aStart ∨ r'.aEnd < r.aStart := by
  let apart (a b : SRange) : Prop := a.aEnd < b.aStart ∨ b.aEnd < a.aStart
  have : Std.Symm apart := ⟨fun _ _ hab => hab.symm⟩
  have hpairwise : rs.Pairwise apart := h.separated.imp Or.inl
  exact hpairwise.forall hr hr' hne

theorem SideRanges.pairwise_before {base side : List Line} {w : Which} {rs : List SRange}
    (h : SideRanges base side w rs) : rs.Pairwise SRange.before := by
  refine h.separated.imp_of_mem fun {r r'} hr _ hlt => ?_
  have hbounds := h.bounds r hr
  exact Or.inl (by omega)

theorem SideRanges.nodup {base side : List Line} {w : Which} {rs : List SRange}
    (h : SideRanges base side w rs) : rs.Nodup := by
  refine h.separated.imp_of_mem fun {r r'} hr _ hlt heq => ?_
  have hbounds := h.bounds r hr
  subst heq
  omega

section Sorting

variable {base ours theirs : List Line} {cA cB : List SRange}

/-- The sorted ranges of both sides. -/
def sortedRanges (cA cB : List SRange) : List SRange :=
  (cA ++ cB).insertionSort SRange.before

theorem mem_sortedRanges {r : SRange} : r ∈ sortedRanges cA cB ↔ r ∈ cA ∨ r ∈ cB := by
  rw [sortedRanges, List.mem_insertionSort, List.mem_append]

theorem sortedRanges_nodup (hA : SideRanges base ours .ours cA)
    (hB : SideRanges base theirs .theirs cB) : (sortedRanges cA cB).Nodup := by
  rw [sortedRanges, (List.perm_insertionSort _ _).nodup_iff]
  refine List.nodup_append.mpr ⟨hA.nodup, hB.nodup, fun r hr r' hr' heq => ?_⟩
  have hside := hA.side_eq r hr
  rw [heq, hB.side_eq r' hr'] at hside
  exact absurd hside (by simp)

theorem sortedRanges_spec (hA : SideRanges base ours .ours cA)
    (hB : SideRanges base theirs .theirs cB) :
    SortedRanges base.length (sortedRanges cA cB) := by
  have hsorted : (sortedRanges cA cB).Pairwise SRange.before :=
    List.pairwise_insertionSort _ _
  have hbounds : ∀ r ∈ sortedRanges cA cB, r.aStart ≤ r.aEnd ∧ r.aEnd ≤ base.length := by
    intro r hr
    rcases mem_sortedRanges.mp hr with hr | hr
    · exact ⟨(hA.bounds r hr).1, (hA.bounds r hr).2.1⟩
    · exact ⟨(hB.bounds r hr).1, (hB.bounds r hr).2.1⟩
  refine ⟨hsorted, hbounds, ?_⟩
  refine (hsorted.and (sortedRanges_nodup hA hB)).imp_of_mem fun {r r'} hr hr' h hside => ?_
  obtain ⟨hbefore, hne⟩ := h
  have hapart : r.aEnd < r'.aStart ∨ r'.aEnd < r.aStart := by
    rcases mem_sortedRanges.mp hr with hmem | hmem <;>
      rcases mem_sortedRanges.mp hr' with hmem' | hmem'
    · exact hA.apart hmem hmem' hne
    · rw [hA.side_eq r hmem, hB.side_eq r' hmem'] at hside
      exact absurd hside (by simp)
    · rw [hB.side_eq r hmem, hA.side_eq r' hmem'] at hside
      exact absurd hside (by simp)
    · exact hB.apart hmem hmem' hne
  have hr' := hbounds r' hr'
  have hstart : r.aStart ≤ r'.aStart := by
    rw [SRange.before] at hbefore
    omega
  omega

theorem filter_sortedRanges (hA : SideRanges base ours .ours cA)
    (hB : SideRanges base theirs .theirs cB) :
    (sortedRanges cA cB).filter (fun r => r.side = .ours) = cA ∧
      (sortedRanges cA cB).filter (fun r => r.side = .theirs) = cB := by
  have hkeepA : (cA ++ cB).filter (fun r => r.side = .ours) = cA := by
    rw [List.filter_append, List.filter_eq_self.mpr fun r hr => by simp [hA.side_eq r hr],
      List.filter_eq_nil_iff.mpr fun r hr => by simp [hB.side_eq r hr], List.append_nil]
  have hkeepB : (cA ++ cB).filter (fun r => r.side = .theirs) = cB := by
    rw [List.filter_append, List.filter_eq_nil_iff.mpr fun r hr => by simp [hA.side_eq r hr],
      List.filter_eq_self.mpr fun r hr => by simp [hB.side_eq r hr], List.nil_append]
  have hsorted : (sortedRanges cA cB).Pairwise SRange.before :=
    List.pairwise_insertionSort _ _
  have hperm := List.perm_insertionSort SRange.before (cA ++ cB)
  -- a sorted list is determined by its elements, which are pairwise apart
  have hunique : ∀ {side : List Line} {w : Which} {rs : List SRange},
      SideRanges base side w rs → (cA ++ cB).filter (fun r => r.side = w) = rs →
      (sortedRanges cA cB).filter (fun r => r.side = w) = rs := by
    intro side w rs hrs hkeep
    have hperm' : ((sortedRanges cA cB).filter fun r => r.side = w).Perm rs :=
      hkeep ▸ hperm.filter _
    refine hperm'.eq_of_pairwise ?_ (hsorted.filter _) hrs.pairwise_before
    intro r r' hr hr' hbefore hbefore'
    by_contra hne
    have hrmem := hperm'.mem_iff.mp hr
    have hb := hrs.bounds r hrmem
    have hb' := hrs.bounds r' hr'
    rw [SRange.before] at hbefore hbefore'
    rcases hrs.apart hrmem hr' hne with h | h <;> omega
  exact ⟨hunique hA hkeepA, hunique hB hkeepB⟩

end Sorting

end Text

end Nipa
