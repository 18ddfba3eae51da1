import Nipa.Text.CleanTextMerge

/-!
# Identities and symmetry of the text merge

The sort puts ours before theirs only where both changed the same span, and
such a pair always meets in one region.  So with the sides exchanged the merge
has the same regions with the sides' views exchanged.  A side equal to the base
has no changed ranges, and equal sides have the same view of every region.
-/

namespace Nipa

namespace Text

/-! ## Ranges with the other side's label -/

def Which.other : Which → Which
  | .ours => .theirs
  | .theirs => .ours

def SRange.flip (r : SRange) : SRange :=
  { r with side := r.side.other }

@[simp] theorem SRange.flip_side (r : SRange) : r.flip.side = r.side.other := rfl
@[simp] theorem SRange.flip_aStart (r : SRange) : r.flip.aStart = r.aStart := rfl
@[simp] theorem SRange.flip_aEnd (r : SRange) : r.flip.aEnd = r.aEnd := rfl

@[simp] theorem Which.other_other (w : Which) : w.other.other = w := by
  cases w <;> rfl

@[simp] theorem SRange.flip_flip (r : SRange) : r.flip.flip = r := by
  simp [SRange.flip]

@[simp] theorem rangesIntersect_flip (s e : ℕ) (r : SRange) :
    rangesIntersect s e r.flip = rangesIntersect s e r := rfl

theorem changeRangesFrom_other (w : Which) (i j : ℕ) (start : Option (ℕ × ℕ))
    (ops : List Op) :
    changeRangesFrom w.other i j start ops =
      (changeRangesFrom w i j start ops).map SRange.flip := by
  induction ops generalizing i j start with
  | nil => cases start <;> rfl
  | cons op ops ih =>
      rw [changeRangesFrom, changeRangesFrom]
      split
      · rw [List.map_append, ih]
        cases start <;> rfl
      · exact ih _ _ _
      · exact ih _ _ _

variable {base : List Line} {rs : List SRange}

theorem changeRanges_other {side : List Line} {w : Which} (h : changeRanges base side w = some rs) :
    changeRanges base side w.other = some (rs.map SRange.flip) := by
  obtain ⟨ops, hops, rfl⟩ := Option.map_eq_some_iff.mp h
  rw [changeRanges, hops, Option.map_some, changeRangesFrom_other]

/-! ## Ties of the sort -/

/-- The sorted ranges with the sides exchanged: where two ranges have the same
span, the labels change places. -/
def swapTies : List SRange → List SRange
  | [] => []
  | [a] => [a.flip]
  | a :: b :: l =>
      if a.aStart = b.aStart ∧ a.aEnd = b.aEnd then b.flip :: a.flip :: swapTies l
      else a.flip :: swapTies (b :: l)

theorem swapTies_perm (l : List SRange) : (swapTies l).Perm (l.map SRange.flip) := by
  fun_induction swapTies l with
  | case1 => exact List.Perm.refl _
  | case2 => exact List.Perm.refl _
  | case3 a b l _ ih => exact (List.Perm.swap _ _ _).trans ((ih.cons _).cons _)
  | case4 a b l _ ih => exact ih.cons _

/-- A range comes before another and is not the same range again. -/
def SRange.strictlyBefore (r r' : SRange) : Prop :=
  r.aStart < r'.aStart ∨ r.aStart = r'.aStart ∧
    (r.aEnd < r'.aEnd ∨ r.aEnd = r'.aEnd ∧ r.side = .ours ∧ r'.side = .theirs)

variable {r : SRange}

theorem SRange.strictlyBefore.side_ne {r' : SRange} (h : r.strictlyBefore r')
    (hstart : r.aStart = r'.aStart) (hend : r.aEnd = r'.aEnd) : r.side ≠ r'.side := by
  rw [SRange.strictlyBefore] at h
  rcases h with h | ⟨-, h | ⟨-, hside, hside'⟩⟩
  · omega
  · omega
  · rw [hside, hside']
    simp

theorem swapTies_sorted {l : List SRange} (h : l.Pairwise SRange.strictlyBefore) :
    (swapTies l).Pairwise SRange.strictlyBefore := by
  fun_induction swapTies l with
  | case1 => exact List.Pairwise.nil
  | case2 => exact List.pairwise_singleton _ _
  | case3 a b l htie ih =>
      obtain ⟨ha, hb⟩ := List.pairwise_cons.mp h
      obtain ⟨hb, hl⟩ := List.pairwise_cons.mp hb
      have hab := ha b List.mem_cons_self
      rw [SRange.strictlyBefore] at hab
      have hsides : a.side = .ours ∧ b.side = .theirs := by
        rcases hab with hab | ⟨-, hab | ⟨-, hab⟩⟩
        · omega
        · omega
        · exact hab
      have hlater : ∀ r ∈ swapTies l, b.aStart < r.aStart ∨
          b.aStart = r.aStart ∧ b.aEnd < r.aEnd := by
        intro r hr
        obtain ⟨r', hr', rfl⟩ := List.mem_map.mp ((swapTies_perm l).mem_iff.mp hr)
        have hbr := hb r' hr'
        rw [SRange.strictlyBefore] at hbr
        simp only [SRange.flip_aStart, SRange.flip_aEnd]
        rcases hbr with hbr | ⟨h1, hbr | ⟨-, hbr, -⟩⟩
        · exact Or.inl hbr
        · exact Or.inr ⟨h1, hbr⟩
        · rw [hsides.2] at hbr
          exact absurd hbr (by simp)
      refine List.pairwise_cons.mpr ⟨?_, List.pairwise_cons.mpr ⟨?_, ih hl⟩⟩
      · intro r hr
        rcases List.mem_cons.mp hr with rfl | hr
        · refine Or.inr ⟨htie.1.symm, Or.inr ⟨htie.2.symm, ?_, ?_⟩⟩
          · rw [SRange.flip_side, hsides.2]
            rfl
          · rw [SRange.flip_side, hsides.1]
            rfl
        · rcases hlater r hr with hr | ⟨hr, hr'⟩
          · exact Or.inl hr
          · exact Or.inr ⟨hr, Or.inl hr'⟩
      · intro r hr
        rcases hlater r hr with hr | ⟨hr, hr'⟩
        · exact Or.inl (by simp only [SRange.flip_aStart]; omega)
        · exact Or.inr ⟨htie.1.trans hr, Or.inl (by simp only [SRange.flip_aEnd]; omega)⟩
  | case4 a b l htie ih =>
      obtain ⟨ha, hbl⟩ := List.pairwise_cons.mp h
      refine List.pairwise_cons.mpr ⟨fun r hr => ?_, ih hbl⟩
      obtain ⟨r', hr', rfl⟩ := List.mem_map.mp ((swapTies_perm (b :: l)).mem_iff.mp hr)
      have hab := ha b List.mem_cons_self
      have hbr : b = r' ∨ b.strictlyBefore r' := by
        rcases List.mem_cons.mp hr' with rfl | hmem
        · exact Or.inl rfl
        · exact Or.inr ((List.pairwise_cons.mp hbl).1 r' hmem)
      simp only [SRange.strictlyBefore, SRange.flip_aStart, SRange.flip_aEnd] at hab hbr ⊢
      rcases hbr with rfl | hbr <;> omega

theorem SortedRanges.strictly {n : ℕ} (h : SortedRanges n rs) :
    rs.Pairwise SRange.strictlyBefore := by
  refine (h.sorted.and h.separated).imp_of_mem fun {r r'} hr hr' hpair => ?_
  obtain ⟨hbefore, hapart⟩ := hpair
  have hbounds := h.bounds r hr
  rw [SRange.before] at hbefore
  rcases hbefore with hlt | ⟨heq, hlt | ⟨heq', hside⟩⟩
  · exact Or.inl hlt
  · exact Or.inr ⟨heq, Or.inl hlt⟩
  · refine Or.inr ⟨heq, Or.inr ⟨heq', ?_⟩⟩
    have hne : r.side ≠ r'.side := fun hsame => by
      have := hapart hsame
      omega
    cases hr : r.side <;> cases hr' : r'.side <;> simp_all

theorem sortedRanges_swap {ours theirs : List Line} {cA cB : List SRange}
    (hA : SideRanges base ours .ours cA) (hB : SideRanges base theirs .theirs cB)
    (hA' : SideRanges base theirs .ours (cB.map SRange.flip))
    (hB' : SideRanges base ours .theirs (cA.map SRange.flip)) :
    sortedRanges (cB.map SRange.flip) (cA.map SRange.flip) =
      swapTies (sortedRanges cA cB) := by
  have hperm : (sortedRanges (cB.map SRange.flip) (cA.map SRange.flip)).Perm
      (swapTies (sortedRanges cA cB)) := by
    calc sortedRanges (cB.map SRange.flip) (cA.map SRange.flip)
        |>.Perm (cB.map SRange.flip ++ cA.map SRange.flip) := List.perm_insertionSort _ _
      _ |>.Perm ((cA ++ cB).map SRange.flip) := by
          rw [List.map_append]
          exact List.perm_append_comm
      _ |>.Perm ((sortedRanges cA cB).map SRange.flip) :=
          ((List.perm_insertionSort _ _).map _).symm
      _ |>.Perm (swapTies (sortedRanges cA cB)) := (swapTies_perm _).symm
  refine hperm.eq_of_pairwise ?_ (sortedRanges_spec hA' hB').strictly
    (swapTies_sorted (sortedRanges_spec hA hB).strictly)
  intro r r' _ _ hlt hlt'
  rw [SRange.strictlyBefore] at hlt hlt'
  rcases hlt with h | ⟨h, h' | ⟨h', hside, hside'⟩⟩
  · omega
  · omega
  · rcases hlt' with h | ⟨-, h'' | ⟨-, hside'', -⟩⟩
    · omega
    · omega
    · rw [hside'] at hside''
      exact absurd hside'' (by simp)

/-! ## Regions with the sides exchanged -/

/-- The ranges of either side in one cluster are those of the other side in the
other. -/
def Exchanged (cl cl' : List SRange) : Prop :=
  ∀ w : Which, (cl'.filter fun r => r.side = w) =
    (cl.filter fun r => r.side = w.other).map SRange.flip

theorem Exchanged.append {cl₁ cl₁' cl₂ cl₂' : List SRange} (h₁ : Exchanged cl₁ cl₁')
    (h₂ : Exchanged cl₂ cl₂') : Exchanged (cl₁ ++ cl₂) (cl₁' ++ cl₂') := by
  intro w
  rw [List.filter_append, List.filter_append, List.map_append, h₁ w, h₂ w]

theorem exchanged_single (r : SRange) : Exchanged [r] [r.flip] := by
  intro w
  cases hr : r.side <;> cases w <;> simp [hr, Which.other]

theorem exchanged_pair {r' : SRange} (h : r.side ≠ r'.side) :
    Exchanged [r, r'] [r'.flip, r.flip] := by
  intro w
  cases hr : r.side <;> cases hr' : r'.side <;> cases w <;> simp_all [Which.other]

structure Region.Exchanges (g g' : Region) : Prop where
  start : g'.start = g.start
  stop : g'.stop = g.stop
  ranges : Exchanged g.ranges g'.ranges

theorem rangesIntersect_tie {s e : ℕ} {a b : SRange} (ha : a.aStart ≤ a.aEnd)
    (hstart : a.aStart = b.aStart) (hend : a.aEnd = b.aEnd)
    (h : rangesIntersect s e a = true) :
    rangesIntersect (min s a.aStart) (max e a.aEnd) b = true := by
  rw [rangesIntersect] at h ⊢
  rw [← hstart, ← hend]
  repeat' split at h
  all_goals
    repeat' split
    all_goals
      simp only [Bool.and_eq_true, decide_eq_true_eq] at h ⊢
      omega

theorem rangesIntersect_self {a b : SRange} (ha : a.aStart ≤ a.aEnd)
    (hstart : a.aStart = b.aStart) (hend : a.aEnd = b.aEnd) :
    rangesIntersect a.aStart a.aEnd b = true := by
  rw [rangesIntersect, ← hstart, ← hend]
  split
  · exact decide_eq_true rfl
  · rw [if_neg (by omega), if_neg (by omega)]
    simp only [Bool.and_eq_true, decide_eq_true_eq]
    omega

theorem regionsFrom_join {s e : ℕ} {cl : List SRange} (h : rangesIntersect s e r = true) :
    regionsFrom s e cl (r :: rs) =
      regionsFrom (min s r.aStart) (max e r.aEnd) (cl ++ [r]) rs :=
  if_pos h

theorem regionsFrom_next {s e : ℕ} {cl : List SRange} (h : ¬rangesIntersect s e r = true) :
    regionsFrom s e cl (r :: rs) = ⟨s, e, cl⟩ :: regionsFrom r.aStart r.aEnd [r] rs :=
  if_neg h

theorem regionsFrom_swapTies {l : List SRange} (hle : ∀ r ∈ l, r.aStart ≤ r.aEnd)
    (hstrict : l.Pairwise SRange.strictlyBefore) :
    ∀ (s e : ℕ) (cl cl' : List SRange), Exchanged cl cl' →
      List.Forall₂ Region.Exchanges (regionsFrom s e cl l)
        (regionsFrom s e cl' (swapTies l)) := by
  fun_induction swapTies l with
  | case1 =>
      intro s e cl cl' hcl
      exact List.Forall₂.cons ⟨rfl, rfl, hcl⟩ List.Forall₂.nil
  | case2 a =>
      intro s e cl cl' hcl
      by_cases hmeet : rangesIntersect s e a = true
      · rw [regionsFrom_join hmeet, regionsFrom_join (r := a.flip) hmeet]
        exact List.Forall₂.cons ⟨rfl, rfl, hcl.append (exchanged_single a)⟩ List.Forall₂.nil
      · rw [regionsFrom_next hmeet, regionsFrom_next (r := a.flip) hmeet]
        exact List.Forall₂.cons ⟨rfl, rfl, hcl⟩
          (List.Forall₂.cons ⟨rfl, rfl, exchanged_single a⟩ List.Forall₂.nil)
  | case3 a b l htie ih =>
      intro s e cl cl' hcl
      obtain ⟨hstart, hend⟩ := htie
      have ha := hle a List.mem_cons_self
      have hrest := ih (fun r hr => hle r (by simp [hr]))
        (List.pairwise_cons.mp (List.pairwise_cons.mp hstrict).2).2
      have hsides := (List.pairwise_cons.mp hstrict).1 b List.mem_cons_self |>.side_ne hstart hend
      have hself : rangesIntersect a.aStart a.aEnd b = true :=
        rangesIntersect_self ha hstart hend
      have hself' : rangesIntersect b.aStart b.aEnd a.flip = true :=
        rangesIntersect_self (hstart ▸ hend ▸ ha) hstart.symm hend.symm
      have hsame : rangesIntersect s e b.flip = rangesIntersect s e a := by
        rw [rangesIntersect_flip, rangesIntersect, rangesIntersect, hstart, hend]
      by_cases hmeet : rangesIntersect s e a = true
      · have hmeet' : rangesIntersect s e b = true := hsame.trans hmeet
        have hboth := rangesIntersect_tie ha hstart hend hmeet
        have hboth' : rangesIntersect (min s b.aStart) (max e b.aEnd) a.flip = true :=
          rangesIntersect_tie (hstart ▸ hend ▸ ha) hstart.symm hend.symm hmeet'
        rw [regionsFrom_join hmeet, regionsFrom_join hboth,
          regionsFrom_join (r := b.flip) hmeet', SRange.flip_aStart, SRange.flip_aEnd,
          regionsFrom_join hboth', SRange.flip_aStart, SRange.flip_aEnd, ← hstart, ← hend,
          List.append_assoc, List.append_assoc]
        exact hrest _ _ _ _ (hcl.append (exchanged_pair hsides))
      · have hnot : ¬rangesIntersect s e b.flip = true := by rwa [hsame]
        rw [regionsFrom_next hmeet, regionsFrom_join hself, regionsFrom_next hnot,
          SRange.flip_aStart, SRange.flip_aEnd, regionsFrom_join hself', SRange.flip_aStart,
          SRange.flip_aEnd, ← hstart, ← hend]
        exact List.Forall₂.cons ⟨rfl, rfl, hcl⟩ (hrest _ _ _ _ (exchanged_pair hsides))
  | case4 a b l htie ih =>
      intro s e cl cl' hcl
      have hrest := ih (fun r hr => hle r (List.mem_cons_of_mem _ hr))
        (List.pairwise_cons.mp hstrict).2
      by_cases hmeet : rangesIntersect s e a = true
      · rw [regionsFrom_join hmeet, regionsFrom_join (r := a.flip) hmeet]
        exact hrest _ _ _ _ (hcl.append (exchanged_single a))
      · rw [regionsFrom_next hmeet, regionsFrom_next (r := a.flip) hmeet]
        exact List.Forall₂.cons ⟨rfl, rfl, hcl⟩ (hrest _ _ _ _ (exchanged_single a))

theorem regions_swapTies {l : List SRange} (hle : ∀ r ∈ l, r.aStart ≤ r.aEnd)
    (hstrict : l.Pairwise SRange.strictlyBefore) :
    List.Forall₂ Region.Exchanges (regions l) (regions (swapTies l)) := by
  cases l with
  | nil => exact List.Forall₂.nil
  | cons a l =>
      cases l with
      | nil => exact List.Forall₂.cons ⟨rfl, rfl, exchanged_single a⟩ List.Forall₂.nil
      | cons b l =>
          have ha := hle a List.mem_cons_self
          have htail := (List.pairwise_cons.mp hstrict).2
          rw [swapTies]
          split
          next htie =>
            obtain ⟨hstart, hend⟩ := htie
            have hsides := (List.pairwise_cons.mp hstrict).1 b List.mem_cons_self
              |>.side_ne hstart hend
            have hself : rangesIntersect a.aStart a.aEnd b = true :=
              rangesIntersect_self ha hstart hend
            have hself' : rangesIntersect b.aStart b.aEnd a.flip = true :=
              rangesIntersect_self (hstart ▸ hend ▸ ha) hstart.symm hend.symm
            rw [regions, regions, regionsFrom_join hself, SRange.flip_aStart, SRange.flip_aEnd,
              regionsFrom_join hself', SRange.flip_aStart, SRange.flip_aEnd, ← hstart, ← hend]
            exact regionsFrom_swapTies (fun r hr => hle r (by simp [hr]))
              (List.pairwise_cons.mp htail).2 _ _ _ _ (exchanged_pair hsides)
          next =>
            exact regionsFrom_swapTies (fun r hr => hle r (List.mem_cons_of_mem _ hr)) htail
              _ _ _ _ (exchanged_single a)

/-! ## What the merge writes for a region -/

theorem view_flip {side : List Line} {stop pos : ℕ} :
    view base side stop pos (rs.map SRange.flip) = view base side stop pos rs := by
  induction rs generalizing pos with
  | nil => rfl
  | cons r rs ih =>
      rw [List.map_cons, view, view, ih]
      rfl

namespace Region.Exchanges

variable {base ours theirs : List Line} {g g' : Region}

theorem viewOf (h : g.Exchanges g') (hg : g.Exact) (hg' : g'.Exact) (side : List Line)
    (w : Which) : g'.viewOf base side w = g.viewOf base side w.other := by
  rw [hg.viewOf_eq, hg'.viewOf_eq, h.start, h.stop, h.ranges w, view_flip]

theorem changedBy (h : g.Exchanges g') (w : Which) : g'.changedBy w = g.changedBy w.other := by
  have hfilter : ∀ (l : List SRange) (v : Which),
      (l.any fun r => r.side = v) = !(l.filter fun r => r.side = v).isEmpty := by
    intro l v
    induction l with
    | nil => rfl
    | cons r l ih =>
        by_cases hr : r.side = v
        · simp [hr]
        · simpa [hr] using ih
  rw [Region.changedBy, Region.changedBy, hfilter, hfilter, h.ranges w]
  cases g.ranges.filter fun r => decide (r.side = w.other) <;> rfl

theorem isConflict (h : g.Exchanges g') (hg : g.Exact) (hg' : g'.Exact) :
    g'.isConflict base theirs ours = g.isConflict base ours theirs := by
  have hours : g'.oursView base theirs = g.theirsView base theirs := h.viewOf hg hg' _ .ours
  have htheirs : g'.theirsView base ours = g.oursView base ours := h.viewOf hg hg' _ .theirs
  rw [Region.isConflict, Region.isConflict, hours, htheirs, h.changedBy, h.changedBy]
  simp only [Which.other, Bool.and_comm (g.changedBy .theirs), ne_comm (a := g.theirsView _ _)]

theorem text (h : g.Exchanges g') (hg : g.Exact) (hg' : g'.Exact)
    (hclean : g.isConflict base ours theirs = false) :
    g'.text base theirs ours = g.text base ours theirs := by
  have hours : g'.oursView base theirs = g.theirsView base theirs := h.viewOf hg hg' _ .ours
  have htheirs : g'.theirsView base ours = g.oursView base ours := h.viewOf hg hg' _ .theirs
  have hA : g'.changedBy .ours = g.changedBy .theirs := h.changedBy .ours
  have hclean' : g'.isConflict base theirs ours = false := (h.isConflict hg hg').trans hclean
  rw [Region.text, hclean', Region.text, hclean, if_neg Bool.false_ne_true,
    if_neg Bool.false_ne_true, hA, hours, htheirs]
  rcases hg.replaced hclean with ⟨r, rfl, hside, -⟩ | ⟨r, rfl, hside, -⟩ |
    ⟨hchanged, hchanged', htext, htext'⟩
  · simp [Region.changedBy, hside]
  · simp [Region.changedBy, hside]
  · rw [if_pos hchanged, if_pos hchanged', ← htext, ← htext']

end Region.Exchanges

theorem any_congr {α : Type} {p p' : α → Bool} {xs ys : List α}
    (h : List.Forall₂ (fun x y => p' y = p x) xs ys) : ys.any p' = xs.any p := by
  induction h with
  | nil => rfl
  | cons hxy _ ih => rw [List.any_cons, List.any_cons, hxy, ih]

theorem splice_congr {text text' : Region → List Line} {pos : ℕ} {gs gs' : List Region}
    (h : List.Forall₂ (fun g g' => g'.start = g.start ∧ g'.stop = g.stop ∧
      text' g' = text g) gs gs') : splice base text' pos gs' = splice base text pos gs := by
  induction h generalizing pos with
  | nil => rfl
  | cons hg _ ih =>
      obtain ⟨hstart, hstop, htext⟩ := hg
      rw [splice, splice, hstart, hstop, htext, ih]

/-! ## Merging unchanged texts -/

theorem isScript_self (equal : Line → Line → Bool) (hrefl : ∀ s, equal s s = true)
    (as : List Line) (i : ℕ) :
    IsScript equal i i as as (as.mapIdx fun x l => ⟨.equal, l, i + x, i + x⟩) := by
  induction as generalizing i with
  | nil => exact IsScript.nil
  | cons s as ih =>
      rw [List.mapIdx_cons]
      refine IsScript.keep (hrefl s) ?_
      have hrest := ih (i + 1)
      simpa [add_assoc, add_comm, add_left_comm] using hrest

theorem changeRangesFrom_kept {w : Which} {ops : List Op} (h : ops.countP Op.edits = 0)
    (i j : ℕ) : changeRangesFrom w i j none ops = [] := by
  induction ops generalizing i j with
  | nil => rfl
  | cons op ops ih =>
      have hkept : op.kind = .equal := by
        have hop := List.countP_eq_zero.mp h op List.mem_cons_self
        simpa [Op.edits] using hop
      have hrest : ops.countP Op.edits = 0 := by
        rw [List.countP_eq_zero] at h ⊢
        exact fun op' hop' => h op' (List.mem_cons_of_mem _ hop')
      rw [changeRangesFrom, hkept]
      exact ih hrest _ _

theorem changeRanges_self (base : List Line) (w : Which) :
    changeRanges base base w = some [] := by
  obtain ⟨ops, hops, -, hshortest⟩ := linesWith_spec base base fun s t => s = t
  have hle := hshortest.le (isScript_self _ (fun s => by simp) base 0)
  have hzero : (base.mapIdx fun x l => Op.mk .equal l (0 + x) (0 + x)).countP Op.edits = 0 := by
    rw [List.countP_eq_zero]
    intro op hop
    obtain ⟨x, hx, rfl⟩ := List.mem_mapIdx.mp hop
    simp [Op.edits]
  rw [changeRanges, lines, hops, Option.map_some,
    changeRangesFrom_kept (by omega)]

section Merge

variable {base ours theirs : List Line}

/-- With the sides exchanged the merge reports a conflict where it did, and
without one writes the same lines. -/
theorem mergeLines_swap :
    ∃ out out' conflicted, mergeLines base ours theirs = some (out, conflicted) ∧
      mergeLines base theirs ours = some (out', conflicted) ∧
      (conflicted = false → out' = out) := by
  obtain ⟨cA, hcA, hA⟩ := changeRanges_spec base ours .ours
  obtain ⟨cB, hcB, hB⟩ := changeRanges_spec base theirs .theirs
  obtain ⟨cA', hcA', hA'⟩ := changeRanges_spec base theirs .ours
  obtain ⟨cB', hcB', hB'⟩ := changeRanges_spec base ours .theirs
  obtain rfl : cB.map SRange.flip = cA' :=
    Option.some.inj ((changeRanges_other hcB).symm.trans hcA')
  obtain rfl : cA.map SRange.flip = cB' :=
    Option.some.inj ((changeRanges_other hcA).symm.trans hcB')
  have hregions := regions_spec hA hB
  have hregions' := regions_spec hA' hB'
  have hsorted := sortedRanges_spec hA hB
  have hexchange := regions_swapTies (fun r hr => (hsorted.bounds r hr).1) hsorted.strictly
  rw [← sortedRanges_swap hA hB hA' hB'] at hexchange
  rw [mergeLines_eq, mergeLines_eq, hcA, hcB, hcA', hcB']
  simp only [Option.bind_some, mergeRanges_eq hA hB, mergeRanges_eq hA' hB']
  generalize regions (sortedRanges cA cB) = gs at *
  generalize regions (sortedRanges (cB.map SRange.flip) (cA.map SRange.flip)) = gs' at *
  obtain ⟨hlength, hpairs⟩ := List.forall₂_iff_zip.mp hexchange
  have hfull : List.Forall₂ (fun g g' => g.Exchanges g' ∧ g.Exact ∧ g'.Exact ∧ g ∈ gs) gs gs' :=
    List.forall₂_iff_zip.mpr ⟨hlength, fun hmem =>
      ⟨hpairs hmem, hregions.exact _ (List.of_mem_zip hmem).1,
        hregions'.exact _ (List.of_mem_zip hmem).2, (List.of_mem_zip hmem).1⟩⟩
  have hconflict : List.Forall₂ (fun g g' => g'.isConflict base theirs ours =
      g.isConflict base ours theirs) gs gs' := by
    refine hfull.imp ?_
    rintro g g' ⟨h, hg, hg', -⟩
    exact h.isConflict hg hg'
  have hany := any_congr hconflict
  refine ⟨_, _, _, rfl, by rw [hany], fun hclean => splice_congr (hfull.imp ?_)⟩
  rintro g g' ⟨h, hg, hg', hmem⟩
  have hno := List.any_eq_false.mp hclean g hmem
  exact ⟨h.start, h.stop, h.text hg hg' (by simpa using hno)⟩

theorem mergeLines_base (base ours : List Line) :
    mergeLines base ours base = some (ours, false) := by
  obtain ⟨cA, cB, gs, -, hcB, hA, hB, hregions, hmerge⟩ := mergeLines_spec base ours base
  obtain rfl : [] = cB := Option.some.inj ((changeRanges_self base .theirs).symm.trans hcB)
  have hside : ∀ g ∈ gs, ∀ r ∈ g.ranges, r.side = .ours := by
    intro g hg r hr
    cases hw : r.side with
    | ours => rfl
    | theirs => exact absurd (hregions.rest.theirs g hg r hr hw) (by simp)
  have hours : ∀ g ∈ gs, g.changedBy .ours = true ∧ g.changedBy .theirs = false := by
    intro g hg
    obtain ⟨r, rs, hrs⟩ := List.exists_cons_of_ne_nil (hregions.exact g hg).ne_nil
    have hr : r ∈ g.ranges := by rw [hrs]; exact List.mem_cons_self
    refine ⟨List.any_eq_true.mpr ⟨r, hr, by simpa using hside g hg r hr⟩, ?_⟩
    exact List.any_eq_false.mpr fun r' hr' => by simp [hside g hg r' hr']
  have hclean : ∀ g ∈ gs, g.isConflict base ours base = false := by
    intro g hg
    rw [Region.isConflict, (hours g hg).2, Bool.and_false, Bool.false_and]
  have htext : splice base (Region.text base ours base) 0 gs =
      splice base (Region.oursView base ours) 0 gs := by
    refine splice_congr (List.forall₂_same.mpr fun g hg => ⟨rfl, rfl, ?_⟩)
    rw [Region.text, hclean g hg, if_neg Bool.false_ne_true, if_pos (hours g hg).1]
  rw [hmerge, htext, (hregions.sides hA hB).1,
    List.any_eq_false.mpr fun g hg => by simp [hclean g hg]]

theorem mergeLines_same (base side : List Line) :
    mergeLines base side side = some (side, false) := by
  obtain ⟨cA, hcA, hA⟩ := changeRanges_spec base side .ours
  obtain ⟨cB, hcB, hB⟩ := changeRanges_spec base side .theirs
  obtain rfl : cA.map SRange.flip = cB :=
    Option.some.inj ((changeRanges_other hcA).symm.trans hcB)
  have hregions := regions_spec hA hB
  have hsorted := sortedRanges_spec hA hB
  -- exchanging equal sides leaves the sorted ranges as they are
  have hback : (cA.map SRange.flip).map SRange.flip = cA := by
    rw [List.map_map]
    exact List.map_id'' SRange.flip_flip cA
  have hswap := sortedRanges_swap hA hB (by rwa [hback]) hB
  rw [hback] at hswap
  have hexchange := regions_swapTies (fun r hr => (hsorted.bounds r hr).1) hsorted.strictly
  rw [← hswap, List.forall₂_same] at hexchange
  have hviews : ∀ g ∈ regions (sortedRanges cA (cA.map SRange.flip)),
      g.theirsView base side = g.oursView base side := fun g hg =>
    (hexchange g hg).viewOf (hregions.exact g hg) (hregions.exact g hg) side .theirs
  have hclean : ∀ g ∈ regions (sortedRanges cA (cA.map SRange.flip)),
      g.isConflict base side side = false := by
    intro g hg
    rw [Region.isConflict, hviews g hg]
    simp
  have htext : splice base (Region.text base side side) 0
      (regions (sortedRanges cA (cA.map SRange.flip))) =
        splice base (Region.oursView base side) 0
          (regions (sortedRanges cA (cA.map SRange.flip))) := by
    refine splice_congr (List.forall₂_same.mpr fun g hg => ⟨rfl, rfl, ?_⟩)
    rw [Region.text, hclean g hg, if_neg Bool.false_ne_true, hviews g hg, ite_self]
  rw [mergeLines_eq, hcA, hcB, Option.bind_some, Option.bind_some, mergeRanges_eq hA hB,
    htext, (hregions.sides hA hB).1, List.any_eq_false.mpr fun g hg => by simp [hclean g hg]]

end Merge

/-- A merge with one side unchanged is the other side, a merge of equal sides
is that side, and exchanging the sides keeps whether there is a conflict and,
where there is none, the text. -/
theorem text_merge_identities (base ours theirs : List UInt8) :
    mergeText base ours base = some (ours, false) ∧
      mergeText base base theirs = some (theirs, false) ∧
      mergeText base ours ours = some (ours, false) ∧
      ∃ out out' conflicted, mergeText base ours theirs = some (out, conflicted) ∧
        mergeText base theirs ours = some (out', conflicted) ∧
        (conflicted = false → out' = out) := by
  have hflatten := splitWithNewlines_flatten
  have hswap : ∀ ours theirs : List UInt8, ∃ out out' conflicted,
      mergeText base ours theirs = some (out, conflicted) ∧
        mergeText base theirs ours = some (out', conflicted) ∧
        (conflicted = false → out' = out) := by
    intro ours theirs
    obtain ⟨out, out', conflicted, hmerge, hmerge', heq⟩ :=
      @mergeLines_swap (splitWithNewlines base) (splitWithNewlines ours)
        (splitWithNewlines theirs)
    refine ⟨out.flatten, out'.flatten, conflicted, ?_, ?_, fun h => by rw [heq h]⟩
    · rw [mergeText, hmerge]
      rfl
    · rw [mergeText, hmerge']
      rfl
  have hbase : ∀ ours : List UInt8, mergeText base ours base = some (ours, false) := by
    intro ours
    rw [mergeText, mergeLines_base]
    exact congrArg (fun out => some (out, false)) (hflatten ours)
  refine ⟨hbase ours, ?_, ?_, hswap ours theirs⟩
  · obtain ⟨out, out', conflicted, hmerge, hmerge', heq⟩ := hswap theirs base
    rw [hbase theirs] at hmerge
    obtain ⟨rfl, rfl⟩ : theirs = out ∧ false = conflicted := by simpa using hmerge
    rw [hmerge', heq rfl]
  · rw [mergeText, mergeLines_same]
    exact congrArg (fun out => some (out, false)) (hflatten ours)

end Text

end Nipa
