import Nipa.Text.Merge
import Nipa.Text.ShortestScript

/-!
# The changed ranges of a side

Between two changed ranges there is at least one kept line, so the ranges of a
side are maximal, and replacing each by the side's lines turns the base into
the side.
-/

namespace Nipa

namespace Text

/-! ## The shape of a diff -/

/-- `rs` are the ranges that turn `as`, the base from index `i` on, into `bs`,
the side from index `j` on: a gap of kept lines, removed lines replaced by
added ones, and, unless both texts end there, a kept line before the next gap. -/
inductive Aligned (which : Which) :
    ℕ → ℕ → List Line → List Line → List SRange → Prop
  | done {i j} (ls : List Line) : Aligned which i j ls ls []
  | last {i j} (gap dels ins : List Line) (h : dels ≠ [] ∨ ins ≠ []) :
      Aligned which i j (gap ++ dels) (gap ++ ins)
        [⟨i + gap.length, i + gap.length + dels.length, j + gap.length,
          j + gap.length + ins.length, which⟩]
  | more {i j as bs rs} (gap dels ins : List Line) (k : Line) (h : dels ≠ [] ∨ ins ≠ [])
      (rest : Aligned which (i + gap.length + dels.length + 1)
        (j + gap.length + ins.length + 1) as bs rs) :
      Aligned which i j (gap ++ dels ++ k :: as) (gap ++ ins ++ k :: bs)
        (⟨i + gap.length, i + gap.length + dels.length, j + gap.length,
          j + gap.length + ins.length, which⟩ :: rs)

namespace Aligned

variable {which : Which} {i j : ℕ} {as bs : List Line} {rs : List SRange}

theorem keep (k : Line) (h : Aligned which (i + 1) (j + 1) as bs rs) :
    Aligned which i j (k :: as) (k :: bs) rs := by
  cases h with
  | done => exact done (k :: as)
  | last gap dels ins hne =>
      have h' : Aligned which i j _ _ _ := last (k :: gap) dels ins hne
      simpa [add_assoc, add_comm, add_left_comm] using h'
  | more gap dels ins k' hne rest =>
      have h' : Aligned which i j _ _ _ := more (k :: gap) dels ins k' hne
        (by simpa [add_assoc, add_comm, add_left_comm] using rest)
      simpa [add_assoc, add_comm, add_left_comm] using h'

end Aligned

/-- The ranges read off a script are aligned, and so they are from inside of a
range, with what it has removed and added so far. -/
theorem changeRangesFrom_aligned {which : Which} {i j : ℕ} {as bs : List Line}
    {ops : List Op} (h : IsScript (fun s t => s = t) i j as bs ops) :
    Aligned which i j as bs (changeRangesFrom which i j none ops) ∧
    ∀ (s t : ℕ) (dels ins : List Line), s + dels.length = i → t + ins.length = j →
      dels ≠ [] ∨ ins ≠ [] →
      Aligned which s t (dels ++ as) (ins ++ bs)
        (changeRangesFrom which i j (some (s, t)) ops) := by
  induction h with
  | nil =>
      refine ⟨Aligned.done [], fun s t dels ins hs ht hne => ?_⟩
      subst hs ht
      have hend : Aligned which s t _ _ _ := Aligned.last [] dels ins hne
      simpa [changeRangesFrom] using hend
  | @keep i j s' t' as bs ops heq _ ih =>
      obtain rfl := of_decide_eq_true heq
      refine ⟨ih.1.keep s', fun s t dels ins hs ht hne => ?_⟩
      subst hs ht
      have hrest : Aligned which s t _ _ _ := Aligned.more [] dels ins s' hne
        (by simpa using ih.1)
      simpa [changeRangesFrom] using hrest
  | @remove i j s' as bs ops _ ih =>
      constructor
      · have hstart := ih.2 i j [s'] [] rfl rfl (Or.inl (by simp))
        simpa [changeRangesFrom] using hstart
      · intro s t dels ins hs ht hne
        have hnext := ih.2 s t (dels ++ [s']) ins (by simp [← hs, add_assoc]) ht
          (Or.inl (by simp))
        simpa [changeRangesFrom] using hnext
  | @add i j t' as bs ops _ ih =>
      constructor
      · have hstart := ih.2 i j [] [t'] rfl rfl (Or.inr (by simp))
        simpa [changeRangesFrom] using hstart
      · intro s t dels ins hs ht hne
        have hnext := ih.2 s t dels (ins ++ [t']) hs (by simp [← ht, add_assoc])
          (Or.inr (by simp))
        simpa [changeRangesFrom] using hnext

/-! ## Slices -/

theorem slice_self (l : List Line) (s : ℕ) : slice l s s = [] := by
  simp [slice]

theorem slice_append_slice {l : List Line} {s m e : ℕ} (hs : s ≤ m) (he : m ≤ e) :
    slice l s m ++ slice l m e = slice l s e := by
  have hdrop : l.drop m = (l.drop s).drop (m - s) := by
    rw [List.drop_drop, Nat.add_sub_cancel' hs]
  rw [slice, slice, slice, hdrop, ← List.take_add]
  congr 1
  omega

theorem slice_length (l : List Line) (s : ℕ) : slice l s l.length = l.drop s := by
  rw [slice, List.take_of_length_le (by simp)]

theorem slice_middle (pre mid post : List Line) :
    slice (pre ++ (mid ++ post)) pre.length (pre.length + mid.length) = mid := by
  rw [slice, List.drop_left, Nat.add_sub_cancel_left, List.take_left]

/-! ## Views -/

/-- The text from `pos` to `stop` with each range replaced by the side's lines. -/
def view (base sideLines : List Line) (stop : ℕ) : ℕ → List SRange → List Line
  | pos, [] => slice base pos stop
  | pos, r :: rs =>
      slice base pos r.aStart ++ slice sideLines r.bStart r.bEnd ++
        view base sideLines stop r.aEnd rs

theorem sideViewFrom_eq {base sideLines : List Line} {side : Which} {cEnd pos : ℕ}
    {rs : List SRange} (h : ∀ r ∈ rs, r.aEnd ≤ cEnd) :
    sideViewFrom side base sideLines cEnd pos rs =
      view base sideLines cEnd pos (rs.filter fun r => r.side = side) := by
  induction rs generalizing pos with
  | nil => rfl
  | cons r rs ih =>
      have hrest := fun p => @ih p fun r' hr' => h r' (List.mem_cons_of_mem _ hr')
      rw [sideViewFrom]
      by_cases hside : r.side = side
      · rw [if_neg (by simpa using hside), List.filter_cons_of_pos (by simpa using hside),
          view, min_eq_left (h r List.mem_cons_self), hrest]
      · rw [if_pos hside, List.filter_cons_of_neg (by simpa using hside), hrest]

theorem view_append {base sideLines : List Line} {pos mid stop : ℕ} {rs rs' : List SRange}
    (hpos : pos ≤ mid) (hmid : mid ≤ stop) (hrs : ∀ r ∈ rs, r.aEnd ≤ mid)
    (hrs' : ∀ r ∈ rs', mid ≤ r.aStart) :
    view base sideLines stop pos (rs ++ rs') =
      view base sideLines mid pos rs ++ view base sideLines stop mid rs' := by
  induction rs generalizing pos with
  | nil =>
      cases rs' with
      | nil => exact (slice_append_slice hpos hmid).symm
      | cons r rs' =>
          have hr := hrs' r List.mem_cons_self
          rw [List.nil_append, view, view, view, ← slice_append_slice hpos hr]
          simp only [List.append_assoc]
  | cons r rs ih =>
      rw [List.cons_append, view, view, ih (hrs r List.mem_cons_self)
        fun r' hr' => hrs r' (List.mem_cons_of_mem _ hr')]
      simp only [List.append_assoc]

/-! ## The ranges of a side -/

/-- What the changed ranges of a side are. -/
structure SideRanges (base side : List Line) (which : Which) (rs : List SRange) : Prop where
  side_eq : ∀ r ∈ rs, r.side = which
  /-- The ranges lie in both texts and none is empty on both sides. -/
  bounds : ∀ r ∈ rs, r.aStart ≤ r.aEnd ∧ r.aEnd ≤ base.length ∧ r.bStart ≤ r.bEnd ∧
    r.bEnd ≤ side.length ∧ (r.aStart < r.aEnd ∨ r.bStart < r.bEnd)
  /-- Between two ranges a line is kept. -/
  separated : rs.Pairwise fun r r' => r.aEnd < r'.aStart
  /-- Before the end of the base a kept line follows. -/
  followed : ∀ r ∈ rs, r.aEnd < base.length → r.bEnd < side.length
  /-- After the start of the base a kept line precedes. -/
  preceded : ∀ r ∈ rs, 0 < r.aStart →
    0 < r.bStart ∧ ∃ k, base[r.aStart - 1]? = some k ∧ side[r.bStart - 1]? = some k
  /-- Replacing the ranges turns the base into the side. -/
  view_eq : view base side base.length 0 rs = side

namespace Aligned

variable {which : Which} {i j : ℕ} {as bs : List Line} {rs : List SRange}

theorem bounds (h : Aligned which i j as bs rs) :
    ∀ r ∈ rs, r.side = which ∧ i ≤ r.aStart ∧ r.aStart ≤ r.aEnd ∧ r.aEnd ≤ i + as.length ∧
      j ≤ r.bStart ∧ r.bStart ≤ r.bEnd ∧ r.bEnd ≤ j + bs.length ∧
      (r.aStart < r.aEnd ∨ r.bStart < r.bEnd) ∧
      (r.aEnd < i + as.length → r.bEnd < j + bs.length) := by
  have hsize : ∀ {dels ins : List Line}, dels ≠ [] ∨ ins ≠ [] →
      0 < dels.length ∨ 0 < ins.length := by
    rintro dels ins (h | h)
    · exact Or.inl (List.length_pos_of_ne_nil h)
    · exact Or.inr (List.length_pos_of_ne_nil h)
  induction h with
  | done => exact fun r hr => absurd hr (by simp)
  | last gap dels ins hne =>
      intro r hr
      obtain rfl := List.mem_singleton.mp hr
      have := hsize hne
      simp only [List.length_append, true_and]
      omega
  | more gap dels ins k hne _ ih =>
      intro r hr
      simp only [List.length_append, List.length_cons]
      rcases List.mem_cons.mp hr with rfl | hr
      · have := hsize hne
        simp only [true_and]
        omega
      · obtain ⟨hside, hrest⟩ := ih r hr
        refine ⟨hside, ?_⟩
        omega

theorem separated (h : Aligned which i j as bs rs) :
    rs.Pairwise fun r r' => r.aEnd < r'.aStart := by
  induction h with
  | done => exact List.Pairwise.nil
  | last => exact List.pairwise_singleton _ _
  | @more i j as bs rs gap dels ins k _ rest ih =>
      refine List.pairwise_cons.mpr ⟨fun r hr => ?_, ih⟩
      have hle := (rest.bounds r hr).2.1
      change i + gap.length + dels.length < r.aStart
      omega

end Aligned

/-- Both texts are at their start, or the same line precedes. -/
def SameBefore (pa pb : List Line) : Prop :=
  pa = [] ∧ pb = [] ∨ ∃ pa' pb' k, pa = pa' ++ [k] ∧ pb = pb' ++ [k]

theorem SameBefore.append {pa pb : List Line} (h : SameBefore pa pb) (gap : List Line) :
    SameBefore (pa ++ gap) (pb ++ gap) := by
  rcases List.eq_nil_or_concat gap with rfl | ⟨g, k, rfl⟩
  · simpa using h
  · exact Or.inr ⟨pa ++ g, pb ++ g, k, by simp, by simp⟩

theorem SameBefore.get {pa pb : List Line} (h : SameBefore pa pb) (as bs : List Line)
    (hpos : 0 < pa.length) : 0 < pb.length ∧
      ∃ k, (pa ++ as)[pa.length - 1]? = some k ∧ (pb ++ bs)[pb.length - 1]? = some k := by
  obtain ⟨rfl, -⟩ | ⟨pa', pb', k, rfl, rfl⟩ := h
  · simp at hpos
  · exact ⟨by simp, k, by simp, by simp⟩

namespace Aligned

variable {which : Which} {i j : ℕ} {as bs : List Line} {rs : List SRange}

theorem preceded (h : Aligned which i j as bs rs) {base side pa pb : List Line}
    (ha : base = pa ++ as) (hb : side = pb ++ bs) (hi : i = pa.length) (hj : j = pb.length)
    (hsame : SameBefore pa pb) :
    ∀ r ∈ rs, 0 < r.aStart →
      0 < r.bStart ∧ ∃ k, base[r.aStart - 1]? = some k ∧ side[r.bStart - 1]? = some k := by
  induction h generalizing pa pb with
  | done => exact fun r hr => absurd hr (by simp)
  | last gap dels ins _ =>
      intro r hr hpos
      obtain rfl := List.mem_singleton.mp hr
      have hget := (hsame.append gap).get dels ins
      simp only [List.length_append, List.append_assoc, ← hi, ← hj, ← ha, ← hb] at hget
      exact hget hpos
  | @more i j as bs rs gap dels ins k _ rest ih =>
      intro r hr hpos
      rcases List.mem_cons.mp hr with rfl | hr
      · have hget := (hsame.append gap).get (dels ++ k :: as) (ins ++ k :: bs)
        simp only [List.append_assoc] at ha hb
        simp only [List.length_append, List.append_assoc, ← hi, ← hj, ← ha, ← hb] at hget
        exact hget hpos
      · exact @ih (pa ++ (gap ++ dels ++ [k])) (pb ++ (gap ++ ins ++ [k]))
          (by simp [ha]) (by simp [hb]) (by simp [hi, add_assoc]) (by simp [hj, add_assoc])
          (Or.inr ⟨pa ++ (gap ++ dels), pb ++ (gap ++ ins), k, by simp, by simp⟩) r hr hpos

theorem view_eq (h : Aligned which i j as bs rs) {base side pa pb : List Line}
    (ha : base = pa ++ as) (hb : side = pb ++ bs) (hi : i = pa.length) (hj : j = pb.length) :
    view base side base.length i rs = bs := by
  induction h generalizing pa pb with
  | done ls =>
      rw [view, slice_length, ha, hi, List.drop_left]
  | @last i j gap dels ins _ =>
      have hgap : slice base i (i + gap.length) = gap := by
        rw [ha, hi]
        exact slice_middle pa gap dels
      have hins : slice side (j + gap.length) (j + gap.length + ins.length) = ins := by
        have hmid := slice_middle (pb ++ gap) ins []
        rw [List.append_nil, List.append_assoc, List.length_append, ← hb, ← hj] at hmid
        exact hmid
      have hend : base.length = i + gap.length + dels.length := by
        simp [ha, hi, add_assoc]
      rw [view, view, hgap, hins, hend, slice_self, List.append_nil]
  | @more i j as bs rs gap dels ins k _ rest ih =>
      have hgap : slice base i (i + gap.length) = gap := by
        rw [ha, hi, List.append_assoc]
        exact slice_middle pa gap (dels ++ k :: as)
      have hins : slice side (j + gap.length) (j + gap.length + ins.length) = ins := by
        have hmid := slice_middle (pb ++ gap) ins (k :: bs)
        simp only [List.append_assoc] at hmid hb
        rw [List.length_append, ← hb, ← hj] at hmid
        exact hmid
      have hrest := @ih (pa ++ (gap ++ dels ++ [k])) (pb ++ (gap ++ ins ++ [k]))
        (by simp [ha]) (by simp [hb]) (by simp [hi, add_assoc]) (by simp [hj, add_assoc])
      have hkept : view base side base.length (i + gap.length + dels.length) rs =
          k :: view base side base.length (i + gap.length + dels.length + 1) rs := by
        have hk : slice base (i + gap.length + dels.length)
            (i + gap.length + dels.length + 1) = [k] := by
          have hmid := slice_middle (pa ++ (gap ++ dels)) [k] as
          simp only [List.append_assoc, List.singleton_append] at hmid ha
          rw [List.length_append, List.length_append, ← ha, ← hi, ← add_assoc] at hmid
          exact hmid
        have hcut : view base side base.length (i + gap.length + dels.length) ([] ++ rs) =
            slice base (i + gap.length + dels.length) (i + gap.length + dels.length + 1) ++
              view base side base.length (i + gap.length + dels.length + 1) rs :=
          view_append (Nat.le_succ _) (by simp [ha, hi]; omega) (by simp)
            fun r hr => (rest.bounds r hr).2.1
        rw [List.nil_append, hk] at hcut
        exact hcut
      rw [view, hgap, hins, hkept, hrest]

end Aligned

theorem changeRanges_spec (base side : List Line) (which : Which) :
    ∃ rs, changeRanges base side which = some rs ∧ SideRanges base side which rs := by
  obtain ⟨ops, hops, hscript⟩ := lines_spec base side
  have h : Aligned which 0 0 base side _ := (changeRangesFrom_aligned hscript).1
  refine ⟨_, by rw [changeRanges, hops]; rfl, ?_⟩
  have hbounds := h.bounds
  simp only [zero_add] at hbounds
  constructor
  case side_eq => exact fun r hr => (hbounds r hr).1
  case bounds =>
      intro r hr
      obtain ⟨-, -, hle, hend, -, hle', hend', hne, -⟩ := hbounds r hr
      exact ⟨hle, hend, hle', hend', hne⟩
  case separated => exact h.separated
  case followed => exact fun r hr => (hbounds r hr).2.2.2.2.2.2.2.2
  case preceded =>
      exact h.preceded (List.nil_append base).symm (List.nil_append side).symm rfl rfl
        (Or.inl ⟨rfl, rfl⟩)
  case view_eq => exact h.view_eq (List.nil_append base).symm (List.nil_append side).symm rfl rfl

end Text

end Nipa
