import Mathlib.Data.List.Forall2
import Mathlib.Order.Bounds.Basic
import Mathlib.Tactic.Ring

/-!
# Edit graphs

Two sequences span a grid.  A path from the origin goes right, past an element
of the first, or down, past an element of the second, at the cost of one edit,
and diagonally past a pair of matching elements for free.  The furthest points
that `d` edits reach on each diagonal are found from those that `d - 1` edits
reach, and the least number of edits that reaches the far corner is the length
of both sequences less twice their longest common subsequence.
-/

namespace Nipa.Support

/-- `Reach M d x y`: some path with `d` edits leads from the origin to `(x, y)`,
where `M` tells which cells can be crossed diagonally. -/
inductive Reach (M : ℤ → ℤ → Prop) : ℕ → ℤ → ℤ → Prop
  | origin : Reach M 0 0 0
  | right {d x y} : Reach M d x y → Reach M (d + 1) (x + 1) y
  | down {d x y} : Reach M d x y → Reach M (d + 1) x (y + 1)
  | diagonal {d x y} : Reach M d x y → M x y → Reach M d (x + 1) (y + 1)

/-- Every cell of diagonal `k` from `x` up to `x'` can be crossed. -/
def Slide (M : ℤ → ℤ → Prop) (k x x' : ℤ) : Prop :=
  ∀ i, x ≤ i → i < x' → M i (i - k)

/-- `x` is the furthest point of diagonal `k` that `d` edits reach. -/
def Furthest (M : ℤ → ℤ → Prop) (d : ℕ) (k x : ℤ) : Prop :=
  IsGreatest {x | Reach M d x (x - k)} x

/-- `x` is a point of diagonal `k` right after the last of `d + 1` edits. -/
def Entered (M : ℤ → ℤ → Prop) (d : ℕ) (k x : ℤ) : Prop :=
  Reach M d (x - 1) (x - k) ∨ Reach M d x (x - k - 1)

/-- `x` is where the furthest path with `d` edits starts its run on diagonal
`k`: at the origin, or where the last edit enters the diagonal furthest out. -/
def Starts (M : ℤ → ℤ → Prop) : ℕ → ℤ → ℤ → Prop
  | 0, k, x => k = 0 ∧ x = 0
  | d + 1, k, x => IsGreatest {x | Entered M d k x} x

section Paths

variable {M : ℤ → ℤ → Prop}

namespace Reach

theorem nonneg {d : ℕ} {x y : ℤ} (h : Reach M d x y) : 0 ≤ x ∧ 0 ≤ y := by
  induction h with
  | origin => omega
  | right _ ih => omega
  | down _ ih => omega
  | diagonal _ _ ih => omega

theorem diagonal_bounds {d : ℕ} {x y : ℤ} (h : Reach M d x y) :
    ∃ j : ℕ, j ≤ d ∧ x - y = 2 * j - d := by
  induction h with
  | origin => exact ⟨0, by omega⟩
  | right _ ih =>
      obtain ⟨j, hj, heq⟩ := ih
      exact ⟨j + 1, by omega, by push_cast; omega⟩
  | down _ ih =>
      obtain ⟨j, hj, heq⟩ := ih
      exact ⟨j, by omega, by push_cast; omega⟩
  | diagonal _ _ ih =>
      obtain ⟨j, hj, heq⟩ := ih
      exact ⟨j, hj, by omega⟩

theorem run {d : ℕ} {k x x' : ℤ} (h : Reach M d x (x - k)) (hle : x ≤ x')
    (hrun : Slide M k x x') : Reach M d x' (x' - k) := by
  obtain ⟨j, rfl⟩ : ∃ j : ℕ, x' = x + j := ⟨(x' - x).toNat, by omega⟩
  clear hle
  induction j with
  | zero => simpa using h
  | succ j ih =>
      have hprev := ih fun i hi hlt => hrun i hi (by push_cast; omega)
      have hcross := hrun (x + j) (by omega) (by push_cast; omega)
      have hnext := hprev.diagonal hcross
      have hx : x + (j : ℤ) + 1 = x + ((j + 1 : ℕ) : ℤ) := by push_cast; ring
      have hy : x + (j : ℤ) - k + 1 = x + ((j + 1 : ℕ) : ℤ) - k := by push_cast; ring
      rwa [hx, hy] at hnext

theorem of_zero {x y : ℤ} (h : Reach M 0 x y) : x = y ∧ Slide M 0 0 x := by
  generalize hd : (0 : ℕ) = d at h
  induction h with
  | origin => exact ⟨rfl, fun i h0 h1 => by omega⟩
  | right _ _ => omega
  | down _ _ => omega
  | @diagonal d x y hreach hcross ih =>
      obtain ⟨rfl, hrun⟩ := ih hd
      refine ⟨rfl, fun i h0 h1 => ?_⟩
      rcases eq_or_lt_of_le (Int.lt_add_one_iff.mp h1) with rfl | hlt
      · simpa using hcross
      · exact hrun i h0 hlt

theorem last_edit {d : ℕ} {k x' : ℤ} (h : Reach M (d + 1) x' (x' - k)) :
    ∃ x, x ≤ x' ∧ Entered M d k x ∧ Slide M k x x' := by
  generalize hy : x' - k = y' at h
  generalize hd : d + 1 = e at h
  induction h with
  | origin => omega
  | @right e x y hreach _ =>
      obtain rfl : d = e := by omega
      refine ⟨x + 1, le_rfl, Or.inl ?_, fun i h0 h1 => by omega⟩
      rwa [show x + 1 - 1 = x by ring, show x + 1 - k = y by omega]
  | @down e x y hreach _ =>
      obtain rfl : d = e := by omega
      refine ⟨x, le_rfl, Or.inr ?_, fun i h0 h1 => by omega⟩
      rwa [show x - k - 1 = y by omega]
  | @diagonal e x y _ hcross ih =>
      obtain ⟨x₀, hle, hentered, hrun⟩ := ih (by omega) hd
      refine ⟨x₀, by omega, hentered, fun i h0 h1 => ?_⟩
      rcases eq_or_lt_of_le (Int.lt_add_one_iff.mp h1) with rfl | hlt
      · rwa [show i - k = y by omega]
      · exact hrun i h0 hlt

end Reach

variable {d : ℕ} {x : ℤ}

theorem Entered.reach {k : ℤ} (h : Entered M d k x) : Reach M (d + 1) x (x - k) := by
  rcases h with h | h
  · have hright := h.right
    rwa [show x - 1 + 1 = x by ring] at hright
  · have hdown := h.down
    rwa [show x - k - 1 + 1 = x - k by ring] at hdown

/-! ## The furthest points -/

/-- From where the furthest path starts on the diagonal the run leads to the
furthest point of the diagonal. -/
theorem Starts.furthest {k x₀ : ℤ} (h : Starts M d k x₀) (hle : x₀ ≤ x) (hrun : Slide M k x₀ x)
    (hstop : ¬M x (x - k)) : Furthest M d k x := by
  cases d with
  | zero =>
      obtain ⟨rfl, rfl⟩ := h
      constructor
      · have horigin : Reach M 0 0 (0 - 0) := Reach.origin
        exact horigin.run hle hrun
      · intro x' hx'
        by_contra hlt
        have hcross := hx'.of_zero.2 x (by omega) (by omega)
        exact hstop hcross
  | succ d =>
      constructor
      · exact h.1.reach.run hle hrun
      · intro x' hx'
        by_contra hlt
        obtain ⟨x₁, -, hentered, hrun'⟩ := Reach.last_edit hx'
        have hle₁ : x₁ ≤ x₀ := h.2 hentered
        exact hstop (hrun' x (by omega) (by omega))

theorem Furthest.run {k x₀ : ℤ} (h : Furthest M d k x) (hx₀ : Starts M d k x₀) :
    x₀ ≤ x ∧ Slide M k x₀ x := by
  cases d with
  | zero =>
      obtain ⟨rfl, rfl⟩ := hx₀
      exact ⟨h.1.nonneg.1, h.1.of_zero.2⟩
  | succ d =>
      obtain ⟨x₁, -, hentered, hrun⟩ := Reach.last_edit h.1
      have hle₁ : x₁ ≤ x₀ := hx₀.2 hentered
      exact ⟨h.2 hx₀.1.reach, fun i h0 h1 => hrun i (by omega) h1⟩

namespace Furthest

variable {d : ℕ} {k x : ℤ}

theorem right_le {x' : ℤ} (h : Furthest M d (k - 1) x) (h' : Reach M d (x' - 1) (x' - k)) :
    x' ≤ x + 1 := by
  have hmem : Reach M d (x' - 1) (x' - 1 - (k - 1)) := by
    rwa [show x' - 1 - (k - 1) = x' - k by ring]
  have hle : x' - 1 ≤ x := h.2 hmem
  omega

theorem down_le {x' : ℤ} (h : Furthest M d (k + 1) x) (h' : Reach M d x' (x' - k - 1)) :
    x' ≤ x := by
  have hmem : Reach M d x' (x' - (k + 1)) := by
    rwa [show x' - (k + 1) = x' - k - 1 by ring]
  exact h.2 hmem

theorem enter_right (h : Furthest M d (k - 1) x) : Entered M d k (x + 1) := by
  refine Or.inl ?_
  have hreach : Reach M d x (x - (k - 1)) := h.1
  rwa [show x + 1 - 1 = x by ring, show x + 1 - k = x - (k - 1) by ring]

theorem enter_down (h : Furthest M d (k + 1) x) : Entered M d k x := by
  refine Or.inr ?_
  have hreach : Reach M d x (x - (k + 1)) := h.1
  rwa [show x - k - 1 = x - (k + 1) by ring]

theorem starts_lowest (hk : k = -(d + 1 : ℕ)) (h : Furthest M d (k + 1) x) :
    Starts M (d + 1) k x := by
  refine ⟨h.enter_down, ?_⟩
  rintro x' (hx' | hx')
  · obtain ⟨j, hj, heq⟩ := hx'.diagonal_bounds
    push_cast at hk
    omega
  · exact h.down_le hx'

theorem starts_highest (hk : k = (d + 1 : ℕ)) (h : Furthest M d (k - 1) x) :
    Starts M (d + 1) k (x + 1) := by
  refine ⟨h.enter_right, ?_⟩
  rintro x' (hx' | hx')
  · exact h.right_le hx'
  · obtain ⟨j, hj, heq⟩ := hx'.diagonal_bounds
    push_cast at hk
    omega

theorem starts_down {xl xr : ℤ} (hl : Furthest M d (k - 1) xl) (hr : Furthest M d (k + 1) xr)
    (hlt : xl < xr) : Starts M (d + 1) k xr := by
  refine ⟨hr.enter_down, ?_⟩
  rintro x' (hx' | hx')
  · have hle := hl.right_le hx'
    omega
  · exact hr.down_le hx'

theorem starts_right {xl xr : ℤ} (hl : Furthest M d (k - 1) xl) (hr : Furthest M d (k + 1) xr)
    (hle : xr ≤ xl) : Starts M (d + 1) k (xl + 1) := by
  refine ⟨hl.enter_right, ?_⟩
  rintro x' (hx' | hx')
  · exact hl.right_le hx'
  · have hle' := hr.down_le hx'
    omega

end Furthest

/-! ## Points outside of the grid -/

theorem Reach.clamp {n m : ℤ} (hn : 0 ≤ n) (hm : 0 ≤ m) (hgrid : ∀ x y, M x y → x < n ∧ y < m)
    {y : ℤ} (h : Reach M d x y) :
    ∃ d' : ℕ, Reach M d' (min x n) (min y m) ∧
      d' + (x - min x n) + (y - min y m) ≤ d := by
  induction h with
  | origin =>
      refine ⟨0, ?_, ?_⟩
      · rw [min_eq_left hn, min_eq_left hm]
        exact Reach.origin
      · rw [min_eq_left hn, min_eq_left hm]
        simp
  | @right d x y _ ih =>
      obtain ⟨d', hreach, hle⟩ := ih
      rcases lt_or_ge x n with hx | hx
      · refine ⟨d' + 1, ?_, ?_⟩
        · rw [min_eq_left (by omega : x + 1 ≤ n)]
          rw [min_eq_left hx.le] at hreach
          exact hreach.right
        · push_cast
          omega
      · refine ⟨d', ?_, ?_⟩
        · rw [min_eq_right (by omega : n ≤ x + 1)]
          rwa [min_eq_right hx] at hreach
        · push_cast
          omega
  | @down d x y _ ih =>
      obtain ⟨d', hreach, hle⟩ := ih
      rcases lt_or_ge y m with hy | hy
      · refine ⟨d' + 1, ?_, ?_⟩
        · rw [min_eq_left (by omega : y + 1 ≤ m)]
          rw [min_eq_left hy.le] at hreach
          exact hreach.down
        · push_cast
          omega
      · refine ⟨d', ?_, ?_⟩
        · rw [min_eq_right (by omega : m ≤ y + 1)]
          rwa [min_eq_right hy] at hreach
        · push_cast
          omega
  | @diagonal d x y _ hcross ih =>
      obtain ⟨hx, hy⟩ := hgrid x y hcross
      obtain ⟨d', hreach, hle⟩ := ih
      refine ⟨d', ?_, ?_⟩
      · rw [min_eq_left (by omega : x + 1 ≤ n), min_eq_left (by omega : y + 1 ≤ m)]
        rw [min_eq_left hx.le, min_eq_left hy.le] at hreach
        exact hreach.diagonal hcross
      · omega

/-- If fewer edits do not reach the corner, the first point at or beyond it is
the corner itself. -/
theorem Reach.eq_corner {n m : ℤ} (hn : 0 ≤ n) (hm : 0 ≤ m) (hgrid : ∀ x y, M x y → x < n ∧ y < m)
    {y : ℤ} (h : Reach M d x y) (hx : n ≤ x) (hy : m ≤ y) (hleast : ∀ d' < d, ¬Reach M d' n m) :
    x = n ∧ y = m := by
  obtain ⟨d', hreach, hle⟩ := h.clamp hn hm hgrid
  rw [min_eq_right hx, min_eq_right hy] at hreach hle
  have hnot : ¬d' < d := fun hlt => hleast d' hlt hreach
  omega

theorem Reach.rights {y : ℤ} (h : Reach M d x y) (n : ℕ) : Reach M (d + n) (x + n) y := by
  induction n with
  | zero => simpa using h
  | succ n ih =>
      have hright := ih.right
      rwa [show x + (n : ℤ) + 1 = x + ((n + 1 : ℕ) : ℤ) by push_cast; ring] at hright

theorem Reach.downs {y : ℤ} (h : Reach M d x y) (m : ℕ) : Reach M (d + m) x (y + m) := by
  induction m with
  | zero => simpa using h
  | succ m ih =>
      have hdown := ih.down
      rwa [show y + (m : ℤ) + 1 = y + ((m + 1 : ℕ) : ℤ) by push_cast; ring] at hdown

theorem Reach.corner (M : ℤ → ℤ → Prop) (n m : ℕ) : Reach M (n + m) n m := by
  simpa using (Reach.origin.rights n).downs m

end Paths

/-! ## Common subsequences -/

section Sequences

variable {α β : Type} {R : α → β → Prop}

/-- The elements of the two sequences at a cell match. -/
def Crossing (R : α → β → Prop) (as : List α) (bs : List β) (x y : ℤ) : Prop :=
  0 ≤ x ∧ 0 ≤ y ∧ ∃ a b, as[x.toNat]? = some a ∧ bs[y.toNat]? = some b ∧ R a b

/-- The two sequences have a common subsequence of length `len`, up to `R`. -/
def CommonLength (R : α → β → Prop) (as : List α) (bs : List β) (len : ℕ) : Prop :=
  ∃ us vs, us.Sublist as ∧ vs.Sublist bs ∧ List.Forall₂ R us vs ∧ us.length = len

variable {as : List α} {bs : List β}

theorem Crossing.lt {x y : ℤ} (h : Crossing R as bs x y) : x < as.length ∧ y < bs.length := by
  obtain ⟨hx, hy, a, b, ha, hb, -⟩ := h
  have hxlt := (List.getElem?_eq_some_iff.mp ha).1
  have hylt := (List.getElem?_eq_some_iff.mp hb).1
  omega

theorem Reach.commonLength {d : ℕ} {x y : ℤ} (h : Reach (Crossing R as bs) d x y) :
    ∃ len : ℕ, CommonLength R (as.take x.toNat) (bs.take y.toNat) len ∧
      d + 2 * len = x + y := by
  induction h with
  | origin => exact ⟨0, ⟨[], [], by simp⟩, by simp⟩
  | @right d x y hreach ih =>
      obtain ⟨len, ⟨us, vs, hus, hvs, hall, hlen⟩, hcost⟩ := ih
      refine ⟨len, ⟨us, vs, hus.trans ?_, hvs, hall, hlen⟩, by push_cast; omega⟩
      exact List.take_sublist_take_left (by omega)
  | @down d x y hreach ih =>
      obtain ⟨len, ⟨us, vs, hus, hvs, hall, hlen⟩, hcost⟩ := ih
      refine ⟨len, ⟨us, vs, hus, hvs.trans ?_, hall, hlen⟩, by push_cast; omega⟩
      exact List.take_sublist_take_left (by omega)
  | @diagonal d x y hreach hcross ih =>
      obtain ⟨len, ⟨us, vs, hus, hvs, hall, hlen⟩, hcost⟩ := ih
      obtain ⟨hx, hy, a, b, ha, hb, hab⟩ := hcross
      obtain ⟨hxlt, rfl⟩ := List.getElem?_eq_some_iff.mp ha
      obtain ⟨hylt, rfl⟩ := List.getElem?_eq_some_iff.mp hb
      refine ⟨len + 1, ⟨us ++ [as[x.toNat]], vs ++ [bs[y.toNat]], ?_, ?_, ?_, ?_⟩, ?_⟩
      · rw [show (x + 1).toNat = x.toNat + 1 by omega, List.take_succ_eq_append_getElem hxlt]
        exact hus.append_right _
      · rw [show (y + 1).toNat = y.toNat + 1 by omega, List.take_succ_eq_append_getElem hylt]
        exact hvs.append_right _
      · exact List.rel_append hall (List.Forall₂.cons hab List.Forall₂.nil)
      · simp [hlen]
      · push_cast
        omega

theorem exists_append_of_cons_sublist {u : α} {us : List α} (h : (u :: us).Sublist as) :
    ∃ pre rest, as = pre ++ u :: rest ∧ us.Sublist rest := by
  obtain ⟨r₁, r₂, rfl, hmem, hsub⟩ := List.cons_sublist_iff.mp h
  obtain ⟨pre, post, rfl⟩ := List.append_of_mem hmem
  refine ⟨pre, post ++ r₂, by simp, ?_⟩
  exact hsub.trans (List.sublist_append_right post r₂)

theorem Reach.finish {us : List α} {vs : List β} (hall : List.Forall₂ R us vs) {pa as' : List α}
    {pb bs' : List β} {d : ℕ} (ha : as = pa ++ as') (hb : bs = pb ++ bs') (hus : us.Sublist as')
    (hvs : vs.Sublist bs') (h : Reach (Crossing R as bs) d pa.length pb.length) :
    ∃ d', Reach (Crossing R as bs) d' as.length bs.length ∧
      d' + 2 * us.length = d + as'.length + bs'.length := by
  induction hall generalizing pa as' pb bs' d with
  | nil =>
      refine ⟨d + as'.length + bs'.length, ?_, by simp⟩
      have hcorner := (h.rights as'.length).downs bs'.length
      rw [ha, hb] at hcorner ⊢
      simpa using hcorner
  | @cons u v us vs huv _ ih =>
      obtain ⟨pre, rest, rfl, husRest⟩ := exists_append_of_cons_sublist hus
      obtain ⟨pre', rest', rfl, hvsRest⟩ := exists_append_of_cons_sublist hvs
      have hcross : Crossing R as bs (pa.length + pre.length : ℕ)
          (pb.length + pre'.length : ℕ) := by
        refine ⟨by omega, by omega, u, v, ?_, ?_, huv⟩
        · rw [ha, ← List.append_assoc, Int.toNat_natCast]
          simp
        · rw [hb, ← List.append_assoc, Int.toNat_natCast]
          simp
      have hskip := (h.rights pre.length).downs pre'.length
      have hstep : Reach (Crossing R as bs) (d + pre.length + pre'.length)
          (pa ++ pre ++ [u]).length (pb ++ pre' ++ [v]).length := by
        have hdiagonal := hskip.diagonal (by simpa using hcross)
        simpa [add_assoc] using hdiagonal
      obtain ⟨d', hreach, hcost⟩ := ih (by simpa using ha) (by simpa using hb)
        husRest hvsRest hstep
      refine ⟨d', hreach, ?_⟩
      simp only [List.length_cons, List.length_append]
      omega

/-- The corner is reached with exactly the edits that a common subsequence
leaves over. -/
theorem reach_corner_iff {d : ℕ} :
    Reach (Crossing R as bs) d as.length bs.length ↔
      ∃ len, CommonLength R as bs len ∧ d + 2 * len = as.length + bs.length := by
  constructor
  · intro h
    obtain ⟨len, hcommon, hcost⟩ := h.commonLength
    rw [Int.toNat_natCast, Int.toNat_natCast, List.take_length, List.take_length] at hcommon
    exact ⟨len, hcommon, by omega⟩
  · rintro ⟨len, ⟨us, vs, hus, hvs, hall, rfl⟩, hcost⟩
    have horigin : Reach (Crossing R as bs) 0 ([] : List α).length ([] : List β).length :=
      Reach.origin
    obtain ⟨d', hreach, hcost'⟩ := Reach.finish hall (List.nil_append as).symm
      (List.nil_append bs).symm hus hvs horigin
    rwa [show d = d' by omega]

/-- The least number of edits that reaches the corner, by the longest common
subsequence. -/
theorem isGreatest_commonLength {d : ℕ} (h : Reach (Crossing R as bs) d as.length bs.length)
    (hleast : ∀ d' < d, ¬Reach (Crossing R as bs) d' as.length bs.length) :
    ∃ len, IsGreatest {len | CommonLength R as bs len} len ∧
      d + 2 * len = as.length + bs.length := by
  obtain ⟨len, hcommon, hcost⟩ := reach_corner_iff.mp h
  refine ⟨len, ⟨hcommon, ?_⟩, hcost⟩
  intro len' hcommon'
  by_contra hlt
  have hle : 2 * len' ≤ as.length + bs.length := by
    obtain ⟨us, vs, hus, hvs, hall, rfl⟩ := hcommon'
    have hlen := hall.length_eq
    have husle := hus.length_le
    have hvsle := hvs.length_le
    omega
  refine hleast (as.length + bs.length - 2 * len') (by omega) ?_
  exact reach_corner_iff.mpr ⟨len', hcommon', by omega⟩

end Sequences

end Nipa.Support
