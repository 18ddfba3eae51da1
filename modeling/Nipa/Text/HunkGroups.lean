import Nipa.Text.PatchApply

/-!
# Groups of changes

While the sums with the context stay within an `int`, the ranges of the hunks
cover all changes in order.  From a context of `2 ^ 62` on its double is
negative, so every change starts a hunk of its own although each is padded to
the whole file, and a sum that wraps makes the code leave its arrays.
-/

namespace Nipa

open Support

namespace Text

theorem wrap_eq {i : ℤ} (h : 0 ≤ i) (hlt : i < 2 ^ 63) : wrap i = i :=
  Int.bmod_eq_of_le (by norm_num; omega) (by norm_num; omega)

theorem wrap_neg {i : ℤ} (h : 2 ^ 63 ≤ i) (hlt : i < 2 ^ 64) : wrap i < 0 := by
  have hsub : wrap i = i - 2 ^ 64 := by
    rw [wrap, ← Int.sub_bmod_right]
    exact Int.bmod_eq_of_le (by norm_num; omega) (by norm_num; omega)
  omega

/-! ## The changed operations -/

variable {ops : List Op}

theorem mem_changes {c : ℤ} :
    c ∈ changes ops ↔ ∃ i : ℕ, c = i ∧ ∃ h : i < ops.length, ops[i].kind ≠ .equal := by
  simp only [changes, List.mem_map, List.mem_filter, decide_eq_true_eq]
  constructor
  · rintro ⟨⟨op, i⟩, ⟨hmem, hkind⟩, rfl⟩
    obtain ⟨hlt, rfl⟩ := List.mk_mem_zipIdx_iff_getElem?.mp hmem |> List.getElem?_eq_some_iff.mp
    exact ⟨i, rfl, hlt, hkind⟩
  · rintro ⟨i, rfl, hlt, hkind⟩
    refine ⟨(ops[i], i), ⟨?_, hkind⟩, rfl⟩
    exact List.mk_mem_zipIdx_iff_getElem?.mpr (List.getElem?_eq_getElem hlt)

theorem changes_sorted (ops : List Op) : (changes ops).Pairwise (· < ·) := by
  rw [changes, List.pairwise_map]
  refine List.Pairwise.filter _ ?_
  have hsorted : ((ops.zipIdx).map Prod.snd).Pairwise (· < ·) := by
    rw [List.zipIdx_map_snd]
    exact List.pairwise_lt_range'
  rw [List.pairwise_map] at hsorted
  exact hsorted.imp fun h => by exact_mod_cast h

section Groups

variable {ops : List Op} {context : ℤ}

/-- Between two indices nothing is changed. -/
def Kept (ops : List Op) (s e : ℤ) : Prop :=
  ∀ i : ℕ, s ≤ i → i < e → ∀ h : i < ops.length, ops[i].kind = .equal

theorem Kept.segment {s e : ℕ} (h : Kept ops s e) :
    ∀ op ∈ segment ops s e, op.kind = .equal := by
  intro op hop
  obtain ⟨i, hi, rfl⟩ := List.mem_iff_getElem.mp hop
  rw [Text.segment, List.length_take, List.length_drop] at hi
  simp only [Text.segment, List.getElem_take, List.getElem_drop]
  exact h (s + i) (by omega) (by omega) (by omega)

theorem Kept.drop {s : ℕ} (h : Kept ops s ops.length) :
    ∀ op ∈ ops.drop s, op.kind = .equal := by
  intro op hop
  obtain ⟨i, hi, rfl⟩ := List.mem_iff_getElem.mp hop
  rw [List.length_drop] at hi
  rw [List.getElem_drop]
  exact h (s + i) (by omega) (by omega) (by omega)

/-- `cs` are the changed operations after `prev`. -/
structure ChangesAfter (ops : List Op) (prev : ℤ) (cs : List ℤ) : Prop where
  sorted : (prev :: cs).Pairwise (· < ·)
  lt : ∀ c ∈ prev :: cs, 0 ≤ c ∧ c < ops.length
  complete : ∀ i : ℕ, prev < i → ∀ h : i < ops.length, ops[i].kind ≠ .equal → (i : ℤ) ∈ cs

namespace ChangesAfter

theorem tail {prev c : ℤ} {cs : List ℤ} (h : ChangesAfter ops prev (c :: cs)) :
    ChangesAfter ops c cs where
  sorted := (List.pairwise_cons.mp h.sorted).2
  lt c' hc' := h.lt c' (List.mem_cons_of_mem _ hc')
  complete i hi hlt hkind := by
    have hprev := (List.pairwise_cons.mp h.sorted).1 c (by simp)
    rcases List.mem_cons.mp (h.complete i (by omega) hlt hkind) with heq | hmem
    · omega
    · exact hmem

theorem kept_next {prev c : ℤ} {cs : List ℤ} (h : ChangesAfter ops prev (c :: cs)) :
    Kept ops (prev + 1) c := by
  intro i hi hic hlt
  by_contra hkind
  have hle : ∀ c' ∈ c :: cs, c ≤ c' := by
    intro c' hc'
    rcases List.mem_cons.mp hc' with rfl | hmem
    · exact le_rfl
    · exact ((List.pairwise_cons.mp h.tail.sorted).1 c' hmem).le
  have := hle i (h.complete i (by omega) hlt hkind)
  omega

theorem kept_end {prev : ℤ} (h : ChangesAfter ops prev []) :
    Kept ops (prev + 1) ops.length := by
  intro i hi _ hlt
  by_contra hkind
  exact absurd (h.complete i (by omega) hlt hkind) (by simp)

end ChangesAfter

theorem changesAfter_of_changes {c : ℤ} {cs : List ℤ} (h : changes ops = c :: cs) :
    ChangesAfter ops c cs where
  sorted := h ▸ changes_sorted ops
  lt c' hc' := by
    obtain ⟨i, rfl, hlt, -⟩ := mem_changes.mp (h ▸ hc')
    omega
  complete i hi hlt hkind := by
    have hmem : (i : ℤ) ∈ c :: cs := h ▸ mem_changes.mpr ⟨i, rfl, hlt, hkind⟩
    rcases List.mem_cons.mp hmem with heq | hmem
    · omega
    · exact hmem

theorem kept_first {c : ℤ} {cs : List ℤ} (h : changes ops = c :: cs) : Kept ops 0 c := by
  intro i _ hic hlt
  by_contra hkind
  have hmem : (i : ℤ) ∈ c :: cs := h ▸ mem_changes.mpr ⟨i, rfl, hlt, hkind⟩
  rcases List.mem_cons.mp hmem with heq | hmem
  · omega
  · have hsorted : (c :: cs).Pairwise (· < ·) := h ▸ changes_sorted ops
    have hlt' := (List.pairwise_cons.mp hsorted).1 i hmem
    omega

theorem rangesFrom_covers (h0 : 0 ≤ context) (hlen : (ops.length : ℤ) < 2 ^ 62)
    {cs : List ℤ} : ∀ {start prev : ℤ} {pos : ℕ}, ChangesAfter ops prev cs →
      prev + context + 1 < 2 ^ 63 → (cs ≠ [] → context < 2 ^ 62) → pos ≤ start →
      start ≤ prev → Kept ops pos start →
      Covers ops pos (rangesFrom ops.length context start prev cs) := by
  have hrange : ∀ {start prev : ℤ} {cs : List ℤ}, ChangesAfter ops prev cs →
      prev + context + 1 < 2 ^ 63 → 0 ≤ start → start ≤ prev →
      ∃ s e : ℕ, (start, min (ops.length : ℤ) (wrap (prev + context + 1))) =
        ((s : ℤ), (e : ℤ)) ∧ (s : ℤ) = start ∧ s ≤ e ∧ e ≤ ops.length ∧ prev + 1 ≤ e ∧
          (e : ℤ) ≤ prev + context + 1 := by
    intro start prev cs hafter hfit hstart hprev
    obtain ⟨hprev0, hprevlt⟩ := hafter.lt prev (by simp)
    rw [wrap_eq (by omega) hfit]
    refine ⟨start.toNat, (min (ops.length : ℤ) (prev + context + 1)).toNat, ?_, ?_⟩
    · rw [Int.toNat_of_nonneg hstart, Int.toNat_of_nonneg (by omega)]
    · omega
  induction cs with
  | nil =>
      intro start prev pos hafter hfit _ hpos hprev hkept
      obtain ⟨s, e, heq, hs, hse, he, hafter', -⟩ := hrange hafter hfit (by omega) hprev
      refine ⟨s, e, heq, by omega, hse, he, Kept.segment (hs.symm ▸ hkept), ?_⟩
      exact Kept.drop fun i hi h hlt => hafter.kept_end i (by omega) h hlt
  | cons c cs ih =>
      intro start prev pos hafter hfit hsmall hpos hprev hkept
      have hcontext := hsmall (by simp)
      have hc := hafter.lt c (by simp)
      have hprevc := (List.pairwise_cons.mp hafter.sorted).1 c (by simp)
      have hprev0 := (hafter.lt prev (by simp)).1
      rw [rangesFrom, wrap_eq (by omega) (by omega)]
      split
      next hgap =>
        obtain ⟨s, e, heq, hs, hse, he, hafter', hbefore⟩ :=
          hrange hafter hfit (by omega) hprev
        refine ⟨s, e, heq, by omega, hse, he, Kept.segment (hs.symm ▸ hkept), ?_⟩
        refine ih hafter.tail (by omega) (fun _ => hcontext) (by omega) (by omega) ?_
        exact fun i hi hlt h => hafter.kept_next i (by omega) (by omega) h
      next hgap =>
        exact ih hafter.tail (by omega) (fun _ => hcontext) hpos (by omega) hkept

/-- The sums the code makes with the context stay within an `int`, for changes
at these indices. -/
def ContextFits (context : ℤ) : List ℤ → Prop
  | [] => True
  | [c] => c + context + 1 < 2 ^ 63
  | _ => 2 * context < 2 ^ 63

theorem hunkRanges_covers (h0 : 0 ≤ context) (hlen : (ops.length : ℤ) < 2 ^ 62)
    (hfit : ContextFits context (changes ops)) :
    Covers ops 0 (hunkRanges ops context) := by
  rw [hunkRanges]
  cases hchanges : changes ops with
  | nil =>
      refine fun op hop => ?_
      by_contra hkind
      obtain ⟨i, hi, rfl⟩ := List.mem_iff_getElem.mp hop
      have hmem : (i : ℤ) ∈ changes ops := mem_changes.mpr ⟨i, rfl, hi, hkind⟩
      rw [hchanges] at hmem
      simp at hmem
  | cons c cs =>
      have hafter := changesAfter_of_changes hchanges
      have hc := hafter.lt c (by simp)
      have hfirst := kept_first hchanges
      rw [hchanges] at hfit
      refine rangesFrom_covers h0 hlen hafter ?_ ?_ (by omega) (by omega)
        fun i hi hlt h => hfirst i hi (by omega) h
      · cases cs with
        | nil => exact hfit
        | cons c' cs =>
            have hdouble : 2 * context < 2 ^ 63 := hfit
            omega
      · intro hcs
        cases cs with
        | nil => exact absurd rfl hcs
        | cons c' cs =>
            have hdouble : 2 * context < 2 ^ 63 := hfit
            omega

/-! ## Sums that wrap -/

theorem hunk_eq_none {preA preB : List ℕ} {r : ℤ × ℤ} (h : r.2 < 0) :
    hunk ops preA preB r = none := by
  have hstop : at? preA r.2 = none := by rw [at?, if_neg (by omega)]
  have hcount : hunkStartCount preA r.1 r.2 = none := by
    rw [hunkStartCount, hstop]
    cases at? preA r.1 <;> rfl
  rw [hunk, hcount]
  rfl

theorem rangesFrom_head (len context start prev : ℤ) (cs : List ℤ) :
    ∃ p rs, rangesFrom len context start prev cs =
      (start, min len (wrap (p + context + 1))) :: rs := by
  induction cs generalizing prev with
  | nil => exact ⟨prev, [], rfl⟩
  | cons c cs ih =>
      rw [rangesFrom]
      split
      · exact ⟨prev, _, rfl⟩
      · exact ih c

theorem mapM_cons_eq_some {α β : Type} {f : α → Option β} {x : α} {xs : List α}
    {ys : List β} (h : (x :: xs).mapM f = some ys) :
    ∃ y ys', f x = some y ∧ xs.mapM f = some ys' ∧ ys = y :: ys' := by
  rw [List.mapM_cons] at h
  obtain ⟨y, hy, h⟩ := Option.bind_eq_some_iff.mp h
  obtain ⟨ys', hys', h⟩ := Option.bind_eq_some_iff.mp h
  exact ⟨y, ys', hy, hys', (Option.some.inj h).symm⟩

theorem countP_onOld_add_onNew_pos {ops : List Op} (h : ops ≠ []) :
    0 < ops.countP Op.onOld + ops.countP Op.onNew := by
  obtain ⟨op, ops, rfl⟩ := List.exists_cons_of_ne_nil h
  cases hkind : op.kind <;> simp [Op.onOld, Op.onNew, hkind]

/-- A range of a group that starts at the first operation, if the code gets as
far as building its hunk. -/
theorem hunk_zero {e : ℤ} {h : Hunk} (he : e ≤ ops.length)
    (hbuilt : hunk ops (prefixCounts Op.onOld 0 ops) (prefixCounts Op.onNew 0 ops) (0, e) =
      some h) : 0 ≤ e ∧ h = hunkOver 0 0 (ops.take e.toNat) := by
  have hnonneg : 0 ≤ e := by
    by_contra hneg
    rw [hunk_eq_none (by simpa using hneg)] at hbuilt
    exact absurd hbuilt (by simp)
  refine ⟨hnonneg, ?_⟩
  have heq := @hunk_eq ops 0 e.toNat (by omega) (by omega)
  rw [Int.toNat_of_nonneg hnonneg] at heq
  rw [Nat.cast_zero, hbuilt] at heq
  simpa [segment] using Option.some.inj heq

theorem not_ordered_of_not_fits (h0 : 0 ≤ context) (hint : context < 2 ^ 63)
    (hlen : (ops.length : ℤ) < 2 ^ 62) (hfit : ¬ContextFits context (changes ops))
    {hs : List Hunk} (hhunks : hunksOf ops context = some hs) :
    ¬hs.Pairwise fun h h' =>
      h.oldPos + h.oldLines ≤ h'.oldPos ∧ h.newPos + h.newLines ≤ h'.newPos := by
  change (hunkRanges ops context).mapM
    (hunk ops (prefixCounts Op.onOld 0 ops) (prefixCounts Op.onNew 0 ops)) = some hs at hhunks
  rw [hunkRanges] at hhunks
  cases hchanges : changes ops with
  | nil =>
      rw [hchanges] at hfit
      exact absurd trivial hfit
  | cons c cs =>
      rw [hchanges] at hhunks hfit
      have hafter := changesAfter_of_changes hchanges
      have hc := hafter.lt c (by simp)
      cases cs with
      | nil =>
          have hbig : ¬c + context + 1 < 2 ^ 63 := hfit
          obtain ⟨h, _, hbuilt, -, -⟩ := mapM_cons_eq_some hhunks
          have hneg := wrap_neg (i := c + context + 1) (by omega) (by omega)
          rw [hunk_eq_none (by simp only; omega)] at hbuilt
          exact absurd hbuilt (by simp)
      | cons c' cs =>
          have hbig : ¬2 * context < 2 ^ 63 := hfit
          have hcc' := (List.pairwise_cons.mp hafter.sorted).1 c' (by simp)
          have hc' := hafter.lt c' (by simp)
          have hneg := wrap_neg (i := 2 * context) (by omega) (by omega)
          change (rangesFrom ops.length context (max 0 (c - context)) c (c' :: cs)).mapM _ =
            some hs at hhunks
          rw [show max 0 (c - context) = 0 by omega, rangesFrom, if_pos (by omega),
            show max 0 (c' - context) = 0 by omega] at hhunks
          obtain ⟨p, rs, hhead⟩ := rangesFrom_head ops.length context 0 c' cs
          rw [hhead] at hhunks
          obtain ⟨h, hs', hbuilt, hrest, rfl⟩ := mapM_cons_eq_some hhunks
          obtain ⟨h', hs'', hbuilt', -, rfl⟩ := mapM_cons_eq_some hrest
          obtain ⟨hnonneg, rfl⟩ := hunk_zero (min_le_left _ _) hbuilt
          obtain ⟨-, rfl⟩ := hunk_zero (min_le_left _ _) hbuilt'
          intro hordered
          have hle := (List.pairwise_cons.mp hordered).1 _ List.mem_cons_self
          have hfits : c + context + 1 < 2 ^ 63 := by
            by_contra hwraps
            have := wrap_neg (i := c + context + 1) (by omega) (by omega)
            omega
          rw [wrap_eq (by omega) hfits, min_eq_left (by omega), Int.toNat_natCast,
            List.take_length] at hle
          simp only [hunkOver_oldPos, hunkOver_newPos, zero_add] at hle
          have hpos := @countP_onOld_add_onNew_pos ops (by
            rintro rfl
            simp at hc
            omega)
          have hold : (hunkOver 0 0 ops).oldLines = ops.countP Op.onOld := rfl
          have hnew : (hunkOver 0 0 ops).newLines = ops.countP Op.onNew := rfl
          omega

end Groups

/-! ## The hunks of two texts -/

theorem IsScript.length_le {equal : Line → Line → Bool} {i j : ℕ} {as bs : List Line}
    (h : IsScript equal i j as bs ops) : ops.length ≤ as.length + bs.length := by
  induction h with
  | nil => simp
  | keep _ _ ih => simp only [List.length_cons]; omega
  | remove _ ih => simp only [List.length_cons]; omega
  | add _ ih => simp only [List.length_cons]; omega

theorem IsScript.oldText_eq {equal : Line → Line → Bool} {i j : ℕ} {as bs : List Line}
    (h : IsScript equal i j as bs ops) : oldText ops = as := by
  have hside := congrArg (List.map Prod.fst) h.old_side
  rwa [List.map_map, List.zipIdx_map_fst] at hside

theorem IsScript.newText_eq {i j : ℕ} {as bs : List Line}
    (h : IsScript (fun s t => s = t) i j as bs ops) : newText ops = bs := by
  have hside := congrArg (List.map Prod.fst)
    (h.new_side_exact fun s t hst => of_decide_eq_true hst)
  rwa [List.map_map, List.zipIdx_map_fst] at hside

/-- The hunks between two texts apply in both directions, in order, with
headers that agree with their bodies, exactly when the context fits: with two
or more changed lines its double has to be an `int`, and with one the end of
its hunk. -/
theorem hunks_apply_iff (old new : List UInt8) (context : ℤ) (h0 : 0 ≤ context)
    (hint : context < 2 ^ 63)
    (hlen : ((splitLines old).length + (splitLines new).length : ℤ) < 2 ^ 62)
    (ops : List Op) (hops : lines (splitLines old) (splitLines new) = some ops) :
    (∃ hs, hunks old new context = some hs ∧
        HunksApply (splitLines old) (splitLines new) hs) ↔
      ContextFits context (changes ops) := by
  obtain ⟨ops', hops', hscript⟩ := lines_spec (splitLines old) (splitLines new)
  obtain rfl : ops = ops' := Option.some.inj (hops.symm.trans hops')
  have hopsLen : (ops.length : ℤ) < 2 ^ 62 := by
    have hle := hscript.length_le
    omega
  have hhunks : hunks old new context = hunksOf ops context := by
    rw [hunks, hops]
    rfl
  rw [hhunks]
  constructor
  · rintro ⟨hs, hbuilt, happly⟩
    by_contra hfit
    exact not_ordered_of_not_fits h0 hint hopsLen hfit hbuilt happly.ordered
  · intro hfit
    have hcovers := hunkRanges_covers h0 hopsLen hfit
    have happly := hcovers.hunksApply
    rw [hscript.oldText_eq, hscript.newText_eq] at happly
    exact ⟨_, hcovers.mapM_hunk, happly⟩

/-- The hunk that replaces the only line of a text. -/
theorem hunks_apply_one_line :
    ∃ hs, hunks [97, 10] [98, 10] 3 = some hs ∧
      HunksApply (splitLines [97, 10]) (splitLines [98, 10]) hs :=
  (hunks_apply_iff [97, 10] [98, 10] 3 (by decide) (by decide) (by decide)
    [⟨.removed, [97, 10], 0, 0⟩, ⟨.added, [98, 10], 1, 0⟩] (by decide)).mpr
      (show (2 * 3 : ℤ) < 2 ^ 63 by decide)

/-- With a context of `2 ^ 62` the two changes of one replaced line are two hunks
over the same lines. -/
theorem hunks_overlap :
    ∃ h, hunks [97, 10] [98, 10] (2 ^ 62) = some [h, h] ∧
      ¬HunksApply (splitLines [97, 10]) (splitLines [98, 10]) [h, h] := by
  refine ⟨⟨1, 1, 1, 1, [⟨.removed, 1, 0, [97, 10], false⟩, ⟨.added, 0, 1, [98, 10], false⟩]⟩,
    by decide +kernel, fun happly => ?_⟩
  exact absurd happly.ordered (by decide)

end Text

end Nipa
