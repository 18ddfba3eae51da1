import Mathlib.Data.List.GetD
import Nipa.Preview.Tables

/-!
# What an alignment lists

An alignment lists every old and every new entry once; the entries with equal keys are
paired, and those that are not marked as moved are a longest list in common order.
-/

namespace Nipa

open Support

namespace Preview

section Align

variable {κ : Type} [DecidableEq κ]

/-! ## Matches -/

theorem indexAt_eq_some_iff {a : List κ} (hnodup : a.Nodup) {k : κ} {i : ℕ} :
    indexAt k a = some i ↔ a[i]? = some k := by
  induction a generalizing i with
  | nil => simp [indexAt]
  | cons x xs ih =>
      obtain ⟨hnot, hrest⟩ := List.nodup_cons.mp hnodup
      rw [indexAt]
      cases hfound : indexAt k xs with
      | none =>
          have habsent : ∀ n : ℕ, xs[n]? ≠ some k := by
            intro n hn
            rw [(ih hrest).mpr hn] at hfound
            cases hfound
          dsimp only
          cases i with
          | zero => simp
          | succ i =>
              rw [List.getElem?_cons_succ]
              simp [habsent i]
      | some n =>
          have hmem := (ih hrest).mp hfound
          have hne : x ≠ k := by
            rintro rfl
            exact hnot (List.mem_of_getElem? hmem)
          dsimp only
          cases i with
          | zero => simp [hne]
          | succ i => rw [List.getElem?_cons_succ, ← ih hrest, hfound, Option.some.injEq,
              Option.some.injEq, Nat.add_right_cancel_iff]

theorem matchOf_getElem?_iff {a b : List κ} (hnodup : a.Nodup) {i j : ℕ} :
    (matchOf a b)[j]? = some (some i) ↔ ∃ k, a[i]? = some k ∧ b[j]? = some k := by
  rw [matchOf, List.getElem?_map, Option.map_eq_some_iff]
  constructor
  · rintro ⟨k, hk, hindex⟩
    exact ⟨k, (indexAt_eq_some_iff hnodup).mp hindex, hk⟩
  · rintro ⟨k, hi, hj⟩
    exact ⟨k, hj, (indexAt_eq_some_iff hnodup).mpr hi⟩

/-- Matches are below a bound, and two entries do not share one. -/
structure Matching (found : List (Option ℕ)) (oldLength : ℕ) : Prop where
  bound : ∀ j i : ℕ, found[j]? = some (some i) → i < oldLength
  injective : ∀ j j' i : ℕ, found[j]? = some (some i) → found[j']? = some (some i) → j = j'

theorem matchOf_matching {a b : List κ} (ha : a.Nodup) (hb : b.Nodup) :
    Matching (matchOf a b) a.length where
  bound := by
    intro j i h
    obtain ⟨k, hi, -⟩ := (matchOf_getElem?_iff ha).mp h
    exact (List.getElem?_eq_some_iff.mp hi).1
  injective := by
    intro j j' i h h'
    obtain ⟨k, hi, hj⟩ := (matchOf_getElem?_iff ha).mp h
    obtain ⟨k', hi', hj'⟩ := (matchOf_getElem?_iff ha).mp h'
    rw [hi] at hi'
    cases hi'
    exact (List.getElem?_inj (List.getElem?_eq_some_iff.mp hj).1 hb).mp (hj.trans hj'.symm)

end Align

/-! ## The stable positions -/

variable {found : List (Option ℕ)}

theorem mem_matchedPositions {j : ℕ} :
    j ∈ matchedPositions found ↔ ∃ i, found[j]? = some (some i) := by
  rw [matchedPositions, List.mem_filter, List.mem_range]
  constructor
  · rintro ⟨hj, hsome⟩
    rw [List.getElem?_eq_getElem hj, Option.join_some] at hsome
    obtain ⟨i, hi⟩ := Option.isSome_iff_exists.mp hsome
    exact ⟨i, by rw [List.getElem?_eq_getElem hj, hi]⟩
  · rintro ⟨i, hi⟩
    refine ⟨(List.getElem?_eq_some_iff.mp hi).1, ?_⟩
    rw [hi]
    rfl

theorem matchedPositions_sorted (found : List (Option ℕ)) :
    (matchedPositions found).Pairwise (· < ·) :=
  List.pairwise_lt_range.filter _

section Increasing

variable {js : List ℕ}

theorem getD_lt_getD (hjs : js.Pairwise (· < ·)) {n n' : ℕ} (hn : n < n') (hn' : n' < js.length) :
    js.getD n 0 < js.getD n' 0 := by
  rw [List.getD_eq_getElem _ _ (hn.trans hn'), List.getD_eq_getElem _ _ hn']
  exact List.pairwise_iff_getElem.mp hjs n n' _ _ hn

theorem getD_idxOf {j : ℕ} (hj : j ∈ js) : js.getD (js.idxOf j) 0 = j := by
  rw [List.getD_eq_getElem _ _ (List.idxOf_lt_length_of_mem hj), List.getElem_idxOf]

theorem idxOf_lt_idxOf (hjs : js.Pairwise (· < ·)) {j j' : ℕ} (hj : j ∈ js) (hj' : j' ∈ js)
    (hlt : j < j') : js.idxOf j < js.idxOf j' := by
  have hin := List.idxOf_lt_length_of_mem hj
  by_contra hnot
  cases (not_lt.mp hnot).lt_or_eq with
  | inl hbefore =>
      have hback := getD_lt_getD hjs hbefore hin
      rw [getD_idxOf hj, getD_idxOf hj'] at hback
      omega
  | inr hsame =>
      rw [← getD_idxOf hj, ← getD_idxOf hj', hsame] at hlt
      omega

/-- Of sorted positions those found have increasing values, and no increasing ones are
more. -/
theorem longestIncreasing_spec (hjs : js.Pairwise (· < ·)) (value : ℕ → ℕ) :
    (∀ j ∈ longestIncreasing js value, j ∈ js) ∧
      (longestIncreasing js value).Pairwise (fun j j' => j < j' ∧ value j < value j') ∧
      ∀ l : List ℕ, (∀ j ∈ l, j ∈ js) → l.Pairwise (fun j j' => j < j' ∧ value j < value j') →
        l.length ≤ (longestIncreasing js value).length := by
  obtain ⟨hincreasing, hbound, -⟩ :=
    longestPositions_spec (v := fun n => value (js.getD n 0)) js.length
  refine ⟨fun j hj => ?_, ?_, fun l hl hpairs => ?_⟩
  · obtain ⟨n, hn, rfl⟩ := List.mem_map.mp hj
    rw [List.getD_eq_getElem _ _ (hbound n hn)]
    exact List.getElem_mem _
  · unfold longestIncreasing
    rw [List.pairwise_map]
    refine hincreasing.imp_of_mem fun _ hn' hlt => ?_
    exact ⟨getD_lt_getD hjs hlt.1 (hbound _ hn'), hlt.2⟩
  · have hpositions : Increasing (fun n => value (js.getD n 0)) (l.map fun j => js.idxOf j) := by
      unfold Increasing
      rw [List.pairwise_map]
      refine hpairs.imp_of_mem fun hj hj' hlt => ?_
      dsimp only
      rw [getD_idxOf (hl _ hj), getD_idxOf (hl _ hj')]
      exact ⟨idxOf_lt_idxOf hjs (hl _ hj) (hl _ hj') hlt.1, hlt.2⟩
    have hle := longestPositions_longest hpositions (n := js.length) (by
      intro n hn
      obtain ⟨j, hj, rfl⟩ := List.mem_map.mp hn
      exact List.idxOf_lt_length_of_mem (hl j hj))
    rw [List.length_map] at hle
    unfold longestIncreasing
    rwa [List.length_map]

end Increasing

/-- The match of a position, as the number that the code compares. -/
def matchValue (found : List (Option ℕ)) (j : ℕ) : ℕ :=
  found[j]?.join.getD 0

theorem matchValue_eq {j i : ℕ} (h : found[j]? = some (some i)) : matchValue found j = i := by
  rw [matchValue, h]
  rfl

/-- The stable positions have matches, in common order, and no others in common order are
more. -/
theorem stablePositions_spec (found : List (Option ℕ)) :
    (∀ j ∈ stablePositions found, ∃ i, found[j]? = some (some i)) ∧
      (stablePositions found).Pairwise
        (fun j j' => j < j' ∧ matchValue found j < matchValue found j') ∧
      ∀ l : List ℕ, (∀ j ∈ l, ∃ i, found[j]? = some (some i)) →
        l.Pairwise (fun j j' => j < j' ∧ matchValue found j < matchValue found j') →
        l.length ≤ (stablePositions found).length := by
  obtain ⟨hmem, hpairs, hlongest⟩ :=
    longestIncreasing_spec (matchedPositions_sorted found) (matchValue found)
  refine ⟨fun j hj => mem_matchedPositions.mp (hmem j hj), hpairs, fun l hl => ?_⟩
  exact hlongest l fun j hj => mem_matchedPositions.mpr (hl j hj)

/-! ## What is listed -/

section Listing

variable (stable matchedOld : List ℕ) (oldLength : ℕ)

theorem flush_new (i stop : ℕ) : (flush matchedOld i stop).filterMap Pair.new = [] := by
  rw [flush, List.filterMap_map]
  exact List.filterMap_eq_nil_iff.mpr fun _ _ => rfl

theorem flush_old (i stop : ℕ) : (flush matchedOld i stop).filterMap Pair.old
    = (List.range' i (stop - i)).filter fun x => x ∉ matchedOld := by
  rw [flush, List.filterMap_map]
  exact List.filterMap_some

theorem alignFrom_new (i j : ℕ) (found : List (Option ℕ)) :
    (alignFrom stable matchedOld oldLength i j found).filterMap Pair.new
      = List.range' j found.length := by
  induction found generalizing i j with
  | nil => exact flush_new matchedOld i oldLength
  | cons m found ih =>
      rw [List.length_cons, List.range'_succ]
      cases m with
      | none =>
          rw [alignFrom, List.filterMap_cons, ih]
          rfl
      | some m =>
          rw [alignFrom]
          split
          · rw [List.filterMap_append, flush_new, List.nil_append, List.filterMap_cons, ih]
          · rw [List.filterMap_cons, ih]

/-- The pairs with both sides, in order. -/
def matchedPairs : ℕ → List (Option ℕ) → List Pair
  | _, [] => []
  | j, none :: found => matchedPairs (j + 1) found
  | j, some m :: found => ⟨some m, some j, j ∉ stable⟩ :: matchedPairs (j + 1) found

theorem alignFrom_matches (i j : ℕ) (found : List (Option ℕ)) :
    (alignFrom stable matchedOld oldLength i j found).filter Pair.isMatch
      = matchedPairs stable j found := by
  have hflush : ∀ i stop, (flush matchedOld i stop).filter Pair.isMatch = [] := by
    intro i stop
    rw [flush, List.filter_map]
    simp [Pair.isMatch, Pair.removed]
  induction found generalizing i j with
  | nil => exact hflush i oldLength
  | cons m found ih =>
      cases m with
      | none =>
          rw [alignFrom, List.filter_cons_of_neg (by simp [Pair.isMatch, Pair.added]), ih]
          rfl
      | some m =>
          rw [alignFrom, matchedPairs]
          split
          case isTrue hstable =>
              rw [List.filter_append, hflush, List.nil_append,
                List.filter_cons_of_pos (by simp [Pair.isMatch]), ih]
              simp [hstable]
          case isFalse hmoved =>
              rw [List.filter_cons_of_pos (by simp [Pair.isMatch]), ih]
              simp [hmoved]

end Listing

/-! ## The old entries -/

section Conserved

/-- Stable matches from `j` on come in order and not before `i`; every match is below the
bound and counts as matched. -/
structure Ordered (stable matchedOld : List ℕ) (oldLength i j : ℕ) (found : List (Option ℕ)) :
    Prop where
  bound : ∀ m, some m ∈ found → m < oldLength ∧ m ∈ matchedOld
  from_start : ∀ t m : ℕ, found[t]? = some (some m) → j + t ∈ stable → i ≤ m
  increasing : ∀ t t' m m' : ℕ, t < t' → found[t]? = some (some m) →
    found[t']? = some (some m') → j + t ∈ stable → j + t' ∈ stable → m < m'

variable {stable matchedOld : List ℕ} {oldLength i j : ℕ} {found : List (Option ℕ)}

theorem Ordered.tail {m : Option ℕ} (i' : ℕ)
    (h : Ordered stable matchedOld oldLength i j (m :: found))
    (hstart : ∀ t k : ℕ, found[t]? = some (some k) → j + (t + 1) ∈ stable → i' ≤ k) :
    Ordered stable matchedOld oldLength i' (j + 1) found where
  bound := fun k hk => h.bound k (List.mem_cons_of_mem m hk)
  from_start := by
    intro t k hk hstable
    rw [Nat.add_assoc, Nat.add_comm 1 t] at hstable
    exact hstart t k hk hstable
  increasing := by
    intro t t' k k' hlt hk hk' hstable hstable'
    rw [Nat.add_assoc, Nat.add_comm 1 _] at hstable hstable'
    exact h.increasing (t + 1) (t' + 1) k k' (by omega) hk hk' hstable hstable'

theorem unmatched_split {m : ℕ} (hi : i ≤ m) (hm : m < oldLength) (hmem : m ∈ matchedOld) :
    (List.range' i (oldLength - i)).filter (fun x => x ∉ matchedOld)
      = (List.range' i (m - i)).filter (fun x => x ∉ matchedOld) ++
        (List.range' (m + 1) (oldLength - (m + 1))).filter (fun x => x ∉ matchedOld) := by
  have hsplit : List.range' i (oldLength - i)
      = List.range' i (m - i) ++ m :: List.range' (m + 1) (oldLength - (m + 1)) := by
    have hlen : oldLength - i = (m - i) + (oldLength - (m + 1) + 1) := by omega
    rw [hlen, ← List.range'_append_1, List.range'_succ]
    have hmid : i + (m - i) = m := by omega
    rw [hmid]
  rw [hsplit, List.filter_append, List.filter_cons_of_neg (by simp [hmem])]

theorem alignFrom_old (h : Ordered stable matchedOld oldLength i j found) :
    ((alignFrom stable matchedOld oldLength i j found).filterMap Pair.old).Perm
      ((List.range' i (oldLength - i)).filter (fun x => x ∉ matchedOld) ++ found.filterMap id) := by
  induction found generalizing i j with
  | nil =>
      rw [alignFrom, flush_old, List.filterMap_nil, List.append_nil]
  | cons m found ih =>
      cases m with
      | none =>
          have hrest := ih (h.tail i fun t k hk hstable => h.from_start (t + 1) k hk hstable)
          exact hrest
      | some m =>
          rw [alignFrom]
          split
          case isTrue hstable =>
              have hfirst := h.bound m List.mem_cons_self
              have hi : i ≤ m := h.from_start 0 m rfl hstable
              have hrest := ih (h.tail (m + 1) fun t k hk hstable' =>
                h.increasing 0 (t + 1) m k (by omega) rfl hk hstable hstable')
              rw [List.filterMap_append, flush_old, unmatched_split hi hfirst.1 hfirst.2,
                List.append_assoc]
              refine List.Perm.append_left _ ?_
              exact (hrest.cons m).trans List.perm_middle.symm
          case isFalse =>
              have hrest := ih (h.tail i fun t k hk hstable => h.from_start (t + 1) k hk hstable)
              exact (hrest.cons m).trans List.perm_middle.symm

end Conserved

/-! ## The whole alignment -/

/-- Entries that come one after the other on both sides. -/
def Pair.Before (p q : Pair) : Prop :=
  ∀ i i' j j', p.old = some i → q.old = some i' → p.new = some j → q.new = some j' →
    i < i' ∧ j < j'

/-- The pairs with both sides that are not marked as moved. -/
def keptPairs (pairs : List Pair) : List Pair :=
  (pairs.filter Pair.isMatch).filter fun p => !p.moved

/-- What it means to have aligned two lists of keys. -/
structure Aligned {κ : Type} (a b : List κ) (pairs : List Pair) : Prop where
  old_once : (pairs.filterMap Pair.old).Perm (List.range a.length)
  new_once : (pairs.filterMap Pair.new).Perm (List.range b.length)
  match_iff : ∀ i j, (∃ p ∈ pairs, p.old = some i ∧ p.new = some j) ↔
    ∃ k, a[i]? = some k ∧ b[j]? = some k
  kept_ordered : (keptPairs pairs).Pairwise Pair.Before
  kept_longest : ∀ l : List (ℕ × ℕ),
    (∀ x ∈ l, ∃ p ∈ pairs, p.old = some x.1 ∧ p.new = some x.2) →
    l.Pairwise (fun x y => x.1 < y.1 ∧ x.2 < y.2) → l.length ≤ (keptPairs pairs).length

theorem mem_matchedPairs {stable : List ℕ} {j : ℕ} {p : Pair} :
    p ∈ matchedPairs stable j found ↔
      ∃ t m : ℕ, found[t]? = some (some m) ∧ p = ⟨some m, some (j + t), j + t ∉ stable⟩ := by
  induction found generalizing j with
  | nil => simp [matchedPairs]
  | cons m found ih =>
      have hshift : ∀ t : ℕ, j + 1 + t = j + (t + 1) := fun t => by omega
      cases m with
      | none =>
          rw [matchedPairs, ih]
          constructor
          · rintro ⟨t, m, hm, hp⟩
            rw [hshift] at hp
            exact ⟨t + 1, m, hm, hp⟩
          · rintro ⟨t, m, hm, hp⟩
            cases t with
            | zero => cases hm
            | succ t =>
                rw [← hshift] at hp
                exact ⟨t, m, hm, hp⟩
      | some m =>
          rw [matchedPairs, List.mem_cons, ih]
          constructor
          · rintro (hp | ⟨t, k, hk, hp⟩)
            · exact ⟨0, m, rfl, hp⟩
            · rw [hshift] at hp
              exact ⟨t + 1, k, hk, hp⟩
          · rintro ⟨t, k, hk, hp⟩
            cases t with
            | zero =>
                cases hk
                exact Or.inl hp
            | succ t =>
                rw [← hshift] at hp
                exact Or.inr ⟨t, k, hk, hp⟩

theorem matchedPairs_ordered (stable : List ℕ) (j : ℕ) (found : List (Option ℕ)) :
    (matchedPairs stable j found).Pairwise fun p q =>
      ∀ y y', p.new = some y → q.new = some y' → y < y' := by
  induction found generalizing j with
  | nil => exact List.Pairwise.nil
  | cons m found ih =>
      cases m with
      | none => exact ih (j + 1)
      | some m =>
          refine List.pairwise_cons.mpr ⟨fun q hq y y' hy hy' => ?_, ih (j + 1)⟩
          obtain ⟨t, k, -, rfl⟩ := mem_matchedPairs.mp hq
          cases hy
          cases hy'
          omega

theorem rel_of_pairwise {R : ℕ → ℕ → Prop} {l : List ℕ}
    (h : l.Pairwise fun j j' => j < j' ∧ R j j') {t t' : ℕ} (ht : t ∈ l) (ht' : t' ∈ l)
    (hlt : t < t') : R t t' := by
  obtain ⟨n, hn, rfl⟩ := List.getElem_of_mem ht
  obtain ⟨n', hn', rfl⟩ := List.getElem_of_mem ht'
  have hall := List.pairwise_iff_getElem.mp h
  cases lt_trichotomy n n' with
  | inl hbefore => exact (hall n n' hn hn' hbefore).2
  | inr hrest =>
      cases hrest with
      | inl hsame =>
          subst hsame
          exact absurd hlt (lt_irrefl _)
      | inr hafter => exact absurd (hall n' n hn' hn hafter).1 (not_lt.mpr hlt.le)

section Whole

variable {κ : Type} [DecidableEq κ] {a b : List κ}

theorem Matching.old_perm {found : List (Option ℕ)} {oldLength : ℕ}
    (h : Matching found oldLength) :
    ((List.range' 0 (oldLength - 0)).filter (fun x => x ∉ found.filterMap id) ++
      found.filterMap id).Perm (List.range oldLength) := by
  have hmem : ∀ i, i ∈ found.filterMap id → i < oldLength := by
    intro i hi
    obtain ⟨m, hm, hsome⟩ := List.mem_filterMap.mp hi
    obtain ⟨t, ht⟩ := List.mem_iff_getElem?.mp hm
    rw [show m = some i from hsome] at ht
    exact h.bound t i ht
  have hnodup : (found.filterMap id).Nodup := by
    rw [List.Nodup, List.pairwise_filterMap, List.pairwise_iff_getElem]
    intro t t' ht ht' hlt i hi i' hi' heq
    have hget : found[t]? = some (some i) := by
      rw [List.getElem?_eq_getElem ht]
      exact congrArg some hi
    have hget' : found[t']? = some (some i) := by
      rw [List.getElem?_eq_getElem ht', heq]
      exact congrArg some hi'
    exact absurd (h.injective t t' i hget hget') (by omega)
  have hmatched : (found.filterMap id).Perm
      ((List.range oldLength).filter fun x => x ∈ found.filterMap id) := by
    refine (List.perm_ext_iff_of_nodup hnodup (List.nodup_range.filter _)).mpr fun i => ?_
    rw [List.mem_filter, List.mem_range, decide_eq_true_eq]
    exact ⟨fun hi => ⟨hmem i hi, hi⟩, And.right⟩
  rw [Nat.sub_zero, ← List.range_eq_range']
  refine (hmatched.append_left _).trans ?_
  refine List.perm_append_comm.trans ?_
  have hsplit := List.filter_append_perm (fun x => decide (x ∈ found.filterMap id))
    (List.range oldLength)
  simpa using hsplit

theorem exists_pair_iff {pairs : List Pair} {stable : List ℕ} {found : List (Option ℕ)}
    (hmatches : pairs.filter Pair.isMatch = matchedPairs stable 0 found) (i j : ℕ) :
    (∃ p ∈ pairs, p.old = some i ∧ p.new = some j) ↔ found[j]? = some (some i) := by
  constructor
  · rintro ⟨p, hp, hold, hnew⟩
    have hmem : p ∈ pairs.filter Pair.isMatch := by
      rw [List.mem_filter, Pair.isMatch, hold, hnew]
      exact ⟨hp, rfl⟩
    rw [hmatches] at hmem
    obtain ⟨t, m, hm, rfl⟩ := mem_matchedPairs.mp hmem
    cases hold
    cases hnew
    rwa [Nat.zero_add]
  · intro hfound
    have hmem : (⟨some i, some (0 + j), 0 + j ∉ stable⟩ : Pair) ∈ pairs.filter Pair.isMatch := by
      rw [hmatches]
      exact mem_matchedPairs.mpr ⟨j, i, hfound, rfl⟩
    refine ⟨_, (List.mem_filter.mp hmem).1, rfl, ?_⟩
    rw [Nat.zero_add]

theorem alignUnique_aligned (ha : a.Nodup) (hb : b.Nodup) : Aligned a b (alignUnique a b) := by
  have hmatching := matchOf_matching ha hb
  obtain ⟨hstable, hpairs, hlongest⟩ := stablePositions_spec (matchOf a b)
  have hmatches : (alignUnique a b).filter Pair.isMatch
      = matchedPairs (stablePositions (matchOf a b)) 0 (matchOf a b) :=
    alignFrom_matches _ _ _ _ _ _
  have hordered : Ordered (stablePositions (matchOf a b)) ((matchOf a b).filterMap id) a.length
      0 0 (matchOf a b) :=
    { bound := by
        intro m hm
        obtain ⟨t, ht⟩ := List.mem_iff_getElem?.mp hm
        exact ⟨hmatching.bound t m ht, List.mem_filterMap.mpr ⟨some m, hm, rfl⟩⟩
      from_start := fun _ _ _ _ => Nat.zero_le _
      increasing := by
        intro t t' m m' hlt hm hm' ht ht'
        rw [Nat.zero_add] at ht ht'
        have hvalues := rel_of_pairwise hpairs ht ht' hlt
        rwa [matchValue_eq hm, matchValue_eq hm'] at hvalues }
  exact
    { old_once := (alignFrom_old hordered).trans hmatching.old_perm
      new_once := by
        have hnew : (alignUnique a b).filterMap Pair.new = List.range' 0 (matchOf a b).length :=
          alignFrom_new _ _ _ _ _ _
        rw [hnew, matchOf, List.length_map, List.range_eq_range']
      match_iff := fun i j => (exists_pair_iff hmatches i j).trans (matchOf_getElem?_iff ha)
      kept_ordered := by
        unfold keptPairs
        rw [hmatches]
        refine ((matchedPairs_ordered _ _ _).filter _).imp_of_mem ?_
        intro p q hp hq hbefore i i' j j' hi hi' hj hj'
        have hlt := hbefore j j' hj hj'
        obtain ⟨hpm, hpk⟩ := List.mem_filter.mp hp
        obtain ⟨hqm, hqk⟩ := List.mem_filter.mp hq
        obtain ⟨t, m, hm, rfl⟩ := mem_matchedPairs.mp hpm
        obtain ⟨t', m', hm', rfl⟩ := mem_matchedPairs.mp hqm
        cases hi
        cases hi'
        cases hj
        cases hj'
        rw [Nat.zero_add] at hpk hqk hlt
        have ht : t ∈ stablePositions (matchOf a b) := by simpa using hpk
        have ht' : t' ∈ stablePositions (matchOf a b) := by simpa using hqk
        have hvalues := rel_of_pairwise hpairs ht ht' (by omega)
        rw [matchValue_eq hm, matchValue_eq hm'] at hvalues
        exact ⟨hvalues, by omega⟩
      kept_longest := by
        intro l hl hinorder
        have hfound : ∀ x ∈ l, (matchOf a b)[x.2]? = some (some x.1) :=
          fun x hx => (exists_pair_iff hmatches x.1 x.2).mp (hl x hx)
        have hstableLength := hlongest (l.map Prod.snd) (by
          intro j hj
          obtain ⟨x, hx, rfl⟩ := List.mem_map.mp hj
          exact ⟨x.1, hfound x hx⟩) (by
          rw [List.pairwise_map]
          refine hinorder.imp_of_mem fun hx hy hlt => ⟨hlt.2, ?_⟩
          rw [matchValue_eq (hfound _ hx), matchValue_eq (hfound _ hy)]
          exact hlt.1)
        -- every stable position has its kept pair
        have hsub : stablePositions (matchOf a b) ⊆
            (keptPairs (alignUnique a b)).filterMap Pair.new := by
          intro j hj
          obtain ⟨m, hm⟩ := hstable j hj
          refine List.mem_filterMap.mpr ⟨⟨some m, some (0 + j), false⟩, ?_, ?_⟩
          · unfold keptPairs
            rw [hmatches]
            refine List.mem_filter.mpr ⟨mem_matchedPairs.mpr ⟨j, m, hm, ?_⟩, rfl⟩
            simp [hj]
          · rw [Nat.zero_add]
        have hnodup : (stablePositions (matchOf a b)).Nodup :=
          hpairs.imp fun hlt => hlt.1.ne
        rw [List.length_map] at hstableLength
        exact hstableLength.trans ((List.subperm_of_subset hnodup hsub).length_le.trans
          (List.length_filterMap_le _ _)) }

end Whole

end Preview

end Nipa
