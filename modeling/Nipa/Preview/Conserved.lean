import Mathlib.Algebra.Ring.Nat
import Nipa.Preview.Columns

/-!
# A table diff conserves rows

Every data row of either table is in one row of the diff, which shows its cells, the status of
a row says how its cells compare, the counters count the rows, and rows matched by key are
paired and ordered as their keys are.
-/

namespace Nipa

open Support

namespace Preview

/-! ## Pairing what is left over -/

theorem removed_old (l : List ℕ) : (l.map Pair.removed).filterMap Pair.old = l := by
  rw [List.filterMap_map]
  exact List.filterMap_some

theorem removed_new (l : List ℕ) : (l.map Pair.removed).filterMap Pair.new = [] := by
  rw [List.filterMap_map]
  exact List.filterMap_eq_nil_iff.mpr fun _ _ => rfl

theorem added_old (l : List ℕ) : (l.map Pair.added).filterMap Pair.old = [] := by
  rw [List.filterMap_map]
  exact List.filterMap_eq_nil_iff.mpr fun _ _ => rfl

theorem added_new (l : List ℕ) : (l.map Pair.added).filterMap Pair.new = l := by
  rw [List.filterMap_map]
  exact List.filterMap_some

section PairChanged

variable (alike : ℕ → ℕ → Bool)

theorem findIdx?_take_lt {α : Type} {q : α → Bool} {l : List α} {n x : ℕ}
    (h : (l.take n).findIdx? q = some x) : x < l.length := by
  have hlt := (List.findIdx?_eq_some_iff_findIdx_eq.mp h).1
  rw [List.length_take] at hlt
  omega

theorem pairRun_old (removed added rest : List ℕ) :
    (pairRun alike removed added rest).filterMap Pair.old = removed := by
  induction added generalizing removed rest with
  | nil => rw [pairRun, List.filterMap_append, removed_old, added_old, List.append_nil]
  | cons j added ih =>
      rw [pairRun]
      split
      case h_1 => exact ih removed _
      case h_2 x hfound =>
          have hx := findIdx?_take_lt hfound
          rw [List.filterMap_append, removed_old, List.getElem?_eq_getElem hx]
          change removed.take x ++ removed[x] :: (pairRun _ _ _ _).filterMap Pair.old = removed
          rw [ih, ← List.drop_eq_getElem_cons hx, List.take_append_drop]

theorem pairRun_new (removed added rest : List ℕ) :
    ((pairRun alike removed added rest).filterMap Pair.new).Perm (rest ++ added) := by
  induction added generalizing removed rest with
  | nil =>
      rw [pairRun, List.filterMap_append, removed_new, added_new, List.nil_append,
        List.append_nil]
  | cons j added ih =>
      rw [pairRun]
      split
      case h_1 =>
          refine (ih removed (rest ++ [j])).trans ?_
          rw [List.append_assoc, List.singleton_append]
      case h_2 x _ =>
          rw [List.filterMap_append, removed_new, List.nil_append]
          exact ((ih _ rest).cons j).trans List.perm_middle.symm

theorem run_old (run : List Pair) (hrun : ∀ q ∈ run, q.isMatch = false) :
    (run.filter fun q => q.new.isNone).filterMap Pair.old = run.filterMap Pair.old := by
  rw [List.filterMap_filter]
  apply List.filterMap_congr
  intro q hq
  have hnot := hrun q hq
  cases hnew : q.new with
  | none => simp
  | some j =>
      cases hold : q.old with
      | none => simp
      | some i => simp [Pair.isMatch, hold, hnew] at hnot

theorem takeWhile_not_match (pairs : List Pair) :
    ∀ q ∈ pairs.takeWhile (fun q => !q.isMatch), q.isMatch = false := by
  intro q hq
  have htrue := List.mem_takeWhile_imp hq
  simpa using htrue

theorem pairChanged_perm (pairs : List Pair) :
    ((pairChanged alike pairs).filterMap Pair.old).Perm (pairs.filterMap Pair.old) ∧
      ((pairChanged alike pairs).filterMap Pair.new).Perm (pairs.filterMap Pair.new) := by
  fun_induction pairChanged alike pairs with
  | case1 => exact ⟨List.Perm.refl _, List.Perm.refl _⟩
  | case2 p pairs hmatch ih =>
      rw [List.filterMap_cons, List.filterMap_cons, List.filterMap_cons, List.filterMap_cons]
      constructor
      · cases p.old with
        | none => exact ih.1
        | some i => exact ih.1.cons i
      · cases p.new with
        | none => exact ih.2
        | some j => exact ih.2.cons j
  | case3 p pairs hnot run ih =>
      have hsplit : p :: pairs = run ++ pairs.dropWhile fun q => !q.isMatch := by
        have hdrop : (p :: pairs).dropWhile (fun q => !q.isMatch)
            = pairs.dropWhile fun q => !q.isMatch :=
          List.dropWhile_cons_of_pos (by simpa using hnot)
        rw [← hdrop]
        exact List.takeWhile_append_dropWhile.symm
      rw [hsplit, List.filterMap_append, List.filterMap_append, List.filterMap_append,
        List.filterMap_append, pairRun_old, run_old run (takeWhile_not_match _)]
      exact ⟨ih.1.append_left _, (pairRun_new alike _ _ []).append ih.2⟩

end PairChanged

/-! ## Every pair still has a side -/

theorem pairRun_hasSide (alike : ℕ → ℕ → Bool) (removed added rest : List ℕ) :
    ∀ p ∈ pairRun alike removed added rest, p.HasSide := by
  induction added generalizing removed rest with
  | nil =>
      intro p hp
      rw [pairRun, List.mem_append] at hp
      cases hp with
      | inl hremoved => exact removed_hasSide _ p hremoved
      | inr hadded =>
          obtain ⟨j, -, rfl⟩ := List.mem_map.mp hadded
          exact Or.inr (Option.some_ne_none j)
  | cons j added ih =>
      intro p hp
      rw [pairRun] at hp
      split at hp
      case h_1 => exact ih _ _ p hp
      case h_2 =>
          rw [List.mem_append, List.mem_cons] at hp
          rcases hp with hremoved | hpair | hlater
          · exact removed_hasSide _ p hremoved
          · rw [hpair]
            exact Or.inr (Option.some_ne_none j)
          · exact ih _ _ p hlater

theorem pairChanged_hasSide (alike : ℕ → ℕ → Bool) (pairs : List Pair) :
    ∀ p ∈ pairChanged alike pairs, p.HasSide := by
  fun_induction pairChanged alike pairs with
  | case1 => exact fun _ hp => absurd hp List.not_mem_nil
  | case2 q pairs hmatch ih =>
      intro p hp
      cases List.mem_cons.mp hp with
      | inl hsame =>
          rw [hsame]
          rw [Pair.isMatch, Bool.and_eq_true, Option.isSome_iff_ne_none] at hmatch
          exact Or.inl hmatch.1
      | inr hlater => exact ih p hlater
  | case3 q pairs hnot run ih =>
      intro p hp
      cases List.mem_append.mp hp with
      | inl hrun => exact pairRun_hasSide alike _ _ _ p hrun
      | inr hlater => exact ih p hlater

/-! ## Keys -/

theorem nul_notMem_toString (n : ℕ) : nul ∉ (toString n).toList := by
  intro hmem
  change nul ∈ n.repr.toList at hmem
  rw [Nat.toList_repr] at hmem
  have hdigit : nul.isDigit = true := Nat.isDigit_of_mem_toDigits (by decide) (by decide) hmem
  exact absurd hdigit (by decide)

theorem numbered_injective {k k' : Str} {n n' : ℕ}
    (h : k ++ nul :: (toString n).toList = k' ++ nul :: (toString n').toList) :
    k = k' ∧ n = n' := by
  have hkey := congrArg (beforeLast nul) h
  have hnumber := congrArg (afterLast nul) h
  rw [beforeLast_append_cons (nul_notMem_toString n),
    beforeLast_append_cons (nul_notMem_toString n')] at hkey
  rw [afterLast_append_cons (nul_notMem_toString n),
    afterLast_append_cons (nul_notMem_toString n')] at hnumber
  change n.repr.toList = n'.repr.toList at hnumber
  rw [Nat.toList_repr, Nat.toList_repr] at hnumber
  have hvalue := congrArg (fun digits => Nat.ofDigitChars 10 digits 0) hnumber
  rw [Nat.ofDigitChars_ten_toDigits, Nat.ofDigitChars_ten_toDigits] at hvalue
  exact ⟨hkey, hvalue⟩

theorem occurrencesFrom_nodup (seen keys : List Str) :
    (occurrencesFrom seen keys).Nodup ∧
      ∀ k n, n < seen.count k → k ++ nul :: (toString n).toList ∉ occurrencesFrom seen keys := by
  induction keys generalizing seen with
  | nil => exact ⟨List.nodup_nil, fun _ _ _ => List.not_mem_nil⟩
  | cons k keys ih =>
      obtain ⟨hnodup, hfresh⟩ := ih (k :: seen)
      rw [occurrencesFrom]
      constructor
      · refine List.nodup_cons.mpr ⟨hfresh k (seen.count k) ?_, hnodup⟩
        rw [List.count_cons_self]
        exact Nat.lt_succ_self _
      · intro k' n hn hmem
        cases List.mem_cons.mp hmem with
        | inl hsame =>
            obtain ⟨rfl, rfl⟩ := numbered_injective hsame
            exact absurd hn (lt_irrefl _)
        | inr hlater =>
            refine hfresh k' n (hn.trans_le ?_) hlater
            rw [List.count_cons]
            exact Nat.le_add_right _ _

theorem occurrences_nodup (keys : List Str) : (occurrences keys).Nodup :=
  (occurrencesFrom_nodup [] keys).1

theorem occurrences_length (keys : List Str) : (occurrences keys).length = keys.length := by
  have hfrom : ∀ seen, (occurrencesFrom seen keys).length = keys.length := by
    induction keys with
    | nil => exact fun _ => rfl
    | cons k keys ih => exact fun seen => congrArg (· + 1) (ih (k :: seen))
  exact hfrom []

theorem project_length (rows : List (List Str)) (sides : List (Option ℕ)) :
    (project rows sides).length = rows.length :=
  List.length_map _

theorem project_singleton (rows : List (List Str)) (side : Option ℕ) :
    project rows [side] = rows.map fun row => cell row side :=
  List.map_congr_left fun _ _ => joinWith_singleton separator _

/-! ## Aligned rows -/

section Rows

variable (columns : List TableColumn) (oldRows newRows : List (List Str))

theorem mem_commonColumns {columns : List TableColumn} {k : ℕ} :
    k ∈ commonColumns columns ↔
      ∃ c x y, columns[k]? = some c ∧ c.old = some x ∧ c.new = some y := by
  rw [commonColumns, List.mem_filter, List.mem_range]
  constructor
  · rintro ⟨hk, hboth⟩
    rw [List.getElem?_eq_getElem hk, Option.any_some, Bool.and_eq_true] at hboth
    obtain ⟨x, hx⟩ := Option.isSome_iff_exists.mp hboth.1
    obtain ⟨y, hy⟩ := Option.isSome_iff_exists.mp hboth.2
    exact ⟨columns[k], x, y, List.getElem?_eq_getElem hk, hx, hy⟩
  · rintro ⟨c, x, y, hc, hx, hy⟩
    refine ⟨(List.getElem?_eq_some_iff.mp hc).1, ?_⟩
    rw [hc, Option.any_some, hx, hy]
    rfl

/-- Rows are matched by the first column that both tables have, when its values tell the
rows of either table apart. -/
def KeyedBy (k : ℕ) : Prop :=
  ∃ c x y, columns[k]? = some c ∧ c.old = some x ∧ c.new = some y ∧
    (∀ k' < k, ∀ c', columns[k']? = some c' → c'.old = none ∨ c'.new = none) ∧
    Telling (oldRows.map fun row => cell row (some x)) ∧
    Telling (newRows.map fun row => cell row (some y))

theorem commonColumns_head_iff {columns : List TableColumn} {k : ℕ} :
    (commonColumns columns).head? = some k ↔
      k ∈ commonColumns columns ∧
        ∀ k' < k, ∀ c', columns[k']? = some c' → c'.old = none ∨ c'.new = none := by
  have hnot : ∀ k' : ℕ, (!columns[k']?.any fun c => c.old.isSome && c.new.isSome) = true ↔
      ∀ c', columns[k']? = some c' → c'.old = none ∨ c'.new = none := by
    intro k'
    cases columns[k']? with
    | none => simp
    | some c => simp
  rw [commonColumns, List.head?_filter, List.find?_range_eq_some, List.mem_filter]
  simp only [hnot]
  rw [and_left_comm, and_assoc]

theorem alignRows_cases :
    (∃ k c x y, (alignRows columns oldRows newRows).1 = some k ∧
      KeyedBy columns oldRows newRows k ∧ columns[k]? = some c ∧
      c.old = some x ∧ c.new = some y ∧
      Aligned (oldRows.map fun row => cell row (some x)) (newRows.map fun row => cell row (some y))
        (alignRows columns oldRows newRows).2) ∨
    (alignRows columns oldRows newRows).1 = none ∧
      (∀ k, ¬ KeyedBy columns oldRows newRows k) ∧
      ((alignRows columns oldRows newRows).2.filterMap Pair.old).Perm
        (List.range oldRows.length) ∧
      ((alignRows columns oldRows newRows).2.filterMap Pair.new).Perm
        (List.range newRows.length) := by
  unfold alignRows
  dsimp only
  split
  case isTrue hkeyed =>
      left
      simp only [Bool.and_eq_true, Bool.not_eq_true', uniqueNonEmpty_iff] at hkeyed
      obtain ⟨⟨hcommon, hold⟩, hnew⟩ := hkeyed
      cases hlist : commonColumns columns with
      | nil =>
          rw [hlist] at hcommon
          cases hcommon
      | cons k common =>
          obtain ⟨hmem, hfirst⟩ := commonColumns_head_iff.mp (congrArg List.head? hlist)
          obtain ⟨c, x, y, hc, hx, hy⟩ := mem_commonColumns.mp hmem
          rw [hlist, List.filterMap_cons, hc] at hold hnew
          rw [List.filterMap_cons, hc]
          change Telling (project oldRows [c.old]) at hold
          change Telling (project newRows [c.new]) at hnew
          change ∃ k' c' x' y', some k = some k' ∧ _ ∧ _ ∧ _ ∧ _ ∧
            Aligned _ _ (alignUnique (project oldRows [c.old]) (project newRows [c.new]))
          rw [project_singleton, hx] at hold ⊢
          rw [project_singleton, hy] at hnew ⊢
          exact ⟨k, c, x, y, rfl, ⟨c, x, y, hc, hx, hy, hfirst, hold, hnew⟩, hc, hx, hy,
            alignUnique_aligned hold.1 hnew.1⟩
  case isFalse hcontent =>
      right
      refine ⟨rfl, ?_, ?_⟩
      · rintro k ⟨c, x, y, hc, hx, hy, hfirst, hold, hnew⟩
        have hmem : k ∈ commonColumns columns := mem_commonColumns.mpr ⟨c, x, y, hc, hx, hy⟩
        obtain ⟨common, hlist⟩ :=
          List.head?_eq_some_iff.mp (commonColumns_head_iff.mpr ⟨hmem, hfirst⟩)
        apply hcontent
        simp only [Bool.and_eq_true, Bool.not_eq_true', uniqueNonEmpty_iff]
        rw [hlist, List.filterMap_cons, hc]
        change (_ ∧ Telling (project oldRows [c.old])) ∧ Telling (project newRows [c.new])
        rw [project_singleton, project_singleton, hx, hy]
        exact ⟨⟨rfl, hold⟩, hnew⟩
      generalize (commonColumns columns).filterMap (fun i => columns[i]?) = shared
      have haligned := alignUnique_aligned
        (occurrences_nodup (project oldRows (shared.map TableColumn.old)))
        (occurrences_nodup (project newRows (shared.map TableColumn.new)))
      have hold := haligned.old_once
      have hnew := haligned.new_once
      rw [occurrences_length, project_length] at hold hnew
      have hkept := pairChanged_perm
        (fun i j => similar (oldRows.getD i []) (newRows.getD j []) shared)
        (alignUnique (occurrences (project oldRows (shared.map TableColumn.old)))
          (occurrences (project newRows (shared.map TableColumn.new))))
      exact ⟨hkept.1.trans hold, hkept.2.trans hnew⟩

theorem alignRows_once :
    ((alignRows columns oldRows newRows).2.filterMap Pair.old).Perm (List.range oldRows.length) ∧
      ((alignRows columns oldRows newRows).2.filterMap Pair.new).Perm
        (List.range newRows.length) := by
  cases alignRows_cases columns oldRows newRows with
  | inl hkeyed =>
      obtain ⟨k, c, x, y, -, -, -, -, -, haligned⟩ := hkeyed
      have hold := haligned.old_once
      have hnew := haligned.new_once
      rw [List.length_map] at hold hnew
      exact ⟨hold, hnew⟩
  | inr hcontent => exact hcontent.2.2

theorem alignRows_keyed {k : ℕ} (hk : (alignRows columns oldRows newRows).1 = some k) :
    ∃ c x y, columns[k]? = some c ∧ c.old = some x ∧ c.new = some y ∧
      Aligned (oldRows.map fun row => cell row (some x)) (newRows.map fun row => cell row (some y))
        (alignRows columns oldRows newRows).2 := by
  cases alignRows_cases columns oldRows newRows with
  | inl hkeyed =>
      obtain ⟨k', c, x, y, hk', -, hc, hx, hy, haligned⟩ := hkeyed
      cases hk.symm.trans hk'
      exact ⟨c, x, y, hc, hx, hy, haligned⟩
  | inr hcontent =>
      rw [hcontent.1] at hk
      cases hk

theorem alignRows_key_iff (k : ℕ) :
    (alignRows columns oldRows newRows).1 = some k ↔ KeyedBy columns oldRows newRows k := by
  cases alignRows_cases columns oldRows newRows with
  | inl hkeyed =>
      obtain ⟨k', -, -, -, hk', hby, -⟩ := hkeyed
      rw [hk', Option.some.injEq]
      constructor
      · rintro rfl
        exact hby
      · intro hby'
        -- there is one first column only
        obtain ⟨c, x, y, hc, hx, hy, hfirst, -, -⟩ := hby
        obtain ⟨c', x', y', hc', hx', hy', hfirst', -, -⟩ := hby'
        rcases lt_trichotomy k' k with hlt | heq | hlt
        · rcases hfirst' k' hlt c hc with hnone | hnone
          · cases hx.symm.trans hnone
          · cases hy.symm.trans hnone
        · exact heq
        · rcases hfirst k hlt c' hc' with hnone | hnone
          · cases hx'.symm.trans hnone
          · cases hy'.symm.trans hnone
  | inr hcontent =>
      rw [hcontent.1]
      exact iff_of_false (by simp) (hcontent.2.1 k)

theorem alignRows_hasSide : ∀ p ∈ (alignRows columns oldRows newRows).2, p.HasSide := by
  unfold alignRows
  dsimp only
  split
  case isTrue => exact alignFrom_hasSide _ _ _ _ _ _
  case isFalse => exact pairChanged_hasSide _ _

end Rows

/-! ## The rows of a diff -/

/-- The cells of a column that both tables have differ. -/
def Differs (columns : List TableColumn) (o n : List Str) (i : ℕ) : Prop :=
  ∃ c x y, columns[i]? = some c ∧ c.old = some x ∧ c.new = some y ∧
    cell o (some x) ≠ cell n (some y)

/-! ## What a row says -/

section Row

variable (columns : List TableColumn) (oldRows newRows : List (List Str)) (p : Pair)

variable {i : ℕ}

theorem tableRow_oldLine_eq_iff :
    (tableRow columns oldRows newRows p).oldLine = i + 2 ↔ p.old = some i := by
  change (p.old.elim 0 fun i => i + 2) = i + 2 ↔ p.old = some i
  cases p.old with
  | none => simp
  | some i' => simp

theorem tableRow_newLine_eq_iff {j : ℕ} :
    (tableRow columns oldRows newRows p).newLine = j + 2 ↔ p.new = some j := by
  change (p.new.elim 0 fun j => j + 2) = j + 2 ↔ p.new = some j
  cases p.new with
  | none => simp
  | some j' => simp

theorem tableRow_oldLine_eq_zero_iff :
    (tableRow columns oldRows newRows p).oldLine = 0 ↔ p.old = none := by
  change (p.old.elim 0 fun i => i + 2) = 0 ↔ p.old = none
  cases p.old with
  | none => simp
  | some i => simp

theorem tableRow_newLine_eq_zero_iff :
    (tableRow columns oldRows newRows p).newLine = 0 ↔ p.new = none := by
  change (p.new.elim 0 fun j => j + 2) = 0 ↔ p.new = none
  cases p.new with
  | none => simp
  | some j => simp

theorem tableRow_changed_sorted :
    (tableRow columns oldRows newRows p).changed.Pairwise (· < ·) :=
  List.pairwise_lt_range.filter _

theorem mem_tableRow_changed {j k : ℕ} (hi : p.old = some i) (hj : p.new = some j) :
    k ∈ (tableRow columns oldRows newRows p).changed ↔
      Differs columns (oldRows.getD i []) (newRows.getD j []) k := by
  unfold tableRow Differs
  rw [List.mem_filter, List.mem_range, hi, hj]
  constructor
  · rintro ⟨hk, hdiffers⟩
    rw [List.getElem?_eq_getElem hk, Option.any_some, Bool.and_eq_true, Bool.and_eq_true,
      Bool.and_eq_true, bne_iff_ne] at hdiffers
    obtain ⟨⟨⟨-, hold⟩, hnew⟩, hne⟩ := hdiffers
    obtain ⟨x, hx⟩ := Option.isSome_iff_exists.mp hold
    obtain ⟨y, hy⟩ := Option.isSome_iff_exists.mp hnew
    rw [hx, hy] at hne
    exact ⟨columns[k], x, y, List.getElem?_eq_getElem hk, hx, hy, hne⟩
  · rintro ⟨c, x, y, hc, hx, hy, hne⟩
    refine ⟨(List.getElem?_eq_some_iff.mp hc).1, ?_⟩
    rw [hc, Option.any_some, hx, hy]
    simpa [Pair.isMatch, hi, hj] using hne

theorem tableRow_changed_one_sided (hp : p.isMatch = false) :
    (tableRow columns oldRows newRows p).changed = [] := by
  apply List.filter_eq_nil_iff.mpr
  intro k hk
  rw [List.getElem?_eq_getElem (List.mem_range.mp hk), Option.any_some, hp]
  simp

theorem tableRow_added_iff :
    (tableRow columns oldRows newRows p).status = .added ↔ p.old = none := by
  obtain ⟨old, new, moved⟩ := p
  cases old with
  | none => exact iff_of_true rfl rfl
  | some i =>
      refine iff_of_false (fun hadded => ?_) (Option.some_ne_none i)
      cases new with
      | none => cases hadded
      | some j =>
          change (if _ then RowStatus.changed else RowStatus.same) = .added at hadded
          split at hadded <;> cases hadded

theorem tableRow_removed_iff {p : Pair} (hside : p.HasSide) :
    (tableRow columns oldRows newRows p).status = .removed ↔ p.new = none := by
  obtain ⟨old, new, moved⟩ := p
  cases old with
  | none =>
      have hnew : new ≠ none := hside.resolve_left fun hnot => hnot rfl
      exact iff_of_false (fun hremoved => RowStatus.noConfusion hremoved) hnew
  | some i =>
      cases new with
      | none => exact iff_of_true rfl rfl
      | some j =>
          refine iff_of_false (fun hremoved => ?_) (Option.some_ne_none j)
          change (if _ then RowStatus.changed else RowStatus.same) = .removed at hremoved
          split at hremoved <;> cases hremoved

theorem tableRow_new_cells {p : Pair} {j k y : ℕ} {c : TableColumn} (hj : p.new = some j)
    (hc : columns[k]? = some c) (hy : c.new = some y) :
    (tableRow columns oldRows newRows p).cells[k]?
      = some (cell (newRows.getD j []) (some y)) := by
  unfold tableRow
  dsimp only
  rw [List.getElem?_map, hc, Option.map_some, hj, hy]
  rfl

theorem tableRow_old_cells {p : Pair} {k x : ℕ} {c : TableColumn} (hi : p.old = some i)
    (hc : columns[k]? = some c) (hx : c.old = some x) (hnone : p.new = none ∨ c.new = none) :
    (tableRow columns oldRows newRows p).cells[k]?
      = some (cell (oldRows.getD i []) (some x)) := by
  have hboth : (p.new.isSome && c.new.isSome) = false := by
    rcases hnone with hnone | hnone
    · rw [hnone, Option.isSome_none, Bool.false_and]
    · rw [hnone, Option.isSome_none, Bool.and_false]
  unfold tableRow
  dsimp only
  rw [List.getElem?_map, hc, Option.map_some, hboth, hi, hx]
  rfl

theorem tableRow_old_changed {p : Pair} {k x : ℕ} {c : TableColumn} (hi : p.old = some i)
    (hc : columns[k]? = some c) (hx : c.old = some x)
    (hchanged : (tableRow columns oldRows newRows p).status = .changed) :
    (tableRow columns oldRows newRows p).old[k]?
      = some (cell (oldRows.getD i []) (some x)) := by
  have hold : (tableRow columns oldRows newRows p).old
      = if (tableRow columns oldRows newRows p).status = .changed then
          columns.map fun c => cell (p.old.elim [] fun i => oldRows.getD i []) c.old
        else [] := rfl
  rw [hold, if_pos hchanged, List.getElem?_map, hc, Option.map_some, hi, hx]
  rfl

theorem tableRow_paired {p : Pair} {j : ℕ} (hi : p.old = some i) (hj : p.new = some j) :
    ((tableRow columns oldRows newRows p).status = .same ↔
        (tableRow columns oldRows newRows p).changed = []) ∧
      ((tableRow columns oldRows newRows p).status = .changed ↔
        (tableRow columns oldRows newRows p).changed ≠ []) := by
  have hstatus : (tableRow columns oldRows newRows p).status
      = if (tableRow columns oldRows newRows p).changed ≠ [] then .changed else .same := by
    obtain ⟨old, new, moved⟩ := p
    cases hi
    cases hj
    rfl
  rw [hstatus]
  split
  case isTrue hchanged => simp [hchanged]
  case isFalse hsame => simpa using hsame

end Row

/-! ## Adding the rows up -/

theorem addRow_foldl (d : TableDiff) (rs : List TableRow) :
    (rs.foldl TableDiff.addRow d).rows = d.rows ++ rs ∧
      (rs.foldl TableDiff.addRow d).columns = d.columns ∧
      (rs.foldl TableDiff.addRow d).keyColumn = d.keyColumn := by
  induction rs generalizing d with
  | nil => exact ⟨(List.append_nil _).symm, rfl, rfl⟩
  | cons r rs ih =>
      obtain ⟨hrows, hcolumns, hkey⟩ := ih (d.addRow r)
      refine ⟨?_, hcolumns, hkey⟩
      rw [List.foldl_cons, hrows]
      change d.rows ++ [r] ++ rs = _
      rw [List.append_assoc, List.singleton_append]

/-- The counters say what the rows say. -/
structure TableDiff.Counted (d : TableDiff) : Prop where
  added : d.rowsAdded = d.rows.countP fun r => r.status = .added
  removed : d.rowsRemoved = d.rows.countP fun r => r.status = .removed
  changed : d.rowsChanged = d.rows.countP fun r => r.status = .changed
  moved : d.rowsMoved = d.rows.countP TableRow.moved
  cells : d.cellsChanged
    = ((d.rows.filter fun r => r.status = .changed).map fun r => r.changed.length).sum

theorem addRow_counted {d : TableDiff} (h : d.Counted) (r : TableRow) :
    (d.addRow r).Counted where
  added := by
    change _ = (d.rows ++ [r]).countP _
    rw [List.countP_append, List.countP_singleton, ← h.added]
    simp [TableDiff.addRow]
  removed := by
    change _ = (d.rows ++ [r]).countP _
    rw [List.countP_append, List.countP_singleton, ← h.removed]
    simp [TableDiff.addRow]
  changed := by
    change _ = (d.rows ++ [r]).countP _
    rw [List.countP_append, List.countP_singleton, ← h.changed]
    simp [TableDiff.addRow]
  moved := by
    change _ = (d.rows ++ [r]).countP _
    rw [List.countP_append, List.countP_singleton, ← h.moved]
    rfl
  cells := by
    change _ = (((d.rows ++ [r]).filter _).map _).sum
    rw [List.filter_append, List.map_append, List.sum_append, ← h.cells]
    change d.cellsChanged + (if r.status = .changed then r.changed.length else 0) = _
    by_cases hchanged : r.status = .changed
    · simp [hchanged]
    · simp [hchanged]

theorem foldl_addRow_counted {d : TableDiff} (h : d.Counted) (rs : List TableRow) :
    (rs.foldl TableDiff.addRow d).Counted := by
  induction rs generalizing d with
  | nil => exact h
  | cons r rs ih => exact ih (addRow_counted h r)

/-! ## The whole diff -/

theorem lines_perm {side : Pair → Option ℕ} {pairs : List Pair} {n : ℕ}
    (h : (pairs.filterMap side).Perm (List.range n)) :
    ((pairs.map fun p => (side p).elim 0 fun i => i + 2).filter (· ≠ 0)).Perm
      ((List.range n).map (· + 2)) := by
  have hlines : (pairs.map fun p => (side p).elim 0 fun i => i + 2).filter (· ≠ 0)
      = (pairs.filterMap side).map (· + 2) := by
    clear h
    induction pairs with
    | nil => rfl
    | cons p pairs ih =>
        rw [List.map_cons, List.filterMap_cons]
        cases side p with
        | none => exact ih
        | some i => exact congrArg (List.cons (i + 2)) ih
  rw [hlines]
  exact h.map (· + 2)

/-- Both records are there and the row is not marked as moved. -/
def TableRow.kept (r : TableRow) : Bool :=
  r.oldLine != 0 && r.newLine != 0 && !r.moved

/-- What a diff says about the data rows of two tables.  Data row `i` of a table is on line
`i + 2`. -/
structure TableDiff.Conserves (d : TableDiff) (oh nh : List Str)
    (oldRows newRows : List (List Str)) : Prop where
  columns : ColumnsAligned d.columns oh nh oldRows newRows
  /-- every data row of either table is in one row, and no row is without both -/
  old_once : ((d.rows.map TableRow.oldLine).filter (· ≠ 0)).Perm
    ((List.range oldRows.length).map (· + 2))
  new_once : ((d.rows.map TableRow.newLine).filter (· ≠ 0)).Perm
    ((List.range newRows.length).map (· + 2))
  one_side : ∀ r ∈ d.rows, r.oldLine ≠ 0 ∨ r.newLine ≠ 0
  /-- a row shows the cells of its records: the new ones, the old ones where there are no
  new ones, and the old ones again when they have changed -/
  new_cells : ∀ r ∈ d.rows, ∀ j, r.newLine = j + 2 → ∀ (k : ℕ) c y, d.columns[k]? = some c →
    c.new = some y → r.cells[k]? = some (cell (newRows.getD j []) (some y))
  old_cells : ∀ r ∈ d.rows, ∀ i, r.oldLine = i + 2 → ∀ (k : ℕ) c x, d.columns[k]? = some c →
    c.old = some x → r.newLine = 0 ∨ c.new = none →
    r.cells[k]? = some (cell (oldRows.getD i []) (some x))
  old_changed : ∀ r ∈ d.rows, ∀ i, r.oldLine = i + 2 → r.status = .changed →
    ∀ (k : ℕ) c x, d.columns[k]? = some c → c.old = some x →
    r.old[k]? = some (cell (oldRows.getD i []) (some x))
  /-- the status of a row, and the cells it lists as changed -/
  added_iff : ∀ r ∈ d.rows, r.status = .added ↔ r.oldLine = 0
  removed_iff : ∀ r ∈ d.rows, r.status = .removed ↔ r.newLine = 0
  same_iff : ∀ r ∈ d.rows, ∀ i j, r.oldLine = i + 2 → r.newLine = j + 2 →
    (r.status = .same ↔ ∀ k, ¬ Differs d.columns (oldRows.getD i []) (newRows.getD j []) k)
  changed_iff : ∀ r ∈ d.rows, ∀ i j, r.oldLine = i + 2 → r.newLine = j + 2 →
    (r.status = .changed ↔ ∃ k, Differs d.columns (oldRows.getD i []) (newRows.getD j []) k)
  cells_iff : ∀ r ∈ d.rows, ∀ i j, r.oldLine = i + 2 → r.newLine = j + 2 → ∀ k,
    (k ∈ r.changed ↔ Differs d.columns (oldRows.getD i []) (newRows.getD j []) k)
  cells_once : ∀ r ∈ d.rows, r.changed.Nodup
  cells_one_sided : ∀ r ∈ d.rows, r.oldLine = 0 ∨ r.newLine = 0 → r.changed = []
  counted : d.Counted
  /-- rows matched by a key column -/
  key_iff : ∀ k, d.keyColumn = some k ↔ KeyedBy d.columns oldRows newRows k
  keyed : ∀ k, d.keyColumn = some k → ∃ c x y, d.columns[k]? = some c ∧
    c.old = some x ∧ c.new = some y ∧
    (∀ i j, (∃ r ∈ d.rows, r.oldLine = i + 2 ∧ r.newLine = j + 2) ↔
      ∃ o n, oldRows[i]? = some o ∧ newRows[j]? = some n ∧
        cell o (some x) = cell n (some y)) ∧
    (d.rows.filter TableRow.kept).Pairwise
      (fun r s => r.oldLine < s.oldLine ∧ r.newLine < s.newLine) ∧
    ∀ l : List TableRow, (∀ r ∈ l, r ∈ d.rows ∧ r.oldLine ≠ 0 ∧ r.newLine ≠ 0) →
      l.Pairwise (fun r s => r.oldLine < s.oldLine ∧ r.newLine < s.newLine) →
      l.length ≤ (d.rows.filter TableRow.kept).length

section Whole

variable (columns : List TableColumn) (oldRows newRows : List (List Str))

theorem kept_rows (pairs : List Pair) :
    (pairs.map (tableRow columns oldRows newRows)).filter TableRow.kept
      = (keptPairs pairs).map (tableRow columns oldRows newRows) := by
  rw [keptPairs, List.filter_filter, List.filter_map]
  congr 1
  apply List.filter_congr
  intro p _
  rw [Bool.and_comm]
  obtain ⟨old, new, moved⟩ := p
  cases old with
  | none => rfl
  | some i =>
      cases new with
      | none => rfl
      | some j => rfl

variable {pairs : List Pair}

theorem mem_keptPairs {p : Pair} (hp : p ∈ keptPairs pairs) :
    ∃ i j, p.old = some i ∧ p.new = some j := by
  have hmatch := (List.mem_filter.mp (List.mem_filter.mp hp).1).2
  rw [Pair.isMatch, Bool.and_eq_true] at hmatch
  obtain ⟨i, hi⟩ := Option.isSome_iff_exists.mp hmatch.1
  obtain ⟨j, hj⟩ := Option.isSome_iff_exists.mp hmatch.2
  exact ⟨i, j, hi, hj⟩

theorem tableRow_lines {p : Pair} {i j : ℕ} (hi : p.old = some i) (hj : p.new = some j) :
    (tableRow columns oldRows newRows p).oldLine = i + 2 ∧
      (tableRow columns oldRows newRows p).newLine = j + 2 :=
  ⟨(tableRow_oldLine_eq_iff ..).mpr hi, (tableRow_newLine_eq_iff ..).mpr hj⟩

variable {columns oldRows newRows}

theorem kept_rows_ordered {a b : List Str} (h : Aligned a b pairs) :
    ((pairs.map (tableRow columns oldRows newRows)).filter TableRow.kept).Pairwise
      (fun r s => r.oldLine < s.oldLine ∧ r.newLine < s.newLine) := by
  rw [kept_rows, List.pairwise_map]
  refine h.kept_ordered.imp_of_mem fun hp hq hbefore => ?_
  obtain ⟨i, j, hi, hj⟩ := mem_keptPairs hp
  obtain ⟨i', j', hi', hj'⟩ := mem_keptPairs hq
  have hlt := hbefore i i' j j' hi hi' hj hj'
  have hlines := tableRow_lines columns oldRows newRows hi hj
  have hlines' := tableRow_lines columns oldRows newRows hi' hj'
  omega

theorem kept_rows_longest {a b : List Str} (h : Aligned a b pairs) {l : List TableRow}
    (hl : ∀ r ∈ l, r ∈ pairs.map (tableRow columns oldRows newRows) ∧
      r.oldLine ≠ 0 ∧ r.newLine ≠ 0)
    (hordered : l.Pairwise (fun r s => r.oldLine < s.oldLine ∧ r.newLine < s.newLine)) :
    l.length ≤ ((pairs.map (tableRow columns oldRows newRows)).filter TableRow.kept).length := by
  have hpair : ∀ r ∈ l, ∃ p ∈ pairs, p.old = some (r.oldLine - 2) ∧
      p.new = some (r.newLine - 2) ∧ 2 ≤ r.oldLine ∧ 2 ≤ r.newLine := by
    intro r hr
    obtain ⟨hmem, hold, hnew⟩ := hl r hr
    obtain ⟨p, hp, rfl⟩ := List.mem_map.mp hmem
    rw [ne_eq, tableRow_oldLine_eq_zero_iff] at hold
    rw [ne_eq, tableRow_newLine_eq_zero_iff] at hnew
    obtain ⟨i, hi⟩ := Option.ne_none_iff_exists'.mp hold
    obtain ⟨j, hj⟩ := Option.ne_none_iff_exists'.mp hnew
    have hlines := tableRow_lines columns oldRows newRows hi hj
    refine ⟨p, hp, ?_, ?_, ?_, ?_⟩
    · rw [hlines.1, hi, Nat.add_sub_cancel]
    · rw [hlines.2, hj, Nat.add_sub_cancel]
    · omega
    · omega
  have hle := h.kept_longest (l.map fun r => (r.oldLine - 2, r.newLine - 2))
    (by
      intro x hx
      obtain ⟨r, hr, rfl⟩ := List.mem_map.mp hx
      obtain ⟨p, hp, hi, hj, -, -⟩ := hpair r hr
      exact ⟨p, hp, hi, hj⟩)
    (by
      rw [List.pairwise_map]
      refine hordered.imp_of_mem fun hr hs hlt => ?_
      obtain ⟨-, -, -, -, hr2, hr2'⟩ := hpair _ hr
      obtain ⟨-, -, -, -, hs2, hs2'⟩ := hpair _ hs
      dsimp only
      omega)
  rw [List.length_map] at hle
  rw [kept_rows, List.length_map]
  exact hle

theorem paired_rows_iff {x y : ℕ} (h : Aligned (oldRows.map fun row => cell row (some x))
      (newRows.map fun row => cell row (some y)) pairs) (i j : ℕ) :
    (∃ r ∈ pairs.map (tableRow columns oldRows newRows),
        r.oldLine = i + 2 ∧ r.newLine = j + 2) ↔
      ∃ o n, oldRows[i]? = some o ∧ newRows[j]? = some n ∧
        cell o (some x) = cell n (some y) := by
  have hpairs : (∃ r ∈ pairs.map (tableRow columns oldRows newRows),
      r.oldLine = i + 2 ∧ r.newLine = j + 2) ↔
      ∃ p ∈ pairs, p.old = some i ∧ p.new = some j := by
    simp only [List.mem_map, exists_exists_and_eq_and, tableRow_oldLine_eq_iff,
      tableRow_newLine_eq_iff]
  rw [hpairs, h.match_iff]
  simp only [List.getElem?_map, Option.map_eq_some_iff]
  constructor
  · rintro ⟨key, ⟨o, ho, rfl⟩, n, hn, hkey⟩
    exact ⟨o, n, ho, hn, hkey.symm⟩
  · rintro ⟨o, n, ho, hn, hkey⟩
    exact ⟨_, ⟨o, ho, rfl⟩, n, hn, hkey.symm⟩

end Whole

theorem conserves_of_pairs {d : TableDiff} {oh nh : List Str}
    {oldRows newRows : List (List Str)} {pairs : List Pair}
    (hcolumns : ColumnsAligned d.columns oh nh oldRows newRows)
    (hrows : d.rows = pairs.map (tableRow d.columns oldRows newRows))
    (hold : (pairs.filterMap Pair.old).Perm (List.range oldRows.length))
    (hnew : (pairs.filterMap Pair.new).Perm (List.range newRows.length))
    (hside : ∀ p ∈ pairs, p.HasSide) (hcounted : d.Counted)
    (hkey : ∀ k, d.keyColumn = some k ↔ KeyedBy d.columns oldRows newRows k)
    (hkeyed : ∀ k, d.keyColumn = some k → ∃ c x y, d.columns[k]? = some c ∧
      c.old = some x ∧ c.new = some y ∧
      Aligned (oldRows.map fun row => cell row (some x))
        (newRows.map fun row => cell row (some y)) pairs) :
    d.Conserves oh nh oldRows newRows := by
  have hpair : ∀ r ∈ d.rows, ∃ p ∈ pairs, tableRow d.columns oldRows newRows p = r := by
    intro r hr
    rw [hrows] at hr
    exact List.mem_map.mp hr
  refine ⟨hcolumns, ?_, ?_, ?_, ?_, ?_, ?_, ?_, ?_, ?_, ?_, ?_, ?_, ?_, hcounted, hkey, ?_⟩
  · rw [hrows, List.map_map]
    exact lines_perm hold
  · rw [hrows, List.map_map]
    exact lines_perm hnew
  · intro r hr
    obtain ⟨p, hp, rfl⟩ := hpair r hr
    rw [ne_eq, ne_eq, tableRow_oldLine_eq_zero_iff, tableRow_newLine_eq_zero_iff]
    exact hside p hp
  · intro r hr j hj k c y hc hy
    obtain ⟨p, hp, rfl⟩ := hpair r hr
    rw [tableRow_newLine_eq_iff] at hj
    exact tableRow_new_cells d.columns oldRows newRows hj hc hy
  · intro r hr i hi k c x hc hx hnone
    obtain ⟨p, hp, rfl⟩ := hpair r hr
    rw [tableRow_oldLine_eq_iff] at hi
    rw [tableRow_newLine_eq_zero_iff] at hnone
    exact tableRow_old_cells d.columns oldRows newRows hi hc hx hnone
  · intro r hr i hi hchanged k c x hc hx
    obtain ⟨p, hp, rfl⟩ := hpair r hr
    rw [tableRow_oldLine_eq_iff] at hi
    exact tableRow_old_changed d.columns oldRows newRows hi hc hx hchanged
  · intro r hr
    obtain ⟨p, hp, rfl⟩ := hpair r hr
    rw [tableRow_oldLine_eq_zero_iff]
    exact tableRow_added_iff d.columns oldRows newRows p
  · intro r hr
    obtain ⟨p, hp, rfl⟩ := hpair r hr
    rw [tableRow_newLine_eq_zero_iff]
    exact tableRow_removed_iff d.columns oldRows newRows (hside p hp)
  · intro r hr i j hi hj
    obtain ⟨p, hp, rfl⟩ := hpair r hr
    rw [tableRow_oldLine_eq_iff] at hi
    rw [tableRow_newLine_eq_iff] at hj
    rw [(tableRow_paired d.columns oldRows newRows hi hj).1, List.eq_nil_iff_forall_not_mem]
    exact forall_congr' fun k => not_congr (mem_tableRow_changed d.columns oldRows newRows p hi hj)
  · intro r hr i j hi hj
    obtain ⟨p, hp, rfl⟩ := hpair r hr
    rw [tableRow_oldLine_eq_iff] at hi
    rw [tableRow_newLine_eq_iff] at hj
    rw [(tableRow_paired d.columns oldRows newRows hi hj).2, ne_eq,
      List.eq_nil_iff_forall_not_mem, not_forall_not]
    exact exists_congr fun k => mem_tableRow_changed d.columns oldRows newRows p hi hj
  · intro r hr i j hi hj k
    obtain ⟨p, hp, rfl⟩ := hpair r hr
    rw [tableRow_oldLine_eq_iff] at hi
    rw [tableRow_newLine_eq_iff] at hj
    exact mem_tableRow_changed d.columns oldRows newRows p hi hj
  · intro r hr
    obtain ⟨p, hp, rfl⟩ := hpair r hr
    exact (tableRow_changed_sorted d.columns oldRows newRows p).imp ne_of_lt
  · intro r hr hone
    obtain ⟨p, hp, rfl⟩ := hpair r hr
    rw [tableRow_oldLine_eq_zero_iff, tableRow_newLine_eq_zero_iff] at hone
    apply tableRow_changed_one_sided
    cases hone with
    | inl hnone => rw [Pair.isMatch, hnone, Option.isSome_none, Bool.false_and]
    | inr hnone => rw [Pair.isMatch, hnone, Option.isSome_none, Bool.and_false]
  · intro k hk
    obtain ⟨c, x, y, hc, hx, hy, haligned⟩ := hkeyed k hk
    rw [hrows]
    exact ⟨c, x, y, hc, hx, hy, paired_rows_iff haligned, kept_rows_ordered haligned,
      fun l hl => kept_rows_longest haligned hl⟩

/-- A table diff conserves rows: its columns are those of the two tables, each data row of
either table is in one row of the diff, statuses and changed cells say how the records
compare, the counters count the rows, and rows matched by key are paired by equal keys, the
fewest of them moved. -/
theorem diffTables_conserves (old new : Option Table) :
    (diffTables old new).Conserves (header old).1 (header new).1 (header old).2
      (header new).2 := by
  unfold diffTables
  dsimp only
  generalize hd : TableDiff.mk _ [] _ 0 0 0 0 0 _ _ = d
  have haligned := alignColumns_aligned (header old).1 (header new).1 (header old).2
    (header new).2
  generalize hcolumns : alignColumns (header old).1 (header new).1 (header old).2 (header new).2
    = columns at hd haligned ⊢
  obtain ⟨hrows, hcols, hkey⟩ := addRow_foldl d
    ((alignRows columns (header old).2 (header new).2).2.map
      (tableRow columns (header old).2 (header new).2))
  have honce := alignRows_once columns (header old).2 (header new).2
  subst hd
  refine conserves_of_pairs ?_ ?_ honce.1 honce.2 ?_ ?_ ?_ ?_
  · rw [hcols]
    exact haligned
  · rw [hrows, hcols, List.nil_append]
  · exact alignRows_hasSide columns _ _
  · exact foldl_addRow_counted ⟨rfl, rfl, rfl, rfl, rfl⟩ _
  · intro k
    rw [hkey, hcols]
    exact alignRows_key_iff columns _ _ k
  · intro k hk
    rw [hkey] at hk
    rw [hcols]
    exact alignRows_keyed columns _ _ hk

end Preview

end Nipa
