import Nipa.Preview.Alignment

/-!
# Columns and keys of a table diff

The columns of a diff list each column of either table once.  Two of them are joined when
their header names are equal, where the headers name all columns of the tables and share a
name, and else when they stand at the same place.
-/

namespace Nipa

open Support

namespace Preview

/-! ## Every pair has a side -/

/-- There is an entry on one side at least. -/
def Pair.HasSide (p : Pair) : Prop :=
  p.old ≠ none ∨ p.new ≠ none

theorem removed_hasSide (l : List ℕ) : ∀ p ∈ l.map Pair.removed, p.HasSide := by
  intro p hp
  obtain ⟨i, -, rfl⟩ := List.mem_map.mp hp
  exact Or.inl (Option.some_ne_none i)

theorem alignFrom_hasSide (stable matchedOld : List ℕ) (oldLength i j : ℕ)
    (found : List (Option ℕ)) :
    ∀ p ∈ alignFrom stable matchedOld oldLength i j found, p.HasSide := by
  induction found generalizing i j with
  | nil => exact removed_hasSide _
  | cons m found ih =>
      intro p hp
      cases m with
      | none =>
          rw [alignFrom, List.mem_cons] at hp
          cases hp with
          | inl hadded =>
              rw [hadded]
              exact Or.inr (Option.some_ne_none j)
          | inr hlater => exact ih _ _ p hlater
      | some m =>
          rw [alignFrom] at hp
          split at hp
          case isTrue =>
              rw [List.mem_append, List.mem_cons] at hp
              rcases hp with hflushed | hmatch | hlater
              · exact removed_hasSide _ p hflushed
              · rw [hmatch]
                exact Or.inl (Option.some_ne_none m)
              · exact ih _ _ p hlater
          case isFalse =>
              cases List.mem_cons.mp hp with
              | inl hmatch =>
                  rw [hmatch]
                  exact Or.inl (Option.some_ne_none m)
              | inr hlater => exact ih _ _ p hlater

/-! ## Keys -/

/-- Values that tell entries apart: none is empty, and no two are equal. -/
def Telling (values : List Str) : Prop :=
  values.Nodup ∧ [] ∉ values

theorem uniqueNonEmptyFrom_iff {seen values : List Str} :
    uniqueNonEmptyFrom seen values = true ↔ Telling values ∧ ∀ v ∈ values, v ∉ seen := by
  induction values generalizing seen with
  | nil => simp [uniqueNonEmptyFrom, Telling]
  | cons v values ih =>
      rw [uniqueNonEmptyFrom, Telling, List.nodup_cons, List.mem_cons, not_or,
        List.forall_mem_cons]
      split
      case isTrue hbad =>
          refine iff_of_false (by simp) ?_
          rintro ⟨⟨-, hne, -⟩, hfresh, -⟩
          rcases hbad with hempty | hseen
          · exact hne hempty.symm
          · exact hfresh hseen
      case isFalse hgood =>
          rw [not_or] at hgood
          rw [ih]
          constructor
          · rintro ⟨⟨hnodup, hempty⟩, hfresh⟩
            refine ⟨⟨⟨fun hv => hfresh v hv List.mem_cons_self, hnodup⟩, Ne.symm hgood.1,
              hempty⟩, hgood.2, fun w hw hseen => ?_⟩
            exact hfresh w hw (List.mem_cons_of_mem v hseen)
          · rintro ⟨⟨⟨hv, hnodup⟩, -, hempty⟩, -, hfresh⟩
            refine ⟨⟨hnodup, hempty⟩, fun w hw hseen => ?_⟩
            rcases List.mem_cons.mp hseen with rfl | hseen
            · exact hv hw
            · exact hfresh w hw hseen

theorem uniqueNonEmpty_iff {values : List Str} : uniqueNonEmpty values = true ↔ Telling values := by
  rw [uniqueNonEmpty, uniqueNonEmptyFrom_iff]
  simp

/-! ## Columns -/

theorem widest_le_iff {head : List Str} {rows : List (List Str)} {n : ℕ} :
    widest head rows ≤ n ↔ head.length ≤ n ∧ ∀ row ∈ rows, row.length ≤ n := by
  have hfold : ∀ w, rows.foldl (fun w r => max w r.length) w ≤ n ↔
      w ≤ n ∧ ∀ row ∈ rows, row.length ≤ n := by
    induction rows with
    | nil => simp
    | cons r rows ih =>
        intro w
        rw [List.foldl_cons, ih, List.forall_mem_cons, Nat.max_le, and_assoc]
  exact hfold head.length

theorem length_le_widest (head : List Str) (rows : List (List Str)) :
    head.length ≤ widest head rows :=
  (widest_le_iff.mp le_rfl).1

theorem widest_eq_length_iff {head : List Str} {rows : List (List Str)} :
    widest head rows = head.length ↔ ∀ row ∈ rows, row.length ≤ head.length := by
  rw [Nat.le_antisymm_iff, widest_le_iff]
  constructor
  · rintro ⟨⟨-, hrows⟩, -⟩
    exact hrows
  · intro hrows
    exact ⟨⟨le_rfl, hrows⟩, length_le_widest head rows⟩

/-- The header of a table names its columns. -/
structure Names (head : List Str) (rows : List (List Str)) : Prop where
  telling : Telling head
  wide : ∀ row ∈ rows, row.length ≤ head.length

/-- Two tables whose columns are joined by name. -/
structure JoinedByName (oh nh : List Str) (oldRows newRows : List (List Str)) : Prop where
  old : Names oh oldRows
  new : Names nh newRows
  shared : (∃ name ∈ oh, name ∈ nh) ∨ oh = [] ∨ nh = []

/-- What the columns of a diff say about those of the two tables. -/
structure ColumnsAligned (columns : List TableColumn) (oh nh : List Str)
    (oldRows newRows : List (List Str)) : Prop where
  old_once : (columns.filterMap TableColumn.old).Perm (List.range (widest oh oldRows))
  new_once : (columns.filterMap TableColumn.new).Perm (List.range (widest nh newRows))
  one_side : ∀ c ∈ columns, c.old ≠ none ∨ c.new ≠ none
  by_name : JoinedByName oh nh oldRows newRows → ∀ x y,
    (∃ c ∈ columns, c.old = some x ∧ c.new = some y) ↔
      ∃ name, oh[x]? = some name ∧ nh[y]? = some name
  by_position : ¬ JoinedByName oh nh oldRows newRows → ∀ x y,
    (∃ c ∈ columns, c.old = some x ∧ c.new = some y) ↔
      x = y ∧ x < widest oh oldRows ∧ y < widest nh newRows
  names : ∀ c ∈ columns, c.oldName = cell oh c.old ∧
    c.name = if cell nh c.new = [] then cell oh c.old else cell nh c.new

section Columns

variable {oh nh : List Str} {oldRows newRows : List (List Str)}

@[simp] theorem named_old (c : TableColumn) : c.named.old = c.old := by
  rw [TableColumn.named]
  split
  · rfl
  · rfl

@[simp] theorem named_new (c : TableColumn) : c.named.new = c.new := by
  rw [TableColumn.named]
  split
  · rfl
  · rfl

theorem named_names (c : TableColumn) : c.named.oldName = c.oldName ∧
    c.named.name = if c.name = [] then c.oldName else c.name := by
  rw [TableColumn.named]
  split
  · exact ⟨rfl, rfl⟩
  · exact ⟨rfl, rfl⟩

theorem columnsByName_sides (side : Pair → Option ℕ) (column : TableColumn → Option ℕ)
    (hside : ∀ p : Pair, column ⟨cell nh p.new, cell oh p.old, p.old, p.new⟩ = side p)
    (hnamed : ∀ c : TableColumn, column c.named = column c) :
    ((columnsByName oh nh).map TableColumn.named).filterMap column
      = (alignUnique oh nh).filterMap side := by
  rw [columnsByName, List.map_map, List.filterMap_map]
  apply List.filterMap_congr
  intro p _
  rw [Function.comp_apply, Function.comp_apply, hnamed, hside]

theorem exists_column_iff {x y : ℕ} :
    (∃ c ∈ (columnsByName oh nh).map TableColumn.named, c.old = some x ∧ c.new = some y) ↔
      ∃ p ∈ alignUnique oh nh, p.old = some x ∧ p.new = some y := by
  rw [columnsByName, List.map_map]
  simp only [List.mem_map, Function.comp_apply, exists_exists_and_eq_and, named_old, named_new]

theorem any_both_iff (haligned : Aligned oh nh (alignUnique oh nh)) :
    ((columnsByName oh nh).any fun c => c.old.isSome && c.new.isSome) = true ↔
      ∃ name ∈ oh, name ∈ nh := by
  rw [columnsByName, List.any_map, List.any_eq_true]
  constructor
  · rintro ⟨p, hp, hboth⟩
    rw [Function.comp_apply, Bool.and_eq_true] at hboth
    obtain ⟨x, hx⟩ := Option.isSome_iff_exists.mp hboth.1
    obtain ⟨y, hy⟩ := Option.isSome_iff_exists.mp hboth.2
    obtain ⟨name, hold, hnew⟩ := (haligned.match_iff x y).mp ⟨p, hp, hx, hy⟩
    exact ⟨name, List.mem_of_getElem? hold, List.mem_of_getElem? hnew⟩
  · rintro ⟨name, hold, hnew⟩
    obtain ⟨x, hx⟩ := List.mem_iff_getElem?.mp hold
    obtain ⟨y, hy⟩ := List.mem_iff_getElem?.mp hnew
    obtain ⟨p, hp, hpx, hpy⟩ := (haligned.match_iff x y).mpr ⟨name, hx, hy⟩
    exact ⟨p, hp, by simp [hpx, hpy]⟩

theorem alignColumns_cases (oh nh : List Str) (oldRows newRows : List (List Str)) :
    (JoinedByName oh nh oldRows newRows ∧ alignColumns oh nh oldRows newRows
      = (columnsByName oh nh).map TableColumn.named) ∨
    (¬ JoinedByName oh nh oldRows newRows ∧ alignColumns oh nh oldRows newRows
      = columnsByPosition oh nh (widest oh oldRows) (widest nh newRows)) := by
  unfold alignColumns
  dsimp only
  split
  case isTrue hjoin =>
      simp only [Bool.and_eq_true, Bool.or_eq_true, beq_iff_eq, uniqueNonEmpty_iff,
        widest_eq_length_iff, List.isEmpty_iff] at hjoin
      obtain ⟨⟨⟨⟨hold, hnew⟩, holdWide⟩, hnewWide⟩, hshared⟩ := hjoin
      rw [any_both_iff (alignUnique_aligned hold.1 hnew.1), or_assoc] at hshared
      exact Or.inl ⟨⟨⟨hold, holdWide⟩, ⟨hnew, hnewWide⟩, hshared⟩, rfl⟩
  case isFalse hjoin =>
      refine Or.inr ⟨?_, rfl⟩
      rintro ⟨⟨hold, holdWide⟩, ⟨hnew, hnewWide⟩, hshared⟩
      apply hjoin
      simp only [Bool.and_eq_true, Bool.or_eq_true, beq_iff_eq, uniqueNonEmpty_iff,
        widest_eq_length_iff, List.isEmpty_iff]
      rw [any_both_iff (alignUnique_aligned hold.1 hnew.1), or_assoc]
      exact ⟨⟨⟨⟨hold, hnew⟩, holdWide⟩, hnewWide⟩, hshared⟩

theorem filterMap_below (n w : ℕ) (h : w ≤ n) :
    (List.range n).filterMap (fun i => if i < w then some i else none) = List.range w := by
  obtain ⟨k, rfl⟩ := Nat.exists_eq_add_of_le h
  rw [List.range_add, List.filterMap_append]
  have hfirst : (List.range w).filterMap (fun i => if i < w then some i else none)
      = List.range w := by
    refine (List.filterMap_congr fun i hi => ?_).trans List.filterMap_some
    rw [if_pos (List.mem_range.mp hi)]
  have hrest : ((List.range k).map fun i => w + i).filterMap
      (fun i => if i < w then some i else none) = [] := by
    rw [List.filterMap_map]
    refine List.filterMap_eq_nil_iff.mpr fun i _ => ?_
    rw [Function.comp_apply, if_neg (by omega)]
  rw [hfirst, hrest, List.append_nil]

theorem cell_eq_nil {row : List Str} {i : ℕ} (h : row.length ≤ i) : cell row (some i) = [] :=
  List.getD_eq_default _ _ h

theorem cell_below {head : List Str} {w i : ℕ} (h : head.length ≤ w) :
    cell head (some i) = cell head (if i < w then some i else none) := by
  split
  · rfl
  · exact cell_eq_nil (by omega)

/-- The columns of a diff list each column of either table once, joined by name or by
position. -/
theorem alignColumns_aligned (oh nh : List Str) (oldRows newRows : List (List Str)) :
    ColumnsAligned (alignColumns oh nh oldRows newRows) oh nh oldRows newRows := by
  rcases alignColumns_cases oh nh oldRows newRows with ⟨hjoin, heq⟩ | ⟨hjoin, heq⟩
  · have haligned := alignUnique_aligned hjoin.old.telling.1 hjoin.new.telling.1
    rw [heq]
    refine ⟨?_, ?_, ?_, ?_, fun hnot => absurd hjoin hnot, ?_⟩
    · rw [columnsByName_sides Pair.old TableColumn.old (fun _ => rfl) named_old,
        widest_eq_length_iff.mpr hjoin.old.wide]
      exact haligned.old_once
    · rw [columnsByName_sides Pair.new TableColumn.new (fun _ => rfl) named_new,
        widest_eq_length_iff.mpr hjoin.new.wide]
      exact haligned.new_once
    · intro c hc
      rw [columnsByName, List.map_map] at hc
      obtain ⟨p, hp, rfl⟩ := List.mem_map.mp hc
      rw [Function.comp_apply, named_old, named_new]
      exact alignFrom_hasSide _ _ _ _ _ _ p hp
    · intro _ x y
      rw [exists_column_iff]
      exact haligned.match_iff x y
    · intro c hc
      rw [columnsByName, List.map_map] at hc
      obtain ⟨p, -, rfl⟩ := List.mem_map.mp hc
      rw [Function.comp_apply, named_old, named_new]
      exact named_names _
  · rw [heq]
    refine ⟨?_, ?_, ?_, fun hjoin' => absurd hjoin' hjoin, ?_, ?_⟩
    · rw [columnsByPosition, List.filterMap_map]
      refine List.Perm.of_eq ?_
      rw [← filterMap_below _ _ (Nat.le_max_left (widest oh oldRows) (widest nh newRows))]
      exact List.filterMap_congr fun i _ => named_old _
    · rw [columnsByPosition, List.filterMap_map]
      refine List.Perm.of_eq ?_
      rw [← filterMap_below _ _ (Nat.le_max_right (widest oh oldRows) (widest nh newRows))]
      exact List.filterMap_congr fun i _ => named_new _
    · intro c hc
      obtain ⟨i, hi, rfl⟩ := List.mem_map.mp hc
      rw [List.mem_range] at hi
      rw [named_old, named_new]
      dsimp only
      by_cases hold : i < widest oh oldRows
      · rw [if_pos hold]
        exact Or.inl (Option.some_ne_none i)
      · rw [if_pos (show i < widest nh newRows by omega)]
        exact Or.inr (Option.some_ne_none i)
    · intro _ x y
      rw [columnsByPosition]
      simp only [List.mem_map, List.mem_range, exists_exists_and_eq_and, named_old, named_new,
        Option.ite_none_right_eq_some, Option.some.injEq]
      constructor
      · rintro ⟨i, -, ⟨hold, rfl⟩, hnew, rfl⟩
        exact ⟨rfl, hold, hnew⟩
      · rintro ⟨rfl, hold, hnew⟩
        exact ⟨x, by omega, ⟨hold, rfl⟩, hnew, rfl⟩
    · intro c hc
      obtain ⟨i, -, rfl⟩ := List.mem_map.mp hc
      rw [named_old, named_new, ← cell_below (length_le_widest oh oldRows),
        ← cell_below (length_le_widest nh newRows)]
      exact named_names _

end Columns

end Preview

end Nipa
