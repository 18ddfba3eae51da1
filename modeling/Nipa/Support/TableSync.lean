import Nipa.Support.Maps
import Mathlib.Data.List.Lex
import Mathlib.Data.List.Sort
import Mathlib.Order.Lex

/-!
# Bringing a keyed table to a wanted state

A table with a text key is brought to a list of wanted rows by going through the
list once: a row is written unless the stored row of its key, looked at for the
first time, is already the same, and the stored rows that nothing wanted are
deleted at the end.  Whatever the table held before, it then holds the last
wanted row of every key, up to what `same` looks at.
-/

namespace Nipa.Support.GoMap

variable {V W : Type}

/-! ## Rows in order -/

/-- The rows that meet a condition. -/
def filter (p : Str → V → Bool) (m : GoMap V) : GoMap V :=
  ⟨m.entries.filter fun e => p e.1 e.2, m.nodupKeys.sublist List.filter_sublist⟩

theorem lookup_filter (p : Str → V → Bool) (m : GoMap V) (k : Str) :
    (m.filter p).lookup k = (m.lookup k).filter (p k) := by
  ext v
  rw [Option.filter_eq_some_iff]
  constructor
  · intro h
    obtain ⟨hmem, hp⟩ := List.mem_filter.mp (AList.mem_lookup_iff.mp h)
    exact ⟨AList.mem_lookup_iff.mpr hmem, hp⟩
  · rintro ⟨h, hp⟩
    exact AList.mem_lookup_iff.mpr (List.mem_filter.mpr ⟨AList.mem_lookup_iff.mp h, hp⟩)

theorem mem_keys_iff {m : GoMap V} {k : Str} : k ∈ m.keys ↔ (m.lookup k).isSome :=
  AList.mem_keys.symm.trans AList.lookup_isSome.symm

/-- The rows in the order of their keys. -/
def sorted (m : GoMap V) : List (Str × V) :=
  (m.keys.insertionSort (· ≤ ·)).filterMap fun k => (m.lookup k).map (k, ·)

theorem mem_sorted {m : GoMap V} {k : Str} {v : V} :
    (k, v) ∈ m.sorted ↔ m.lookup k = some v := by
  unfold sorted
  rw [List.mem_filterMap]
  constructor
  · rintro ⟨k', -, h⟩
    obtain ⟨w, hw, heq⟩ := Option.map_eq_some_iff.mp h
    obtain ⟨rfl, rfl⟩ := Prod.mk.inj heq
    exact hw
  · intro h
    refine ⟨k, ?_, by rw [h]; rfl⟩
    rw [List.mem_insertionSort, mem_keys_iff, h]
    rfl

theorem forall₂_sorted {R : V → W → Prop} {m : GoMap V} {m' : GoMap W}
    (h : ∀ k, Option.Rel R (m.lookup k) (m'.lookup k)) :
    List.Forall₂ (fun a b => a.1 = b.1 ∧ R a.2 b.2) m.sorted m'.sorted := by
  have hmem : ∀ k, k ∈ m.keys ↔ k ∈ m'.keys := fun k => by
    rw [mem_keys_iff, mem_keys_iff, isSome_of_option_rel (h k)]
  have hperm : m.keys.Perm m'.keys :=
    (List.perm_ext_iff_of_nodup m.keys_nodup m'.keys_nodup).mpr hmem
  have hkeys : m.keys.insertionSort (· ≤ ·) = m'.keys.insertionSort (· ≤ ·) :=
    (((List.perm_insertionSort (· ≤ ·) m.keys).trans hperm).trans
      (List.perm_insertionSort (· ≤ ·) m'.keys).symm).eq_of_pairwise
        (fun _ _ _ _ => le_antisymm) (List.pairwise_insertionSort _ _)
        (List.pairwise_insertionSort _ _)
  unfold sorted
  rw [hkeys]
  generalize m'.keys.insertionSort (· ≤ ·) = l
  induction l with
  | nil => exact List.Forall₂.nil
  | cons k l ih =>
      have := h k
      rw [List.filterMap_cons, List.filterMap_cons]
      revert this
      rcases m.lookup k with _ | v <;> rcases m'.lookup k with _ | w <;> intro hrel
      · exact ih
      · cases hrel
      · cases hrel
      · cases hrel with
        | some hR => exact List.Forall₂.cons ⟨rfl, hR⟩ ih

/-! ## One pass over the wanted rows -/

variable (same : V → V → Bool)

/-- One wanted row; `s.1` is what is left of the rows that were stored at the start. -/
def syncRow (s : GoMap V × GoMap V) (want : Str × V) : GoMap V × GoMap V :=
  (s.1.erase want.1,
    if (s.1.lookup want.1).any (same · want.2) then s.2 else s.2.insert want.1 want.2)

/-- A map built from rows, the last one of a key counting. -/
def ofRows (rows : List (Str × V)) : GoMap V :=
  insertAll Prod.fst Prod.snd ∅ rows

theorem lookup_ofRows_concat (rows : List (Str × V)) (row : Str × V) (k : Str) :
    (ofRows (rows ++ [row])).lookup k =
      if k = row.1 then some row.2 else (ofRows rows).lookup k := by
  have hconcat : ofRows (rows ++ [row]) = (ofRows rows).insert row.1 row.2 := by
    unfold ofRows insertAll
    rw [List.foldl_append]
    rfl
  rw [hconcat, lookup_insert_eq]

theorem lookup_ofRows_isSome {rows : List (Str × V)} {k : Str} :
    ((ofRows rows).lookup k).isSome ↔ k ∈ rows.map Prod.fst := by
  induction rows using List.reverseRecOn with
  | nil => simp [ofRows, insertAll]
  | append_singleton rows row ih =>
      rw [lookup_ofRows_concat, List.map_append, List.mem_append, ← ih]
      by_cases hk : k = row.1 <;> simp [hk]

theorem mem_of_lookup_ofRows {rows : List (Str × V)} {k : Str} {v : V}
    (h : (ofRows rows).lookup k = some v) : (k, v) ∈ rows := by
  induction rows using List.reverseRecOn with
  | nil => simp [ofRows, insertAll] at h
  | append_singleton rows row ih =>
      rw [lookup_ofRows_concat] at h
      rw [List.mem_append, List.mem_singleton]
      split at h
      · rename_i hk
        exact Or.inr (Prod.ext hk (Option.some.inj h).symm)
      · exact Or.inl (ih h)

theorem lookup_ofRows_map (f : Str × V → W) (rows : List (Str × V)) (k : Str) :
    (ofRows (rows.map fun row => (row.1, f row))).lookup k =
      ((ofRows rows).lookup k).map fun v => f (k, v) := by
  induction rows using List.reverseRecOn with
  | nil => simp [ofRows, insertAll]
  | append_singleton rows row ih =>
      rw [List.map_append, List.map_singleton, lookup_ofRows_concat, lookup_ofRows_concat, ih]
      split
      · rename_i hk
        rw [hk]
        rfl
      · rfl

variable {same}

/-- What one pass leaves of the stored rows, and in the table: wanted keys have
their last wanted row, up to `same`, and the others are untouched. -/
theorem foldl_syncRow (hsame : ∀ v, same v v = true) (stored : GoMap V)
    (rows : List (Str × V)) :
    let s := rows.foldl (syncRow same) (stored, stored)
    ∀ k, (k ∉ rows.map Prod.fst →
        s.1.lookup k = stored.lookup k ∧ s.2.lookup k = stored.lookup k) ∧
      (k ∈ rows.map Prod.fst → s.1.lookup k = none ∧
        Option.Rel (fun v w => same v w = true) (s.2.lookup k) ((ofRows rows).lookup k)) := by
  induction rows using List.reverseRecOn with
  | nil => simp
  | append_singleton rows row ih =>
      intro s k
      have hs : s = syncRow same (rows.foldl (syncRow same) (stored, stored)) row := by
        simp only [s, List.foldl_append, List.foldl_cons, List.foldl_nil]
      rw [hs, lookup_ofRows_concat]
      generalize hmid : rows.foldl (syncRow same) (stored, stored) = mid at ih
      simp only [List.map_append, List.map_cons, List.map_nil, List.mem_append,
        List.mem_singleton, syncRow]
      rw [lookup_erase_eq]
      by_cases hk : k = row.1
      · subst hk
        refine ⟨fun hnot => absurd (Or.inr rfl) hnot, fun _ => ⟨if_pos rfl, ?_⟩⟩
        rw [if_pos rfl]
        split
        · rename_i hany
          -- the stored row is looked at for the first time and is the wanted one
          obtain ⟨v, hv⟩ : ∃ v, mid.1.lookup row.1 = some v := by
            rcases hlookup : mid.1.lookup row.1 with _ | v
            · simp [hlookup] at hany
            · exact ⟨v, rfl⟩
          have heq : same v row.2 = true := by simpa [hv] using hany
          have hfirst : row.1 ∉ rows.map Prod.fst := fun hin => by
            rw [((ih row.1).2 hin).1] at hv
            cases hv
          obtain ⟨hleft, hright⟩ := (ih row.1).1 hfirst
          rw [hright, ← hleft, hv]
          exact Option.Rel.some heq
        · rw [lookup_insert_eq, if_pos rfl]
          exact Option.Rel.some (hsame row.2)
      · have htable : (if (mid.1.lookup row.1).any (same · row.2) then mid.2
            else mid.2.insert row.1 row.2).lookup k = mid.2.lookup k := by
          split
          · rfl
          · rw [lookup_insert_eq, if_neg hk]
        rw [htable, if_neg hk, if_neg hk]
        simpa [hk] using ih k

/-! ## Deleting what is left -/

theorem lookup_foldl_erase (m : GoMap V) (keys : List Str) (k : Str) :
    (keys.foldl (fun m k => m.erase k) m).lookup k = if k ∈ keys then none else m.lookup k := by
  induction keys generalizing m with
  | nil => simp
  | cons key keys ih =>
      rw [List.foldl_cons, ih, lookup_erase_eq]
      by_cases hk : k ∈ keys <;> by_cases heq : k = key <;> simp [hk, heq]

theorem sync_lookup (hsame : ∀ v, same v v = true) (stored : GoMap V) (rows : List (Str × V))
    {keys : List Str} (hkeys : keys.Perm (rows.foldl (syncRow same) (stored, stored)).1.keys)
    (k : Str) :
    Option.Rel (fun v w => same v w = true)
      ((keys.foldl (fun m k => m.erase k)
        (rows.foldl (syncRow same) (stored, stored)).2).lookup k)
      ((ofRows rows).lookup k) := by
  obtain ⟨hother, hwanted⟩ := foldl_syncRow hsame stored rows k
  have hmem := hkeys.mem_iff.trans (mem_keys_iff (k := k))
  rw [lookup_foldl_erase]
  by_cases hk : k ∈ rows.map Prod.fst
  · obtain ⟨hleft, hrel⟩ := hwanted hk
    rw [if_neg (fun hin => by simp [hleft] at hmem; exact hmem hin)]
    exact hrel
  · obtain ⟨hleft, hright⟩ := hother hk
    have hnone : (ofRows rows).lookup k = none := by
      rw [← Option.not_isSome_iff_eq_none, lookup_ofRows_isSome]
      exact hk
    rw [hnone]
    split
    · exact Option.Rel.none
    · rename_i hout
      rw [hmem, hleft, Option.not_isSome_iff_eq_none] at hout
      rw [hright, hout]
      exact Option.Rel.none

theorem mem_leftover (hsame : ∀ v, same v v = true) (stored : GoMap V) (rows : List (Str × V))
    {k : Str} : k ∈ (rows.foldl (syncRow same) (stored, stored)).1.keys ↔
      (stored.lookup k).isSome ∧ k ∉ rows.map Prod.fst := by
  obtain ⟨hother, hwanted⟩ := foldl_syncRow hsame stored rows k
  rw [mem_keys_iff]
  by_cases hk : k ∈ rows.map Prod.fst
  · simp [(hwanted hk).1, hk]
  · simp only [(hother hk).1, hk, not_false_eq_true, and_true]

end Nipa.Support.GoMap
