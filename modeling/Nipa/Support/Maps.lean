import Nipa.Support.Checks
import Nipa.Support.Strings
import Nipa.Support.Lists
import Mathlib.Data.List.AList

/-!
# Finite maps built from lists

String-keyed finite maps, filled by running over a list and storing each
element under its key.  A later element replaces an earlier one with the same
key, so looking a key up finds its last occurrence in the list.
-/

namespace Nipa.Support

/-- A finite map with string keys. -/
abbrev GoMap (V : Type) := AList fun _ : Str => V

namespace GoMap

variable {V α : Type}

/-- The stored values, in no particular order. -/
def values (m : GoMap V) : List V :=
  m.entries.map Sigma.snd

theorem mem_values {m : GoMap V} {v : V} :
    v ∈ m.values ↔ ∃ k, m.lookup k = some v := by
  constructor
  · intro h
    obtain ⟨⟨k, w⟩, hmem, rfl⟩ := List.mem_map.mp h
    exact ⟨k, AList.mem_lookup_iff.mpr hmem⟩
  · rintro ⟨k, h⟩
    exact List.mem_map.mpr ⟨⟨k, v⟩, AList.mem_lookup_iff.mp h, rfl⟩

/-- Store every element of a list under its key. -/
def insertAll (key : α → Str) (val : α → V) (m : GoMap V) (l : List α) : GoMap V :=
  l.foldl (fun m x => m.insert (key x) (val x)) m

theorem lookup_insert_eq (m : GoMap V) (k k' : Str) (v : V) :
    (AList.insert k' v m).lookup k = if k = k' then some v else m.lookup k := by
  by_cases h : k = k'
  · subst h
    rw [if_pos rfl, AList.lookup_insert]
  · rw [if_neg h, AList.lookup_insert_ne h]

theorem lookup_erase_eq (m : GoMap V) (k k' : Str) :
    (AList.erase k' m).lookup k = if k = k' then none else m.lookup k := by
  by_cases h : k = k'
  · subst h
    rw [if_pos rfl, AList.lookup_erase]
  · rw [if_neg h, AList.lookup_erase_ne h]

theorem lookup_insertAll (key : α → Str) (val : α → V) (m : GoMap V)
    (l : List α) (k : Str) :
    (insertAll key val m l).lookup k =
      ((l.reverse.find? fun x => key x = k).map val).or (m.lookup k) := by
  induction l generalizing m with
  | nil => simp [insertAll]
  | cons x xs ih =>
      have hstep : insertAll key val m (x :: xs) =
          insertAll key val (AList.insert (key x) (val x) m) xs := rfl
      rw [hstep, ih, lookup_insert_eq, List.reverse_cons, List.find?_append]
      rcases hfind : xs.reverse.find? (fun x => key x = k) with _ | y
      · by_cases hk : key x = k
        · simp [hk]
        · simp [hk, Ne.symm hk]
      · simp

theorem lookup_insertAll_of_agree {key : α → Str} {val : α → V} {l : List α}
    (h : ∀ x ∈ l, ∀ y ∈ l, key x = key y → val x = val y) {k : Str} {v : V} :
    (insertAll key val ∅ l).lookup k = some v ↔ ∃ x ∈ l, key x = k ∧ val x = v := by
  rw [lookup_insertAll, AList.lookup_empty, Option.or_none, Option.map_eq_some_iff]
  constructor
  · rintro ⟨x, hfind, hv⟩
    exact ⟨x, List.mem_reverse.mp (List.mem_of_find?_eq_some hfind),
      by simpa using List.find?_some hfind, hv⟩
  · rintro ⟨x, hx, hk, hv⟩
    have hsome : (l.reverse.find? fun x => key x = k).isSome := by
      rw [List.find?_isSome]
      exact ⟨x, List.mem_reverse.mpr hx, by simpa using hk⟩
    obtain ⟨y, hy⟩ := Option.isSome_iff_exists.mp hsome
    have hyl := List.mem_reverse.mp (List.mem_of_find?_eq_some hy)
    have hyk : key y = k := by simpa using List.find?_some hy
    exact ⟨y, hy, (h y hyl x hx (hyk.trans hk.symm)).trans hv⟩

theorem lookup_insertAll_iff {key : α → Str} {l : List α}
    (h : ∀ x ∈ l, ∀ y ∈ l, key x = key y → x = y) {k : Str} {x : α} :
    (insertAll key (fun x => x) ∅ l).lookup k = some x ↔ x ∈ l ∧ key x = k := by
  rw [lookup_insertAll_of_agree h]
  constructor
  · rintro ⟨y, hy, hk, rfl⟩
    exact ⟨hy, hk⟩
  · rintro ⟨hx, hk⟩
    exact ⟨x, hx, hk, rfl⟩

theorem filterMap_nodup (m : GoMap V) {f : (Sigma fun _ : Str => V) → Option α}
    (key : α → Str) (hf : ∀ e a, f e = some a → key a = e.1) :
    (m.entries.filterMap f).Nodup := by
  rw [List.Nodup, List.pairwise_filterMap]
  have hkeys : m.entries.Pairwise fun e e' => e.1 ≠ e'.1 := List.pairwise_map.mp m.nodupKeys
  refine hkeys.imp ?_
  rintro e e' hne a ha b hb rfl
  exact hne ((hf e a ha).symm.trans (hf e' a hb))

/-! ## Loops over the entries -/

section Loops

variable {σ ε : Type} {f : σ → (Sigma fun _ : Str => V) → Except ε σ}
  {D : (Sigma fun _ : Str => V) → σ → σ → Prop} {R : Str → σ → σ → Prop}

/-- A loop whose steps change nothing but what belongs to their key does every step's
work and leaves the other keys alone. -/
theorem foldlM_entries (hrefl : ∀ k s, R k s s)
    (htrans : ∀ k s s' s'', R k s s' → R k s' s'' → R k s s'')
    (hbefore : ∀ e s s' s'', R e.1 s s' → D e s' s'' → D e s s'')
    (hafter : ∀ e s s' s'', D e s s' → R e.1 s' s'' → D e s s'')
    (hstep : ∀ e s s', f s e = .ok s' → D e s s' ∧ ∀ k, k ≠ e.1 → R k s s')
    {l : List (Sigma fun _ : Str => V)} (hl : l.NodupKeys) {s s' : σ}
    (h : l.foldlM f s = .ok s') :
    (∀ e ∈ l, D e s s') ∧ ∀ k, k ∉ l.keys → R k s s' := by
  induction l generalizing s with
  | nil =>
      obtain rfl := pure_eq_ok.mp h
      exact ⟨by simp, fun k _ => hrefl k s⟩
  | cons e rest ih =>
      rw [List.nodupKeys_cons] at hl
      rw [List.foldlM_cons] at h
      obtain ⟨mid, hmid, h⟩ := bind_eq_ok.mp h
      obtain ⟨hdone, hother⟩ := hstep e s mid hmid
      obtain ⟨hrest, hleft⟩ := ih hl.2 h
      refine ⟨?_, ?_⟩
      · intro e' he'
        rcases List.mem_cons.mp he' with rfl | he'
        · exact hafter e' s mid s' hdone (hleft e'.1 hl.1)
        · have hne : e'.1 ≠ e.1 := by
            intro heq
            exact hl.1 (heq ▸ List.mem_keys_of_mem he')
          exact hbefore e' s mid s' (hother e'.1 hne) (hrest e' he')
      · intro k hk
        rw [List.keys_cons, List.mem_cons, not_or] at hk
        exact htrans k s mid s' (hother k hk.1) (hleft k hk.2)

end Loops

/-! ## Values that know their key -/

section Named

variable {m : GoMap V} {name : V → Str}

theorem names_nodup (h : ∀ k v, m.lookup k = some v → name v = k) :
    (m.values.map name).Nodup := by
  have hkeys : m.values.map name = m.keys := by
    rw [values, List.map_map]
    apply List.map_congr_left
    rintro ⟨k, v⟩ hmem
    exact h k v (AList.mem_lookup_iff.mpr hmem)
  rw [hkeys]
  exact m.keys_nodup

theorem listed_of_perm (h : ∀ k v, m.lookup k = some v → name v = k) {l : List V}
    (hl : l.Perm m.values) (k : Str) :
    listed (l.map fun v => (name v, v)) k = m.lookup k := by
  have hnodup : ((l.map fun v => (name v, v)).map Prod.fst).Nodup := by
    rw [List.map_map]
    exact ((hl.map name).nodup_iff).mpr (names_nodup h)
  ext v
  rw [listed_eq_some_iff hnodup]
  constructor
  · intro hmem
    obtain ⟨w, hw, heq⟩ := List.mem_map.mp hmem
    obtain ⟨rfl, rfl⟩ := Prod.mk.inj heq
    obtain ⟨k', hk'⟩ := mem_values.mp (hl.mem_iff.mp hw)
    rwa [h k' w hk']
  · intro hk
    refine List.mem_map.mpr ⟨v, hl.mem_iff.mpr (mem_values.mpr ⟨k, hk⟩), ?_⟩
    rw [h k v hk]

end Named

end GoMap

end Nipa.Support
