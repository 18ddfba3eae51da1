import Mathlib.Data.List.Basic
import Mathlib.Data.List.Nodup

/-!
# Tables with a unique key

A table is a list of rows no two of which have the same key.  Rows are inserted where
their key is free, changed without touching the key, and deleted.
-/

namespace Nipa.Support

/-- Rows of which no two have the same key. -/
structure Rows {α κ : Type} (key : α → κ) where
  rows : List α
  nodup : (rows.map key).Nodup

namespace Rows

variable {α κ : Type} {key : α → κ}

instance : Membership α (Rows key) := ⟨fun t a => a ∈ t.rows⟩

instance : EmptyCollection (Rows key) := ⟨⟨[], List.nodup_nil⟩⟩

@[simp] theorem notMem_empty (a : α) : a ∉ (∅ : Rows key) := List.not_mem_nil

variable {t : Rows key} {a : α}

theorem eq_of_key {b : α} (ha : a ∈ t) (hb : b ∈ t) (h : key a = key b) : a = b :=
  List.inj_on_of_nodup_map t.nodup ha hb h

/-! ## Reading -/

/-- The first row that is selected. -/
def find? (t : Rows key) (selects : α → Bool) : Option α :=
  t.rows.find? selects

variable {selects : α → Bool}

theorem find?_some (h : t.find? selects = some a) : a ∈ t ∧ selects a :=
  ⟨List.mem_of_find?_eq_some h, List.find?_some h⟩

def any (t : Rows key) (selects : α → Bool) : Bool :=
  t.rows.any selects

theorem any_iff : t.any selects ↔ ∃ a ∈ t, selects a :=
  List.any_eq_true

/-! ## Writing -/

/-- No row goes in beside one with its key. -/
def insert? [DecidableEq κ] (t : Rows key) (a : α) : Option (Rows key) :=
  if h : key a ∈ t.rows.map key then none
  else some ⟨a :: t.rows, List.nodup_cons.mpr ⟨h, t.nodup⟩⟩

theorem mem_insert? [DecidableEq κ] {t' : Rows key} {b : α} (h : t.insert? a = some t') :
    b ∈ t' ↔ b = a ∨ b ∈ t := by
  unfold insert? at h
  split at h
  case isTrue => cases h
  case isFalse =>
      obtain rfl := Option.some.inj h
      exact List.mem_cons

theorem old_or_of_insert? [DecidableEq κ] {t' : Rows key} {P : α → Prop} (h : t.insert? a = some t')
    (ha : P a) : ∀ b ∈ t', b ∈ t ∨ P b := by
  intro b hb
  rcases (mem_insert? h).mp hb with rfl | hold
  · exact Or.inr ha
  · exact Or.inl hold

/-- The selected rows change, and keep their keys. -/
def update (t : Rows key) (selects : α → Bool) (set : α → α)
    (hset : ∀ a, key (set a) = key a) : Rows key where
  rows := t.rows.map fun a => if selects a then set a else a
  nodup := by
    have hkeys : (t.rows.map fun a => if selects a then set a else a).map key =
        t.rows.map key := by
      rw [List.map_map]
      apply List.map_congr_left
      intro a _
      rw [Function.comp_apply]
      split
      · exact hset a
      · rfl
    rw [hkeys]
    exact t.nodup

theorem mem_update {set : α → α} {hset : ∀ a, key (set a) = key a} {b : α} :
    b ∈ t.update selects set hset ↔ ∃ a ∈ t, (if selects a then set a else a) = b :=
  List.mem_map

/-- The selected rows go. -/
def delete (t : Rows key) (selects : α → Bool) : Rows key where
  rows := t.rows.filter fun a => !selects a
  nodup := t.nodup.sublist (List.filter_sublist.map _)

theorem mem_delete : a ∈ t.delete selects ↔ a ∈ t ∧ ¬selects a := by
  change a ∈ t.rows.filter _ ↔ _
  rw [List.mem_filter, Bool.not_eq_true']
  exact and_congr_right fun _ => (Bool.not_eq_true _).symm ▸ Iff.rfl

theorem mem_of_mem_delete (h : a ∈ t.delete selects) : a ∈ t :=
  (mem_delete.mp h).1

end Rows

end Nipa.Support
