import Mathlib.Data.List.Forall2
import Mathlib.Data.List.Nodup
import Mathlib.Data.List.TakeDrop
import Mathlib.Data.List.Sort

/-!
# Searching and mapping over lists

Looking up the element with a given key, and maps over a list that can fail.
-/

namespace Nipa.Support

section Keys

variable {α κ : Type}

theorem find?_congr_mem {l : List α} {p q : α → Bool} (h : ∀ x ∈ l, p x = q x) :
    l.find? p = l.find? q := by
  induction l with
  | nil => rfl
  | cons x xs ih =>
      rw [List.find?_cons, List.find?_cons, h x (by simp),
        ih fun y hy => h y (by simp [hy])]

variable [DecidableEq κ]

theorem find?_key_eq_some_iff {l : List α} {key : α → κ}
    (hnodup : (l.map key).Nodup) {k : κ} {x : α} :
    l.find? (fun y => key y = k) = some x ↔ x ∈ l ∧ key x = k := by
  constructor
  · intro h
    exact ⟨List.mem_of_find?_eq_some h, by simpa using List.find?_some h⟩
  · rintro ⟨hx, rfl⟩
    induction l with
    | nil => simp at hx
    | cons y ys ih =>
        rw [List.map_cons, List.nodup_cons] at hnodup
        rcases List.mem_cons.mp hx with rfl | hmem
        · simp
        · have hne : key y ≠ key x := by
            intro h
            exact hnodup.1 (h ▸ List.mem_map_of_mem hmem)
          rw [List.find?_cons_of_neg (by simpa using hne)]
          exact ih hnodup.2 hmem

/-- The value paired with a key. -/
def listed (l : List (κ × α)) (k : κ) : Option α :=
  (l.find? fun e => e.1 = k).map Prod.snd

variable {l : List (κ × α)}

theorem listed_eq_some_iff (hnodup : (l.map Prod.fst).Nodup) {k : κ} {v : α} :
    listed l k = some v ↔ (k, v) ∈ l := by
  rw [listed, Option.map_eq_some_iff]
  constructor
  · rintro ⟨⟨k', v'⟩, hfind, rfl⟩
    obtain ⟨hmem, rfl⟩ := (find?_key_eq_some_iff hnodup).mp hfind
    exact hmem
  · intro hmem
    exact ⟨(k, v), (find?_key_eq_some_iff hnodup).mpr ⟨hmem, rfl⟩, rfl⟩

theorem listed_eq_none_iff {k : κ} : listed l k = none ↔ k ∉ l.map Prod.fst := by
  rw [listed, Option.map_eq_none_iff, List.find?_eq_none]
  constructor
  · intro h hk
    obtain ⟨e, he, rfl⟩ := List.mem_map.mp hk
    simpa using h e he
  · intro h e he
    have hne : e.1 ≠ k := by
      rintro rfl
      exact h (List.mem_map_of_mem he)
    simpa using hne

theorem mem_of_listed {k : κ} {v : α} (h : listed l k = some v) : (k, v) ∈ l := by
  obtain ⟨⟨k', v'⟩, hfind, rfl⟩ := Option.map_eq_some_iff.mp h
  have hk : k' = k := by simpa using List.find?_some hfind
  exact hk ▸ List.mem_of_find?_eq_some hfind

theorem listed_isSome_iff {k : κ} : (listed l k).isSome ↔ k ∈ l.map Prod.fst := by
  rw [← not_iff_not, ← listed_eq_none_iff, Option.not_isSome_iff_eq_none]

theorem isSome_of_option_rel {β γ : Type} {R : β → γ → Prop} {a : Option β} {b : Option γ}
    (h : Option.Rel R a b) : a.isSome = b.isSome := by
  cases h <;> rfl

theorem option_rel_map_right {β γ δ : Type} {R : β → δ → Prop} {f : γ → δ} {a : Option β}
    {b : Option γ} : Option.Rel R a (b.map f) ↔ Option.Rel (fun x y => R x (f y)) a b := by
  rcases a with _ | x
  · rcases b with _ | y
    · exact ⟨fun _ => Option.Rel.none, fun _ => Option.Rel.none⟩
    · exact ⟨fun h => (nomatch h), fun h => (nomatch h)⟩
  · rcases b with _ | y
    · exact ⟨fun h => (nomatch h), fun h => (nomatch h)⟩
    · constructor
      · rintro (h | _)
        exact Option.Rel.some h
      · rintro (h | _)
        exact Option.Rel.some h

theorem option_rel_join {β γ δ : Type} {R : β → δ → Prop} {R' : γ → δ → Prop}
    {S : β → γ → Prop} {a : Option β} {b : Option γ} {c : Option δ} (h : Option.Rel R a c)
    (h' : Option.Rel R' b c) (hjoin : ∀ x y z, R x z → R' y z → S x y) : Option.Rel S a b := by
  cases h with
  | none =>
      cases h'
      exact Option.Rel.none
  | some hx =>
      cases h' with
      | some hy => exact Option.Rel.some (hjoin _ _ _ hx hy)

theorem option_rel_map {β γ : Type} {f : α → γ} {g : β → γ} {a : Option α} {b : Option β} :
    Option.Rel (fun x y => f x = g y) a b ↔ a.map f = b.map g := by
  rcases a with _ | x
  · rcases b with _ | y
    · exact ⟨fun _ => rfl, fun _ => Option.Rel.none⟩
    · exact ⟨fun h => (nomatch h), fun h => by simp at h⟩
  · rcases b with _ | y
    · exact ⟨fun h => (nomatch h), fun h => by simp at h⟩
    · constructor
      · rintro (h | _)
        rw [Option.map_some, Option.map_some, h]
      · intro h
        exact Option.Rel.some (by simpa using h)

theorem listed_map_key (l : List α) (key : α → κ) (k : κ) :
    listed (l.map fun x => (key x, x)) k = l.find? fun x => key x = k := by
  rw [listed, List.find?_map, Option.map_map]
  exact Option.map_id'

theorem listed_map_snd {β : Type} (l : List (κ × α)) (f : α → β) (k : κ) :
    listed (l.map fun e => (e.1, f e.2)) k = (listed l k).map f := by
  rw [listed, listed, List.find?_map, Option.map_map, Option.map_map]
  rfl

end Keys

section MapM

variable {α β : Type}

variable {l : List α}

theorem mapM_eq_some_iff {f : α → Option β} {ys : List β} :
    l.mapM f = some ys ↔ List.Forall₂ (fun x y => f x = some y) l ys := by
  induction l generalizing ys with
  | nil =>
      constructor
      · intro h
        have hys : [] = ys := by simpa using h
        subst hys
        exact List.Forall₂.nil
      · intro h
        rw [List.forall₂_nil_left_iff.mp h]
        rfl
  | cons x xs ih =>
      rw [List.forall₂_cons_left_iff]
      constructor
      · intro h
        rw [List.mapM_cons] at h
        obtain ⟨y, hy, hrest⟩ := Option.bind_eq_some_iff.mp h
        obtain ⟨zs, hzs, hcons⟩ := Option.bind_eq_some_iff.mp hrest
        exact ⟨y, zs, hy, ih.mp hzs, (Option.some.inj hcons).symm⟩
      · rintro ⟨y, zs, hy, hzs, rfl⟩
        rw [List.mapM_cons, hy, Option.bind_eq_bind, Option.bind_some, ih.mpr hzs]
        rfl

theorem mapM_isSome_of_forall {f : α → Option β} (h : ∀ x ∈ l, (f x).isSome) :
    ∃ ys, l.mapM f = some ys := by
  induction l with
  | nil => exact ⟨[], rfl⟩
  | cons x xs ih =>
      obtain ⟨y, hy⟩ := Option.isSome_iff_exists.mp (h x (by simp))
      obtain ⟨ys, hys⟩ := ih fun z hz => h z (by simp [hz])
      refine ⟨y :: ys, ?_⟩
      rw [mapM_eq_some_iff] at hys ⊢
      exact List.Forall₂.cons hy hys

variable {R : α → β → Prop} {l' : List β}

theorem forall₂_mem_left (h : List.Forall₂ R l l') {x : α} (hx : x ∈ l) : ∃ y ∈ l', R x y := by
  induction h with
  | nil => simp at hx
  | cons hR _ ih =>
      rcases List.mem_cons.mp hx with rfl | hx
      · exact ⟨_, by simp, hR⟩
      · obtain ⟨y, hy, hxy⟩ := ih hx
        exact ⟨y, by simp [hy], hxy⟩

theorem forall₂_mem_right (h : List.Forall₂ R l l') {y : β} (hy : y ∈ l') : ∃ x ∈ l, R x y := by
  induction h with
  | nil => simp at hy
  | cons hR _ ih =>
      rcases List.mem_cons.mp hy with rfl | hy
      · exact ⟨_, by simp, hR⟩
      · obtain ⟨x, hx, hxy⟩ := ih hy
        exact ⟨x, by simp [hx], hxy⟩

theorem forall₂_imp_of_mem {S : α → β → Prop} (h : List.Forall₂ R l l')
    (himp : ∀ x ∈ l, ∀ y, R x y → S x y) : List.Forall₂ S l l' := by
  induction h with
  | nil => exact List.Forall₂.nil
  | cons hR _ ih =>
      exact List.Forall₂.cons (himp _ (by simp) _ hR)
        (ih fun x hx => himp x (by simp [hx]))

theorem map_eq_of_forall₂ {f : β → α} (h : List.Forall₂ (fun x y => f y = x) l l') :
    l'.map f = l := by
  induction h with
  | nil => rfl
  | cons hR _ ih => rw [List.map_cons, hR, ih]

end MapM

section Ranges

/-- Pairwise different numbers, all above `lo` and none above `hi`. -/
def NumberedIn (lo hi : ℕ) (l : List ℕ) : Prop :=
  lo ≤ hi ∧ l.Nodup ∧ ∀ x ∈ l, lo < x ∧ x ≤ hi

theorem NumberedIn.nil (n : ℕ) : NumberedIn n n [] :=
  ⟨Nat.le_refl n, List.nodup_nil, by simp⟩

theorem NumberedIn.single (n : ℕ) : NumberedIn n (n + 1) [n + 1] :=
  ⟨by omega, List.nodup_singleton _, by simp⟩

theorem NumberedIn.append {lo mid hi : ℕ} {l l' : List ℕ} (h : NumberedIn lo mid l)
    (h' : NumberedIn mid hi l') : NumberedIn lo hi (l ++ l') := by
  obtain ⟨hle, hnd, hin⟩ := h
  obtain ⟨hle', hnd', hin'⟩ := h'
  refine ⟨Nat.le_trans hle hle', ?_, ?_⟩
  · rw [List.nodup_append]
    refine ⟨hnd, hnd', ?_⟩
    intro a ha b hb
    have := (hin a ha).2
    have := (hin' b hb).1
    omega
  · intro x hx
    rcases List.mem_append.mp hx with hx | hx
    · have := hin x hx
      omega
    · have := hin' x hx
      omega

theorem NumberedIn.perm {lo hi : ℕ} {l l' : List ℕ} (h : NumberedIn lo hi l)
    (hp : l.Perm l') : NumberedIn lo hi l' :=
  ⟨h.1, hp.nodup_iff.mp h.2.1, fun x hx => h.2.2 x (hp.mem_iff.mpr hx)⟩

end Ranges

section Counting

variable {α : Type} {p : α → Bool} {l : List α}

theorem countP_set_add (p : α → Bool) {i : ℕ} {a : α} (h : l[i]? = some a) (b : α) :
    (l.set i b).countP p + (p a).toNat = l.countP p + (p b).toNat := by
  induction l generalizing i with
  | nil => simp at h
  | cons x xs ih =>
      cases i with
      | zero =>
          obtain rfl : x = a := by simpa using h
          simp only [List.set_cons_zero, List.countP_cons]
          cases p x <;> cases p b <;> simp
      | succ i =>
          have hrest := ih (by simpa using h)
          simp only [List.set_cons_succ, List.countP_cons]
          omega

theorem two_le_countP {i k : ℕ} {a b : α} (hne : i ≠ k) (hi : l[i]? = some a)
    (hk : l[k]? = some b) (ha : p a = true) (hb : p b = true) : 2 ≤ l.countP p := by
  induction l generalizing i k with
  | nil => simp at hi
  | cons x xs ih =>
      have hone {n : ℕ} {c : α} (hn : xs[n]? = some c) (hc : p c = true) :
          0 < xs.countP p :=
        List.countP_pos_iff.mpr ⟨c, List.mem_of_getElem? hn, hc⟩
      cases i with
      | zero =>
          cases k with
          | zero => exact absurd rfl hne
          | succ k =>
              obtain rfl : x = a := by simpa using hi
              have hrest := hone (by simpa using hk) hb
              rw [List.countP_cons_of_pos ha]
              omega
      | succ i =>
          cases k with
          | zero =>
              obtain rfl : x = b := by simpa using hk
              have hrest := hone (by simpa using hi) ha
              rw [List.countP_cons_of_pos hb]
              omega
          | succ k =>
              have hrest : 2 ≤ xs.countP p :=
                ih (fun h => hne (congrArg Nat.succ h)) (by simpa using hi)
                  (by simpa using hk)
              exact Nat.le_trans hrest (List.sublist_cons_self x xs).countP_le

end Counting

/-! ## Cutting and sorting -/

/-- Where every element after a rejected one is rejected too, the elements that
pass come first. -/
theorem filter_eq_takeWhile {α : Type} {l : List α} {p : α → Bool}
    (h : l.Pairwise fun x y => p x = false → p y = false) : l.filter p = l.takeWhile p := by
  induction h with
  | nil => rfl
  | @cons x l hx _ ih =>
      rcases hp : p x
      · rw [List.filter_cons_of_neg (by simp [hp]), List.takeWhile_cons_of_neg (by simp [hp]),
          List.filter_eq_nil_iff]
        intro y hy
        simp [hx y hy hp]
      · rw [List.filter_cons_of_pos hp, List.takeWhile_cons_of_pos hp, ih]

/-- A run over the elements that pass stops after the first ones only when the next
element does not pass or the limit is there. -/
theorem take_takeWhile_eq_iff {α : Type} {new older : List α} {c : α} {p : α → Bool} {limit : ℕ}
    (hnew : ∀ x ∈ new, p x = true) :
    ((new ++ c :: older).takeWhile p).take limit = new ↔
      new.length ≤ limit ∧ (p c = false ∨ new.length = limit) := by
  rw [List.takeWhile_append_of_pos hnew]
  rcases hc : p c
  · rw [List.takeWhile_cons_of_neg (by simp [hc]), List.append_nil, List.take_eq_self_iff]
    simp
  · rw [List.takeWhile_cons_of_pos hc]
    constructor
    · intro h
      have hlen := congrArg List.length h
      rw [List.length_take, List.length_append, List.length_cons] at hlen
      exact ⟨by omega, Or.inr (by omega)⟩
    · rintro ⟨-, hfalse | hlen⟩
      · cases hfalse
      · rw [← hlen, List.take_left]

theorem insertionSort_eq_of_perm {α : Type} [LinearOrder α] {xs ys : List α} (h : xs.Perm ys) :
    xs.insertionSort (· ≤ ·) = ys.insertionSort (· ≤ ·) := by
  have hperm : (xs.insertionSort (· ≤ ·)).Perm (ys.insertionSort (· ≤ ·)) :=
    ((List.perm_insertionSort _ xs).trans h).trans (List.perm_insertionSort _ ys).symm
  refine hperm.eq_of_pairwise ?_ (List.pairwise_insertionSort (· ≤ ·) _)
    (List.pairwise_insertionSort (· ≤ ·) _)
  intro p q _ _ hpq hqp
  exact le_antisymm hpq hqp

end Nipa.Support
