import Mathlib.Data.Finset.Card
import Mathlib.Data.List.Nodup
import Mathlib.Logic.Relation
import Mathlib.Order.MinMax

/-!
# Ancestry and the first meeting of two searches

Walks from a node to its ancestors are listed by length, in the order in which
parents are taken.  Two breadth-first searches that take turns meet at an
ancestor of both; the meetings are ordered by the turn they happen in, and
within one turn by the order of the walks.  Where every node has one parent at most the
first meeting is at the nearest common ancestor.  A search that drops nodes it has
seen before meets first where the search that drops nothing does.  Adding parents to a
list of nodes for long enough finds all ancestors.
-/

namespace Nipa.Support

/-! ## Lists without repetitions -/

section Thin

variable {N : Type} [DecidableEq N]

/-- The elements of a list that are new, each at its first occurrence. -/
def thin (seen : List N) : List N → List N
  | [] => []
  | x :: l => if x ∈ seen then thin seen l else x :: thin (x :: seen) l

example : thin [] [1, 2, 1] = [1, 2] := by simp [thin]

variable {seen : List N}

theorem mem_thin {l : List N} {x : N} : x ∈ thin seen l ↔ x ∈ l ∧ x ∉ seen := by
  induction l generalizing seen with
  | nil => simp [thin]
  | cons y l ih =>
      rw [thin]
      by_cases hy : y ∈ seen
      · rw [if_pos hy, ih]
        constructor
        · rintro ⟨hx, hns⟩
          exact ⟨List.mem_cons_of_mem _ hx, hns⟩
        · rintro ⟨hx, hns⟩
          rcases List.mem_cons.mp hx with rfl | hx
          · exact absurd hy hns
          · exact ⟨hx, hns⟩
      · rw [if_neg hy, List.mem_cons, ih]
        constructor
        · rintro (rfl | ⟨hx, hns⟩)
          · exact ⟨by simp, hy⟩
          · exact ⟨List.mem_cons_of_mem _ hx, fun h => hns (List.mem_cons_of_mem _ h)⟩
        · rintro ⟨hx, hns⟩
          by_cases hxy : x = y
          · exact Or.inl hxy
          · refine Or.inr ⟨(List.mem_cons.mp hx).resolve_left hxy, ?_⟩
            intro hmem
            exact hns ((List.mem_cons.mp hmem).resolve_left hxy)

theorem thin_sublist (seen l : List N) : (thin seen l).Sublist l := by
  induction l generalizing seen with
  | nil => exact List.Sublist.refl _
  | cons y l ih =>
      rw [thin]
      split
      · exact (ih seen).cons y
      · exact (ih (y :: seen)).cons_cons y

theorem thin_nodup (seen l : List N) : (thin seen l).Nodup := by
  induction l generalizing seen with
  | nil => exact List.nodup_nil
  | cons y l ih =>
      rw [thin]
      split
      · exact ih seen
      · exact List.nodup_cons.mpr ⟨fun hy => (mem_thin.mp hy).2 List.mem_cons_self, ih _⟩

theorem thin_congr {seen' : List N} (h : ∀ x, x ∈ seen ↔ x ∈ seen') (l : List N) :
    thin seen l = thin seen' l := by
  induction l generalizing seen seen' with
  | nil => rfl
  | cons y l ih =>
      rw [thin, thin, ih h]
      by_cases hy : y ∈ seen
      · rw [if_pos hy, if_pos ((h y).mp hy)]
      · rw [if_neg hy, if_neg (fun hy' => hy ((h y).mpr hy'))]
        have hcons : ∀ x, x ∈ y :: seen ↔ x ∈ y :: seen' := by simp [h]
        rw [ih hcons]

theorem thin_append (seen l l' : List N) :
    thin seen (l ++ l') = thin seen l ++ thin (l ++ seen) l' := by
  induction l generalizing seen with
  | nil => rfl
  | cons y l ih =>
      rw [List.cons_append, thin, thin]
      by_cases hy : y ∈ seen
      · rw [if_pos hy, if_pos hy, ih]
        refine congrArg _ (thin_congr ?_ _)
        intro x
        simp only [List.mem_append, List.cons_append, List.mem_cons]
        constructor
        · exact Or.inr
        · rintro (rfl | h)
          · exact Or.inr hy
          · exact h
      · rw [if_neg hy, if_neg hy, ih, List.cons_append]
        refine congrArg _ (congrArg _ (thin_congr ?_ _))
        intro x
        simp only [List.mem_append, List.cons_append, List.mem_cons]
        constructor
        · rintro (h | h | h)
          · exact Or.inr (Or.inl h)
          · exact Or.inl h
          · exact Or.inr (Or.inr h)
        · rintro (h | h | h)
          · exact Or.inr (Or.inl h)
          · exact Or.inl h
          · exact Or.inr (Or.inr h)

theorem thin_eq_nil {l : List N} (h : ∀ x ∈ l, x ∈ seen) : thin seen l = [] := by
  rw [List.eq_nil_iff_forall_not_mem]
  intro x hx
  obtain ⟨hl, hns⟩ := mem_thin.mp hx
  exact hns (h x hl)

theorem thin_flatMap_thin {f : N → List N} {old : List N} (h : ∀ x ∈ old, ∀ y ∈ f x, y ∈ seen)
    (l : List N) : thin seen ((thin old l).flatMap f) = thin seen (l.flatMap f) := by
  induction l generalizing old seen with
  | nil => rfl
  | cons x l ih =>
      rw [thin, List.flatMap_cons, thin_append]
      by_cases hx : x ∈ old
      · rw [if_pos hx, ih h, thin_eq_nil (h x hx), List.nil_append]
        refine thin_congr ?_ _
        intro y
        rw [List.mem_append]
        constructor
        · exact Or.inr
        · rintro (hy | hy)
          · exact h x hx y hy
          · exact hy
      · rw [if_neg hx, List.flatMap_cons, thin_append]
        refine congrArg _ (ih ?_)
        intro y hy z hz
        rw [List.mem_append]
        rcases List.mem_cons.mp hy with rfl | hy
        · exact Or.inl hz
        · exact Or.inr (h y hy z hz)

theorem find?_flatMap_thin {f : N → List N} {p : N → Bool} {old : List N}
    (h : ∀ x ∈ old, ∀ y ∈ f x, ¬ p y) (l : List N) :
    ((thin old l).flatMap f).find? p = (l.flatMap f).find? p := by
  induction l generalizing old with
  | nil => rfl
  | cons x l ih =>
      rw [thin, List.flatMap_cons, List.find?_append]
      by_cases hx : x ∈ old
      · have hnone : (f x).find? p = none := List.find?_eq_none.mpr (h x hx)
        rw [if_pos hx, ih h, hnone, Option.none_or]
      · rw [if_neg hx, List.flatMap_cons, List.find?_append]
        rcases hfind : (f x).find? p with _ | y
        · rw [Option.none_or, Option.none_or]
          refine ih ?_
          intro y hy z hz
          rcases List.mem_cons.mp hy with rfl | hy
          · exact List.find?_eq_none.mp hfind z hz
          · exact h y hy z hz
        · rfl

end Thin

/-! ## Walks -/

section Walks

variable {N : Type} (parents : N → List N)

/-- The ends of the walks of one length, in the order of the walks. -/
def walks (a : N) : ℕ → List N
  | 0 => [a]
  | r + 1 => (walks a r).flatMap parents

/-- The node itself, a parent, a parent of a parent, and so on. -/
def Ancestor (x a : N) : Prop :=
  Relation.ReflTransGen (fun y p => p ∈ parents y) a x

/-- Reached by a walk of at most the given length. -/
def Within (a : N) (r : ℕ) (x : N) : Prop :=
  ∃ i ≤ r, x ∈ walks parents a i

def CommonAncestor (a c x : N) : Prop :=
  Ancestor parents x a ∧ Ancestor parents x c

/-- A common ancestor that no other common ancestor descends from. -/
def MaximalCommonAncestor (a c x : N) : Prop :=
  CommonAncestor parents a c x ∧
    ∀ y, CommonAncestor parents a c y → Ancestor parents x y → y = x

variable {parents}

variable {x a : N}

theorem ancestor_iff_walks : Ancestor parents x a ↔ ∃ r, x ∈ walks parents a r := by
  constructor
  · intro h
    induction h with
    | refl => exact ⟨0, by simp [walks]⟩
    | tail _ hstep ih =>
        obtain ⟨r, hr⟩ := ih
        exact ⟨r + 1, List.mem_flatMap.mpr ⟨_, hr, hstep⟩⟩
  · rintro ⟨r, hr⟩
    induction r generalizing x with
    | zero =>
        obtain rfl := List.mem_singleton.mp hr
        exact Relation.ReflTransGen.refl
    | succ r ih =>
        obtain ⟨y, hy, hxy⟩ := List.mem_flatMap.mp hr
        exact (ih hy).tail hxy

theorem Ancestor.trans {y : N} (h : Ancestor parents x y) (h' : Ancestor parents y a) :
    Ancestor parents x a :=
  Relation.ReflTransGen.trans h' h

theorem Ancestor.mono {parents' : N → List N} (h : Ancestor parents' x a)
    (hsub : ∀ y, ∀ p ∈ parents' y, p ∈ parents y) : Ancestor parents x a :=
  Relation.ReflTransGen.mono hsub _ _ h

theorem within_succ {r : ℕ} :
    Within parents a (r + 1) x ↔ Within parents a r x ∨ x ∈ walks parents a (r + 1) := by
  constructor
  · rintro ⟨i, hi, hx⟩
    rcases Nat.lt_or_ge r i with hlt | hle
    · obtain rfl : i = r + 1 := by omega
      exact Or.inr hx
    · exact Or.inl ⟨i, hle, hx⟩
  · rintro (⟨i, hi, hx⟩ | hx)
    · exact ⟨i, by omega, hx⟩
    · exact ⟨r + 1, le_refl _, hx⟩

theorem Within.ancestor {r : ℕ} (h : Within parents a r x) : Ancestor parents x a := by
  obtain ⟨i, -, hx⟩ := h
  exact ancestor_iff_walks.mpr ⟨i, hx⟩

/-- Where the walks of one length end in nodes reached before, nothing new is
reached any more. -/
theorem within_of_ancestor {r : ℕ} (h : ∀ x ∈ walks parents a r, ∃ i < r, x ∈ walks parents a i)
    (hx : Ancestor parents x a) : Within parents a r x := by
  have hstep : ∀ s, ∀ y ∈ walks parents a s, ∃ i < max r 1, y ∈ walks parents a i := by
    intro s
    induction s with
    | zero =>
        intro y hy
        exact ⟨0, by omega, hy⟩
    | succ s ih =>
        intro y hy
        obtain ⟨z, hz, hyz⟩ := List.mem_flatMap.mp hy
        obtain ⟨i, hi, hzi⟩ := ih z hz
        have hyi : y ∈ walks parents a (i + 1) := List.mem_flatMap.mpr ⟨z, hzi, hyz⟩
        rcases Nat.lt_or_ge (i + 1) (max r 1) with hlt | hge
        · exact ⟨i + 1, hlt, hyi⟩
        · rcases r with _ | r
          · obtain ⟨j, hj, -⟩ := h a (by simp [walks])
            omega
          · have hir : i + 1 = r + 1 := by omega
            rw [hir] at hyi
            obtain ⟨j, hj, hyj⟩ := h y hyi
            exact ⟨j, by omega, hyj⟩
  obtain ⟨s, hs⟩ := ancestor_iff_walks.mp hx
  obtain ⟨i, hi, hxi⟩ := hstep s x hs
  rcases r with _ | r
  · exact ⟨i, by omega, hxi⟩
  · exact ⟨i, by omega, hxi⟩

theorem MaximalCommonAncestor.eq_of_ancestor {c : N} (h : MaximalCommonAncestor parents a c x)
    (hac : Ancestor parents a c) : x = a :=
  (h.2 a ⟨Relation.ReflTransGen.refl, hac⟩ h.1.1).symm

end Walks

/-! ## Meetings -/

section Meetings

variable {N : Type} (parents : N → List N)

/-- The walks a turn extends: `c`'s in even turns, `a`'s in odd ones. -/
def line (a c : N) (t : ℕ) : List N :=
  if t % 2 = 0 then walks parents c (t / 2) else walks parents a (t / 2 + 1)

/-- What the other side has reached when the turn comes. -/
def Waiting (a c : N) (t : ℕ) (x : N) : Prop :=
  if t % 2 = 0 then Within parents a (t / 2) x else Within parents c (t / 2) x

/-- A turn ends a walk where the other side has been. -/
def Meets (a c : N) (t : ℕ) (x : N) : Prop :=
  x ∈ line parents a c t ∧ Waiting parents a c t x

variable {parents}

theorem Meets.commonAncestor {a c x : N} {t : ℕ} (h : Meets parents a c t x) :
    CommonAncestor parents a c x := by
  obtain ⟨hline, hwait⟩ := h
  rw [line] at hline
  rw [Waiting] at hwait
  split at hline
  next heven =>
    rw [if_pos heven] at hwait
    exact ⟨hwait.ancestor, ancestor_iff_walks.mpr ⟨_, hline⟩⟩
  next hodd =>
    rw [if_neg hodd] at hwait
    exact ⟨ancestor_iff_walks.mpr ⟨_, hline⟩, hwait.ancestor⟩

theorem line_even (a c : N) (r : ℕ) : line parents a c (2 * r) = walks parents c r := by
  rw [line, if_pos (by omega), Nat.mul_div_cancel_left r (by omega)]

theorem line_odd (a c : N) (r : ℕ) :
    line parents a c (2 * r + 1) = walks parents a (r + 1) := by
  rw [line, if_neg (by omega), show (2 * r + 1) / 2 = r by omega]

theorem meets_even {a c x : N} {r : ℕ} :
    Meets parents a c (2 * r) x ↔ x ∈ walks parents c r ∧ Within parents a r x := by
  rw [Meets, line_even, Waiting, if_pos (by omega), Nat.mul_div_cancel_left r (by omega)]

theorem meets_odd {a c x : N} {r : ℕ} :
    Meets parents a c (2 * r + 1) x ↔
      x ∈ walks parents a (r + 1) ∧ Within parents c r x := by
  rw [Meets, line_odd, Waiting, if_neg (by omega), show (2 * r + 1) / 2 = r by omega]

/-- Whatever both sides reach is met, no later than the longer of the walks
allows. -/
theorem exists_meets {a c x : N} {r : ℕ} (ha : Within parents a r x)
    (hc : Within parents c r x) : ∃ t ≤ 2 * r, Meets parents a c t x := by
  obtain ⟨i, hi, hx⟩ := ha
  obtain ⟨j, hj, hy⟩ := hc
  rcases Nat.lt_or_ge j i with hlt | hge
  · obtain ⟨i, rfl⟩ : ∃ k, i = k + 1 := ⟨i - 1, by omega⟩
    exact ⟨2 * i + 1, by omega, meets_odd.mpr ⟨hx, j, by omega, hy⟩⟩
  · exact ⟨2 * j, by omega, meets_even.mpr ⟨hy, i, hge, hx⟩⟩

section Order

variable (parents) [DecidableEq N]

/-- Some meeting at `z` is before every meeting at `x`: in an earlier turn, or
earlier in the same turn. -/
def MetBefore (a c z x : N) : Prop :=
  ∃ t, Meets parents a c t z ∧ ∀ s, Meets parents a c s x →
    t < s ∨ t = s ∧ (line parents a c t).idxOf z < (line parents a c t).idxOf x

/-- The first meeting is at `x`. -/
def FirstMet (a c x : N) : Prop :=
  ∃ t, Meets parents a c t x ∧ ∀ s y, Meets parents a c s y →
    t < s ∨ t = s ∧ (line parents a c t).idxOf x ≤ (line parents a c t).idxOf y

variable {parents}

/-- The first meeting is at a maximal common ancestor exactly when every common
ancestor that is not maximal has one that is met before it. -/
theorem FirstMet.maximal_iff {a c x : N} (h : FirstMet parents a c x) :
    MaximalCommonAncestor parents a c x ↔ ∀ y, CommonAncestor parents a c y →
      ¬ MaximalCommonAncestor parents a c y → ∃ z, MetBefore parents a c z y := by
  obtain ⟨t, hx, hfirst⟩ := h
  constructor
  · intro hmax y hy hny
    refine ⟨x, t, hx, ?_⟩
    intro s hs
    rcases hfirst s y hs with hlt | ⟨rfl, hle⟩
    · exact Or.inl hlt
    · refine Or.inr ⟨rfl, lt_of_le_of_ne hle ?_⟩
      intro heq
      have hxy : x = y := (List.idxOf_inj hx.1).mp heq
      exact hny (hxy ▸ hmax)
  · intro hcond
    by_contra hnot
    obtain ⟨z, s, hz, hbefore⟩ := hcond x hx.commonAncestor hnot
    rcases hbefore t hx with hlt | ⟨rfl, hlt⟩
    · rcases hfirst s z hz with h | ⟨h, -⟩
      · omega
      · omega
    · rcases hfirst s z hz with h | ⟨-, h⟩
      · omega
      · omega

theorem FirstMet.unique {a c x y : N} (hx : FirstMet parents a c x)
    (hy : FirstMet parents a c y) : x = y := by
  obtain ⟨t, hxt, hxfirst⟩ := hx
  obtain ⟨s, hys, hyfirst⟩ := hy
  rcases hxfirst s y hys with hlt | ⟨rfl, hle⟩
  · rcases hyfirst t x hxt with hgt | ⟨heq, -⟩
    · omega
    · omega
  · rcases hyfirst t x hxt with hgt | ⟨-, hge⟩
    · omega
    · exact (List.idxOf_inj hxt.1).mp (le_antisymm hle hge)

theorem firstMet_of_find? {a c x : N} {t : ℕ} {p : N → Bool}
    (hp : ∀ y, p y ↔ Waiting parents a c t y) (hnone : ∀ s < t, ∀ y, ¬ Meets parents a c s y)
    (hfind : (line parents a c t).find? p = some x) : FirstMet parents a c x := by
  refine ⟨t, ⟨List.mem_of_find?_eq_some hfind, (hp x).mp (List.find?_some hfind)⟩, ?_⟩
  intro s y hy
  rcases Nat.lt_trichotomy t s with hlt | rfl | hgt
  · exact Or.inl hlt
  · refine Or.inr ⟨rfl, ?_⟩
    obtain ⟨-, pre, post, heq, hpre⟩ := List.find?_eq_some_iff_append.mp hfind
    have hxpre : x ∉ pre := by
      intro hmem
      have := hpre x hmem
      rw [List.find?_some hfind] at this
      simp at this
    have hypre : y ∉ pre := by
      intro hmem
      have := hpre y hmem
      rw [(hp y).mpr hy.2] at this
      simp at this
    rw [heq, List.idxOf_append_of_notMem hxpre, List.idxOf_append_of_notMem hypre,
      List.idxOf_cons_self]
    omega
  · exact absurd hy (hnone s hgt y)

end Order

end Meetings

/-! ## Straight histories -/

section Straight

variable {N : Type} {parents : N → List N}

/-- A common ancestor that descends from every other one. -/
def NearestCommonAncestor (parents : N → List N) (a c x : N) : Prop :=
  CommonAncestor parents a c x ∧ ∀ y, CommonAncestor parents a c y → Ancestor parents y x

/-- No node is a proper ancestor of itself. -/
def Acyclic (parents : N → List N) : Prop :=
  ∀ x y, Ancestor parents x y → Ancestor parents y x → x = y

/-- Every node the history of `a` reaches has at most one parent. -/
def Straight (parents : N → List N) (a : N) : Prop :=
  ∀ y, Ancestor parents y a → (parents y).length ≤ 1

variable {a x : N}

theorem NearestCommonAncestor.unique (hacyclic : Acyclic parents) {c y : N}
    (hx : NearestCommonAncestor parents a c x) (hy : NearestCommonAncestor parents a c y) : y = x :=
  hacyclic y x (hx.2 y hy.1) (hy.2 x hx.1)

theorem mem_walks_add {r s : ℕ} :
    x ∈ walks parents a (r + s) ↔ ∃ y ∈ walks parents a r, x ∈ walks parents y s := by
  induction s generalizing x with
  | zero =>
      constructor
      · intro hx
        exact ⟨x, hx, by simp [walks]⟩
      · rintro ⟨y, hy, hx⟩
        rwa [List.mem_singleton.mp hx]
  | succ s ih =>
      rw [← Nat.add_assoc, walks, List.mem_flatMap]
      constructor
      · rintro ⟨z, hz, hxz⟩
        obtain ⟨y, hy, hzy⟩ := ih.mp hz
        exact ⟨y, hy, List.mem_flatMap.mpr ⟨z, hzy, hxz⟩⟩
      · rintro ⟨y, hy, hx⟩
        obtain ⟨z, hzy, hxz⟩ := List.mem_flatMap.mp hx
        exact ⟨z, ih.mpr ⟨y, hy, hzy⟩, hxz⟩

theorem Straight.walks_unique (h : Straight parents a) {r : ℕ} {y : N} (hx : x ∈ walks parents a r)
    (hy : y ∈ walks parents a r) : x = y := by
  induction r generalizing x y with
  | zero => exact (List.mem_singleton.mp hx).trans (List.mem_singleton.mp hy).symm
  | succ r ih =>
      obtain ⟨z, hz, hxz⟩ := List.mem_flatMap.mp hx
      obtain ⟨w, hw, hyw⟩ := List.mem_flatMap.mp hy
      obtain rfl := ih hz hw
      have hlen := h z (ancestor_iff_walks.mpr ⟨r, hz⟩)
      rcases hparents : parents z with _ | ⟨p, ps⟩
      · rw [hparents] at hxz
        cases hxz
      · rw [hparents] at hxz hyw hlen
        obtain rfl : ps = [] := by simpa using hlen
        exact (List.mem_singleton.mp hxz).trans (List.mem_singleton.mp hyw).symm

theorem Straight.total {y : N} (h : Straight parents a) (hx : Ancestor parents x a)
    (hy : Ancestor parents y a) : Ancestor parents x y ∨ Ancestor parents y x := by
  obtain ⟨r, hr⟩ := ancestor_iff_walks.mp hx
  obtain ⟨s, hs⟩ := ancestor_iff_walks.mp hy
  rcases Nat.le_total r s with hle | hle
  · obtain ⟨k, rfl⟩ := Nat.exists_eq_add_of_le hle
    obtain ⟨z, hz, hyz⟩ := mem_walks_add.mp hs
    obtain rfl := h.walks_unique hr hz
    exact Or.inr (ancestor_iff_walks.mpr ⟨k, hyz⟩)
  · obtain ⟨k, rfl⟩ := Nat.exists_eq_add_of_le hle
    obtain ⟨z, hz, hxz⟩ := mem_walks_add.mp hr
    obtain rfl := h.walks_unique hs hz
    exact Or.inl (ancestor_iff_walks.mpr ⟨k, hxz⟩)

theorem Straight.passed_before {y : N} {r : ℕ} (h : Straight parents a) (hacyclic : Acyclic parents)
    (hx : x ∈ walks parents a r) (hy : Ancestor parents y a) (hxy : Ancestor parents x y)
    (hne : x ≠ y) : ∃ i < r, y ∈ walks parents a i := by
  obtain ⟨i, hi⟩ := ancestor_iff_walks.mp hy
  refine ⟨i, ?_, hi⟩
  by_contra hge
  obtain ⟨k, rfl⟩ := Nat.exists_eq_add_of_le (Nat.le_of_not_lt hge)
  obtain ⟨z, hz, hyz⟩ := mem_walks_add.mp hi
  obtain rfl := h.walks_unique hx hz
  exact hne (hacyclic x y hxy (ancestor_iff_walks.mpr ⟨k, hyz⟩))

theorem FirstMet.nearest [DecidableEq N] {c : N} (h : FirstMet parents a c x)
    (hacyclic : Acyclic parents) (ha : Straight parents a) (hc : Straight parents c) :
    NearestCommonAncestor parents a c x := by
  obtain ⟨t, hx, hfirst⟩ := h
  refine ⟨hx.commonAncestor, ?_⟩
  rintro y ⟨hya, hyc⟩
  rcases ha.total hya hx.commonAncestor.1 with hyx | hxy
  · exact hyx
  · by_contra hnot
    have hne : x ≠ y := by
      rintro rfl
      exact hnot Relation.ReflTransGen.refl
    -- both sides pass `y` before they meet at `x`
    have hnear : ∀ {b : N} {r : ℕ}, Straight parents b → Ancestor parents y b →
        Within parents b r x → ∃ i < r, y ∈ walks parents b i := by
      rintro b r hb hyb ⟨i, hi, hxi⟩
      obtain ⟨j, hj, hyj⟩ := hb.passed_before hacyclic hxi hyb hxy hne
      exact ⟨j, by omega, hyj⟩
    have hearly : ∃ s < t, Meets parents a c s y := by
      obtain ⟨r, rfl | rfl⟩ : ∃ r, t = 2 * r ∨ t = 2 * r + 1 := ⟨t / 2, by omega⟩
      · obtain ⟨hxc, hxa⟩ := meets_even.mp hx
        obtain ⟨i, hi, hyi⟩ := hnear ha hya hxa
        obtain ⟨j, hj, hyj⟩ := hc.passed_before hacyclic hxc hyc hxy hne
        obtain ⟨s, hs, hmeets⟩ := exists_meets (⟨i, by omega, hyi⟩ : Within parents a (r - 1) y)
          ⟨j, by omega, hyj⟩
        exact ⟨s, by omega, hmeets⟩
      · obtain ⟨hxa, hxc⟩ := meets_odd.mp hx
        obtain ⟨i, hi, hyi⟩ := ha.passed_before hacyclic hxa hya hxy hne
        obtain ⟨j, hj, hyj⟩ := hnear hc hyc hxc
        obtain ⟨s, hs, hmeets⟩ := exists_meets (⟨i, by omega, hyi⟩ : Within parents a r y)
          ⟨j, by omega, hyj⟩
        exact ⟨s, by omega, hmeets⟩
    obtain ⟨s, hs, hmeets⟩ := hearly
    rcases hfirst s y hmeets with hlt | ⟨heq, -⟩
    · omega
    · omega

end Straight

/-! ## One side of the search -/

section Frontier

variable {N : Type} [DecidableEq N] {parents : N → List N}

/-- After `r` rounds a side has seen what is within reach and queues the nodes
reached for the first time, in the order of the walks. -/
structure Frontier (parents : N → List N) (a : N) (r : ℕ) (seen queue : List N) : Prop where
  mem_seen : ∀ x, x ∈ seen ↔ Within parents a r x
  queue_eq : ∃ old, (∀ x, x ∈ old ↔ ∃ i < r, x ∈ walks parents a i) ∧
    queue = thin old (walks parents a r)

theorem Frontier.start (a : N) : Frontier parents a 0 [a] [a] := by
  constructor
  · intro x
    constructor
    · intro hx
      exact ⟨0, le_refl 0, hx⟩
    · rintro ⟨i, hi, hx⟩
      obtain rfl : i = 0 := by omega
      exact hx
  · exact ⟨[], by simp, rfl⟩

theorem Frontier.mem_seen_of_queue_nil {a : N} {r : ℕ} {seen : List N}
    (h : Frontier parents a r seen []) {x : N} (hx : Ancestor parents x a) : x ∈ seen := by
  obtain ⟨old, hold, hq⟩ := h.queue_eq
  refine (h.mem_seen x).mpr (within_of_ancestor ?_ hx)
  intro y hy
  by_contra hne
  have hmem : y ∈ thin old (walks parents a r) :=
    mem_thin.mpr ⟨hy, fun hyo => hne ((hold y).mp hyo)⟩
  rw [← hq] at hmem
  simp at hmem

theorem Frontier.find?_eq {a : N} {r : ℕ} {seen queue : List N}
    (h : Frontier parents a r seen queue) {p : N → Bool}
    (hp : ∀ x, Within parents a r x → ¬ p x) :
    (queue.flatMap parents).find? p = (walks parents a (r + 1)).find? p := by
  obtain ⟨old, hold, rfl⟩ := h.queue_eq
  refine find?_flatMap_thin ?_ _
  intro x hx y hy
  obtain ⟨i, hi, hxi⟩ := (hold x).mp hx
  exact hp y ⟨i + 1, by omega, List.mem_flatMap.mpr ⟨x, hxi, hy⟩⟩

theorem Frontier.next {a : N} {r : ℕ} {seen queue : List N}
    (h : Frontier parents a r seen queue) :
    Frontier parents a (r + 1) ((thin seen (queue.flatMap parents)).reverse ++ seen)
      (thin seen (queue.flatMap parents)) := by
  obtain ⟨old, hold, rfl⟩ := h.queue_eq
  have hnext : thin seen ((thin old (walks parents a r)).flatMap parents) =
      thin seen (walks parents a (r + 1)) := by
    refine thin_flatMap_thin ?_ _
    intro x hx y hy
    obtain ⟨i, hi, hxi⟩ := (hold x).mp hx
    exact (h.mem_seen y).mpr ⟨i + 1, by omega, List.mem_flatMap.mpr ⟨x, hxi, hy⟩⟩
  rw [hnext]
  constructor
  · intro x
    rw [List.mem_append, List.mem_reverse, mem_thin, h.mem_seen, within_succ]
    by_cases hw : Within parents a r x
    · simp [hw]
    · simp [hw]
  · refine ⟨seen, ?_, rfl⟩
    intro x
    rw [h.mem_seen]
    constructor
    · rintro ⟨i, hi, hx⟩
      exact ⟨i, by omega, hx⟩
    · rintro ⟨i, hi, hx⟩
      exact ⟨i, by omega, hx⟩

end Frontier

/-! ## Closing a list of nodes -/

section Reach

variable {N : Type} [DecidableEq N] (parents : N → List N)

/-- The nodes found so far together with their parents, round after round. -/
def reach : ℕ → List N → List N
  | 0, found => found
  | n + 1, found => reach n (found ∪ found.flatMap parents)

variable {parents}

theorem subset_reach (n : ℕ) (found : List N) : ∀ x ∈ found, x ∈ reach parents n found := by
  induction n generalizing found with
  | zero => exact fun x hx => hx
  | succ n ih => exact fun x hx => ih _ x (List.mem_union_iff.mpr (Or.inl hx))

theorem ancestor_of_mem_reach {n : ℕ} {found : List N} {x : N} (h : x ∈ reach parents n found) :
    ∃ a ∈ found, Ancestor parents x a := by
  induction n generalizing found with
  | zero => exact ⟨x, h, Relation.ReflTransGen.refl⟩
  | succ n ih =>
      obtain ⟨y, hy, hx⟩ := ih h
      rcases List.mem_union_iff.mp hy with hy | hy
      · exact ⟨y, hy, hx⟩
      · obtain ⟨a, ha, hya⟩ := List.mem_flatMap.mp hy
        exact ⟨a, ha, Relation.ReflTransGen.head hya hx⟩

omit [DecidableEq N] in
theorem ancestor_mem_of_closed {found : List N}
    (hclosed : ∀ x ∈ found, ∀ y ∈ parents x, y ∈ found) {a x : N} (ha : a ∈ found)
    (h : Ancestor parents x a) : x ∈ found := by
  induction h with
  | refl => exact ha
  | tail _ hstep ih => exact hclosed _ ih _ hstep

theorem mem_reach {univ start : List N} {n : ℕ} (huniv : ∀ x, ∀ y ∈ parents x, y ∈ univ)
    (hn : univ.length ≤ n) {x : N} :
    x ∈ reach parents n start ↔ ∃ a ∈ start, Ancestor parents x a := by
  refine ⟨ancestor_of_mem_reach, ?_⟩
  have hcard : (univ.toFinset \ start.toFinset).card ≤ n :=
    (Finset.card_le_card Finset.sdiff_subset).trans ((List.toFinset_card_le univ).trans hn)
  clear hn
  induction n generalizing start with
  | zero =>
      rintro ⟨a, ha, hx⟩
      refine ancestor_mem_of_closed (fun y _ z hz => ?_) ha hx
      have hsub := Finset.sdiff_eq_empty_iff_subset.mp (Finset.card_eq_zero.mp
        (Nat.le_zero.mp hcard))
      exact List.mem_toFinset.mp (hsub (List.mem_toFinset.mpr (huniv y z hz)))
  | succ n ih =>
      rintro ⟨a, ha, hx⟩
      by_cases hclosed : ∀ y ∈ start, ∀ z ∈ parents y, z ∈ start
      · exact subset_reach _ _ _ (ancestor_mem_of_closed hclosed ha hx)
      · push Not at hclosed
        obtain ⟨y, hy, z, hz, hnew⟩ := hclosed
        refine ih (Nat.le_of_lt_succ ?_) ⟨a, List.mem_union_iff.mpr (Or.inl ha), hx⟩
        -- the round has found the parent `z` of `y`
        have hlt : (univ.toFinset \ (start ∪ start.flatMap parents).toFinset).card <
            (univ.toFinset \ start.toFinset).card := by
          refine Finset.card_lt_card (Finset.ssubset_iff_of_subset ?_ |>.mpr ⟨z, ?_, ?_⟩)
          · intro w hw
            simp only [Finset.mem_sdiff, List.mem_toFinset, List.mem_union_iff, not_or] at hw ⊢
            exact ⟨hw.1, hw.2.1⟩
          · simpa using ⟨huniv y z hz, hnew⟩
          · simp only [Finset.mem_sdiff, List.mem_toFinset, List.mem_union_iff, not_and, not_not]
            exact fun _ => Or.inr (List.mem_flatMap.mpr ⟨y, hy, hz⟩)
        exact hlt.trans_le hcard

end Reach

end Nipa.Support
