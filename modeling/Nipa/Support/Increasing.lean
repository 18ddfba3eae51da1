import Mathlib.Data.List.Sort

/-!
# Longest increasing subsequences

Positions are added to piles one after the other: each goes on the first pile whose top
value it does not exceed, and remembers the top of the pile before.  Following these back
from the last pile gives an increasing subsequence, and none is longer.
-/

namespace Nipa.Support

/-- The tops of the piles, and for every position the one it follows. -/
structure Piles where
  tails : List ℕ
  prev : List (Option ℕ)

namespace Piles

variable {α : Type} [LinearOrder α] (v : ℕ → α)

/-- The next position is the number of those added before. -/
def add (p : Piles) : Piles :=
  let n := p.prev.length
  let k := p.tails.findIdx fun x => v n ≤ v x
  { tails := if k = p.tails.length then p.tails ++ [n] else p.tails.set k n
    prev := p.prev ++ [if 0 < k then p.tails[k - 1]? else none] }

def build : ℕ → Piles
  | 0 => ⟨[], []⟩
  | n + 1 => (build n).add v

/-- Fills the result from its end; without a position to come from it starts at `last`. -/
def backtrack (p : Piles) (last : ℕ) : ℕ → Option ℕ → List ℕ → List ℕ
  | 0, _, out => out
  | steps + 1, k, out =>
      match k.elim (some last) fun x => p.prev[x]?.join with
      | some x => backtrack p last steps (some x) (x :: out)
      -- an index out of range, which no position of a pile leads to
      | none => out

end Piles

section Longest

variable {α : Type} [LinearOrder α] (v : ℕ → α)

def longestPositions (n : ℕ) : List ℕ :=
  let p := Piles.build v n
  match p.tails.getLast? with
  | none => []
  | some last => p.backtrack last p.tails.length none []

/-- Positions of an increasing subsequence. -/
def Increasing (l : List ℕ) : Prop :=
  l.Pairwise fun x y => x < y ∧ v x < v y

/-- Following a position back takes `k` steps, down in position and value. -/
def Linked (prev : List (Option ℕ)) : ℕ → ℕ → Prop
  | 0, x => prev[x]? = some none
  | k + 1, x => ∃ y, prev[x]? = some (some y) ∧ y < x ∧ v y < v x ∧ Linked prev k y

variable {v}

theorem Linked.lt_length {prev : List (Option ℕ)} {k x : ℕ} (h : Linked v prev k x) :
    x < prev.length := by
  cases k with
  | zero => exact (List.getElem?_eq_some_iff.mp h).1
  | succ k =>
      obtain ⟨y, hprev, -⟩ := h
      exact (List.getElem?_eq_some_iff.mp hprev).1

theorem Linked.append {prev : List (Option ℕ)} {k x : ℕ} (h : Linked v prev k x)
    (y : Option ℕ) : Linked v (prev ++ [y]) k x := by
  induction k generalizing x with
  | zero =>
      have hlt := h.lt_length
      change (prev ++ [y])[x]? = some none
      rw [List.getElem?_append_left hlt]
      exact h
  | succ k ih =>
      have hlt := h.lt_length
      obtain ⟨z, hprev, hpos, hvalue, hz⟩ := h
      refine ⟨z, ?_, hpos, hvalue, ih hz⟩
      rw [List.getElem?_append_left hlt]
      exact hprev

/-- What the piles know after `n` positions. -/
structure Piles.Inv (v : ℕ → α) (n : ℕ) (p : Piles) : Prop where
  length_prev : p.prev.length = n
  sorted : ∀ i j x y : ℕ, i < j → p.tails[i]? = some x → p.tails[j]? = some y → v x < v y
  linked : ∀ k x, p.tails[k]? = some x → Linked v p.prev k x
  /-- No increasing subsequence ends lower than the pile of its length. -/
  lowest : ∀ l x, Increasing v (l ++ [x]) → x < n →
    ∃ y, p.tails[l.length]? = some y ∧ v y ≤ v x

namespace Piles

variable {n : ℕ} {p : Piles}

/-- The pile the next position goes on. -/
def place (v : ℕ → α) (n : ℕ) (p : Piles) : ℕ :=
  p.tails.findIdx fun x => v n ≤ v x

theorem place_le (p : Piles) : p.place v n ≤ p.tails.length :=
  List.findIdx_le_length

theorem value_lt_of_lt_place {i x : ℕ} (hi : i < p.place v n) (hx : p.tails[i]? = some x) :
    v x < v n := by
  obtain ⟨hlt, rfl⟩ := List.getElem?_eq_some_iff.mp hx
  have hnot := List.not_of_lt_findIdx hi
  simpa using hnot

theorem value_le_of_place {x : ℕ} (hx : p.tails[p.place v n]? = some x) :
    v n ≤ v x := by
  obtain ⟨hlt, rfl⟩ := List.getElem?_eq_some_iff.mp hx
  have hfound : decide (v n ≤ v p.tails[p.place v n]) = true := List.findIdx_getElem (w := hlt)
  exact of_decide_eq_true hfound

theorem exists_of_lt_place {i : ℕ} (hi : i < p.place v n) :
    ∃ x, p.tails[i]? = some x ∧ v x < v n := by
  have hlt : i < p.tails.length := hi.trans_le (place_le p)
  have hx := List.getElem?_eq_getElem hlt
  exact ⟨_, hx, value_lt_of_lt_place hi hx⟩

theorem add_tails (hlen : p.prev.length = n) (i : ℕ) :
    (p.add v).tails[i]? = if i = p.place v n then some n else p.tails[i]? := by
  have hle := place_le (v := v) (n := n) p
  unfold add
  rw [hlen]
  change (if p.place v n = p.tails.length then p.tails ++ [n]
    else p.tails.set (p.place v n) n)[i]? = _
  by_cases hlast : p.place v n = p.tails.length
  · rw [if_pos hlast, hlast, List.getElem?_append, List.getElem?_singleton]
    by_cases hi : i < p.tails.length
    · rw [if_pos hi, if_neg (by omega)]
    · rw [if_neg hi]
      by_cases hsame : i = p.tails.length
      · rw [if_pos (by omega), if_pos hsame]
      · rw [if_neg (by omega), if_neg hsame, List.getElem?_eq_none (by omega)]
  · rw [if_neg hlast, List.getElem?_set]
    by_cases hsame : p.place v n = i
    · rw [if_pos hsame, if_pos (by omega), if_pos hsame.symm]
    · rw [if_neg hsame, if_neg (Ne.symm hsame)]

theorem add_prev (hlen : p.prev.length = n) :
    (p.add v).prev = p.prev
      ++ [if 0 < p.place v n then p.tails[p.place v n - 1]? else none] := by
  unfold add
  rw [hlen]
  rfl

theorem Inv.add_sorted (hinv : p.Inv v n) (i j x y : ℕ) (hij : i < j)
    (hx : (p.add v).tails[i]? = some x) (hy : (p.add v).tails[j]? = some y) :
    v x < v y := by
  rw [add_tails hinv.length_prev] at hx hy
  by_cases hj : j = p.place v n
  · rw [if_pos hj] at hy
    rw [if_neg (by omega)] at hx
    cases hy
    exact value_lt_of_lt_place (by omega) hx
  · rw [if_neg hj] at hy
    by_cases hi : i = p.place v n
    · rw [if_pos hi] at hx
      cases hx
      have hlt : i < p.tails.length := hij.trans (List.getElem?_eq_some_iff.mp hy).1
      obtain ⟨z, htop⟩ : ∃ z, p.tails[i]? = some z := ⟨_, List.getElem?_eq_getElem hlt⟩
      have hsorted := hinv.sorted i j z y hij htop hy
      rw [hi] at htop
      exact (value_le_of_place htop).trans_lt hsorted
    · rw [if_neg hi] at hx
      exact hinv.sorted i j x y hij hx hy

theorem Inv.add_linked (hinv : p.Inv v n) (k x : ℕ)
    (hx : (p.add v).tails[k]? = some x) : Linked v (p.add v).prev k x := by
  rw [add_tails hinv.length_prev] at hx
  rw [add_prev hinv.length_prev]
  by_cases hk : k = p.place v n
  · rw [if_pos hk] at hx
    cases hx
    have hlast : ∀ e : Option ℕ, (p.prev ++ [e])[n]? = some e := by
      intro e
      rw [← hinv.length_prev, List.getElem?_append_right (le_refl _), Nat.sub_self]
      rfl
    cases k with
    | zero =>
        rw [if_neg (by omega)]
        exact hlast none
    | succ k =>
        rw [if_pos (by omega), ← hk, Nat.add_sub_cancel]
        have hbefore : k < p.place v n := by omega
        obtain ⟨y, hy, hlt⟩ := exists_of_lt_place hbefore
        have hlinked := hinv.linked k y hy
        rw [hy]
        refine ⟨y, hlast (some y), ?_, hlt, hlinked.append _⟩
        rw [← hinv.length_prev]
        exact hlinked.lt_length
  · rw [if_neg hk] at hx
    exact (hinv.linked k x hx).append _

theorem Inv.add_lowest (hinv : p.Inv v n) (l : List ℕ) (x : ℕ)
    (hl : Increasing v (l ++ [x])) (hx : x < n + 1) :
    ∃ y, (p.add v).tails[l.length]? = some y ∧ v y ≤ v x := by
  rw [add_tails hinv.length_prev]
  by_cases hlast : x = n
  · rw [hlast]
    by_cases hk : l.length = p.place v n
    · exact ⟨n, if_pos hk, le_refl _⟩
    · rw [if_neg hk]
      -- what comes before ends lower, so its pile stands before the place
      have hlt : l.length < p.place v n := by
        cases List.eq_nil_or_concat' l with
        | inl hnil =>
            rw [hnil, List.length_nil] at hk ⊢
            omega
        | inr hcons =>
            obtain ⟨l', z, rfl⟩ := hcons
            obtain ⟨hbefore, -, hcross⟩ := List.pairwise_append.mp hl
            obtain ⟨hpos, hvalue⟩ := hcross z (by simp) x (List.mem_singleton_self x)
            obtain ⟨y, hy, hle⟩ := hinv.lowest l' z hbefore (by omega)
            rw [hlast] at hvalue
            by_contra hnot
            rw [List.length_append, List.length_singleton] at hk hnot
            have hplace : p.place v n ≤ l'.length := by omega
            have hin := (List.getElem?_eq_some_iff.mp hy).1
            have htop := List.getElem?_eq_getElem (hplace.trans_lt hin)
            have hlow := value_le_of_place (v := v) (n := n) htop
            have hyn := hle.trans_lt hvalue
            cases hplace.lt_or_eq with
            | inl hbelow =>
                have hsorted := hinv.sorted _ _ _ y hbelow htop hy
                exact absurd (hlow.trans_lt hsorted) (not_lt.mpr hyn.le)
            | inr hsame =>
                rw [← hsame] at hy
                exact absurd (value_le_of_place hy) (not_le.mpr hyn)
      obtain ⟨y, hy, hvalue⟩ := exists_of_lt_place hlt
      exact ⟨y, hy, hvalue.le⟩
  · obtain ⟨y, hy, hle⟩ := hinv.lowest l x hl (by omega)
    by_cases hk : l.length = p.place v n
    · rw [if_pos hk]
      rw [hk] at hy
      exact ⟨n, rfl, (value_le_of_place hy).trans hle⟩
    · rw [if_neg hk]
      exact ⟨y, hy, hle⟩

theorem build_inv (n : ℕ) : (build v n).Inv v n := by
  induction n with
  | zero =>
      exact
        { length_prev := rfl
          sorted := fun _ _ _ _ _ hx => by cases hx
          linked := fun _ _ hx => by cases hx
          lowest := fun _ _ _ hx => absurd hx (Nat.not_lt_zero _) }
  | succ n ih =>
      exact
        { length_prev := by
            change ((build v n).add v).prev.length = n + 1
            rw [add_prev ih.length_prev, List.length_append, ih.length_prev]
            rfl
          sorted := ih.add_sorted
          linked := ih.add_linked
          lowest := ih.add_lowest }

theorem backtrack_linked {last k x : ℕ} (hlinked : Linked v p.prev k x) (out : List ℕ) :
    ∃ l, p.backtrack last k (some x) out = l ++ out ∧ l.length = k ∧
      Increasing v (l ++ [x]) := by
  induction k generalizing x out with
  | zero => exact ⟨[], rfl, rfl, List.pairwise_singleton _ _⟩
  | succ k ih =>
      obtain ⟨y, hprev, hpos, hvalue, hy⟩ := hlinked
      obtain ⟨l, hout, hlen, hl⟩ := ih hy (y :: out)
      refine ⟨l ++ [y], ?_, ?_, ?_⟩
      · rw [List.append_assoc, List.singleton_append, ← hout]
        simp only [backtrack, Option.elim_some, hprev, Option.join_some]
      · rw [List.length_append, hlen]
        rfl
      · refine List.pairwise_append.mpr ⟨hl, List.pairwise_singleton _ _, fun z hz w hw => ?_⟩
        rw [List.mem_singleton.mp hw]
        cases List.mem_append.mp hz with
        | inl hbefore =>
            have hzy := (List.pairwise_append.mp hl).2.2 z hbefore y (List.mem_singleton_self y)
            exact ⟨hzy.1.trans hpos, hzy.2.trans hvalue⟩
        | inr hsame =>
            rw [List.mem_singleton.mp hsame]
            exact ⟨hpos, hvalue⟩

end Piles

theorem longestPositions_spec (n : ℕ) :
    Increasing v (longestPositions v n) ∧
      (∀ x ∈ longestPositions v n, x < n) ∧
      (longestPositions v n).length = (Piles.build v n).tails.length := by
  have hinv := Piles.build_inv (v := v) n
  unfold longestPositions
  dsimp only
  cases hlast : (Piles.build v n).tails.getLast? with
  | none =>
      rw [List.getLast?_eq_none_iff.mp hlast]
      exact ⟨List.Pairwise.nil, fun _ hx => absurd hx List.not_mem_nil, rfl⟩
  | some last =>
      rw [List.getLast?_eq_getElem?] at hlast
      have hlen : 0 < (Piles.build v n).tails.length := by
        have hin := (List.getElem?_eq_some_iff.mp hlast).1
        omega
      obtain ⟨k, hk⟩ := Nat.exists_eq_succ_of_ne_zero hlen.ne'
      have hlinked := hinv.linked _ _ hlast
      rw [hk, Nat.succ_sub_one] at hlinked
      obtain ⟨l, hout, hlength, hl⟩ :
          ∃ l, (Piles.build v n).backtrack last k (some last) [last] = l ++ [last] ∧
            l.length = k ∧ Increasing v (l ++ [last]) :=
        Piles.backtrack_linked hlinked [last]
      have hfound : (Piles.build v n).backtrack last (Piles.build v n).tails.length none []
          = l ++ [last] := by
        rw [hk, ← hout]
        rfl
      dsimp only
      rw [hfound]
      refine ⟨hl, fun x hx => ?_, ?_⟩
      · have hbound : last < n := by
          rw [← hinv.length_prev]
          exact hlinked.lt_length
        cases List.mem_append.mp hx with
        | inl hbefore =>
            have hlt := (List.pairwise_append.mp hl).2.2 x hbefore last (List.mem_singleton_self _)
            exact hlt.1.trans hbound
        | inr hsame =>
            rw [List.mem_singleton.mp hsame]
            exact hbound
      · rw [List.length_append, hlength, hk]
        rfl

theorem longestPositions_longest {n : ℕ} {l : List ℕ} (hl : Increasing v l)
    (hbound : ∀ x ∈ l, x < n) : l.length ≤ (longestPositions v n).length := by
  rw [(longestPositions_spec n).2.2]
  cases List.eq_nil_or_concat' l with
  | inl hnil =>
      rw [hnil]
      exact Nat.zero_le _
  | inr hcons =>
      obtain ⟨l', x, rfl⟩ := hcons
      obtain ⟨y, hy, -⟩ := (Piles.build_inv (v := v) n).lowest l' x hl
        (hbound x (by simp))
      have hin := (List.getElem?_eq_some_iff.mp hy).1
      rw [List.length_append, List.length_singleton]
      omega

end Longest

end Nipa.Support
