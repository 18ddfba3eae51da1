import Nipa.Text.Scripts

/-!
# The line diff is a shortest script

After each round of the search the frontier holds the furthest points of the
edit graph on the diagonals of that round.  So the search stops in the first
round that reaches the end of both texts, and the way back, which makes the
same choices again from the recorded frontiers, is a path with that many edits.
-/

namespace Nipa

open Support

namespace Text

/-! ## Frontiers -/

theorem at?_set? {l l' : List ℤ} {i x : ℤ} (h : set? l i x = some l') (j : ℤ) :
    at? l' j = if j = i then some x else at? l j := by
  rw [set?] at h
  split at h
  next hi =>
    obtain rfl := Option.some.inj h
    rw [at?, at?]
    by_cases hj : 0 ≤ j
    · rw [if_pos hj, if_pos hj]
      by_cases heq : j = i
      · subst heq
        rw [if_pos rfl, List.getElem?_set_self (by omega)]
      · rw [if_neg heq, List.getElem?_set_ne (by omega)]
    · rw [if_neg hj, if_neg hj, if_neg (by omega)]
  next => exact absurd h (by simp)

theorem exists_set? {l : List ℤ} {i x : ℤ} (h : 0 ≤ i) (hlt : i < l.length) :
    ∃ l', set? l i x = some l' ∧ l'.length = l.length := by
  rw [set?, if_pos ⟨h, hlt⟩]
  exact ⟨_, rfl, List.length_set⟩

/-- The frontier holds the furthest points of round `d`. -/
def Front (M : ℤ → ℤ → Prop) (max : ℤ) (v : List ℤ) (d : ℕ) : Prop :=
  ∀ j : ℕ, j ≤ d → ∃ x, at? v (2 * j - d + max) = some x ∧ Furthest M d (2 * j - d) x

/-- The frontier is ready for round `d`: the previous round filled it. -/
def Ready (M : ℤ → ℤ → Prop) (max : ℤ) (v : List ℤ) : ℕ → Prop
  | 0 => at? v (1 + max) = some 0
  | d + 1 => Front M max v d

/-- Diagonal `j` of round `d` is done and does not reach the end. -/
def Passed (M : ℤ → ℤ → Prop) (n m max : ℤ) (v : List ℤ) (d j : ℕ) : Prop :=
  ∃ x, at? v (2 * j - d + max) = some x ∧ Furthest M d (2 * j - d) x ∧
    ¬(n ≤ x ∧ m ≤ x - (2 * j - d))

section Frontiers

variable {M : ℤ → ℤ → Prop} {max : ℤ} {v v' : List ℤ} {d j : ℕ}

/-- Both ways into a diagonal: from above or from the left, always from the
furthest point of the neighbouring diagonal. -/
theorem Front.enters (h : Front M max v d) (hj : j ≤ d + 1) {k : ℤ}
    (hk : k = 2 * j - (d + 1 : ℕ)) :
    (entersDown v max (d + 1 : ℕ) k = some true ∧ ∃ x, at? v (k + 1 + max) = some x ∧
      Furthest M d (k + 1) x ∧ Starts M (d + 1) k x) ∨
    (entersDown v max (d + 1 : ℕ) k = some false ∧ ∃ x, at? v (k - 1 + max) = some x ∧
      Furthest M d (k - 1) x ∧ Starts M (d + 1) k (x + 1)) := by
  have habove : j ≤ d → ∃ x, at? v (k + 1 + max) = some x ∧ Furthest M d (k + 1) x := by
    intro hle
    have hfront := h j hle
    rwa [show (2 * j - d : ℤ) = k + 1 by rw [hk]; push_cast; ring] at hfront
  have hleft : 0 < j → ∃ x, at? v (k - 1 + max) = some x ∧ Furthest M d (k - 1) x := by
    intro hpos
    have hfront := h (j - 1) (by omega)
    rwa [show (2 * (j - 1 : ℕ) - d : ℤ) = k - 1 by omega] at hfront
  by_cases hlow : k = -(d + 1 : ℕ)
  · obtain ⟨x, hat, hfar⟩ := habove (by omega)
    refine Or.inl ⟨by rw [entersDown, if_pos hlow], x, hat, hfar, ?_⟩
    exact hfar.starts_lowest hlow
  · obtain ⟨xl, hatl, hfarl⟩ := hleft (by omega)
    by_cases hhigh : k = (d + 1 : ℕ)
    · refine Or.inr ⟨by rw [entersDown, if_neg hlow, if_pos hhigh], xl, hatl, hfarl, ?_⟩
      exact hfarl.starts_highest hhigh
    · obtain ⟨xr, hatr, hfarr⟩ := habove (by omega)
      have henters : entersDown v max (d + 1 : ℕ) k = some (decide (xl < xr)) := by
        rw [entersDown, if_neg hlow, if_neg hhigh, hatl, hatr]
        rfl
      by_cases hlt : xl < xr
      · rw [decide_eq_true hlt] at henters
        exact Or.inl ⟨henters, xr, hatr, hfarr, hfarl.starts_down hfarr hlt⟩
      · rw [decide_eq_false hlt] at henters
        exact Or.inr ⟨henters, xl, hatl, hfarl, hfarl.starts_right hfarr (by omega)⟩

theorem Ready.enter (h : Ready M max v d) (hj : j ≤ d) :
    ∃ x, enter v max d (2 * j - d) = some x ∧ Starts M d (2 * j - d) x := by
  cases d with
  | zero =>
      obtain rfl : j = 0 := by omega
      refine ⟨0, ?_, by simp [Starts]⟩
      have hat : at? v (1 + max) = some 0 := h
      simp [Text.enter, entersDown, hat]
  | succ d =>
      rcases Front.enters h hj rfl with ⟨hdown, x, hat, -, hstarts⟩ |
        ⟨hdown, x, hat, -, hstarts⟩
      · refine ⟨x, ?_, hstarts⟩
        rw [Text.enter, hdown]
        exact hat
      · refine ⟨x + 1, ?_, hstarts⟩
        rw [Text.enter, hdown]
        change (do let x ← at? v _; some (x + 1)) = _
        rw [hat]
        rfl

/-- Writing a diagonal of the round keeps the frontier ready for the round: its
diagonals lie between those of the round before. -/
theorem Ready.set? (h : Ready M max v d) {x : ℤ}
    (hset : set? v (2 * j - d + max) x = some v') : Ready M max v' d := by
  cases d with
  | zero =>
      have hat : at? v (1 + max) = some 0 := h
      rw [Ready, at?_set? hset, if_neg (by push_cast; omega)]
      exact hat
  | succ d =>
      intro i hi
      obtain ⟨x, hat, hfar⟩ := h i hi
      refine ⟨x, ?_, hfar⟩
      rw [at?_set? hset, if_neg (by push_cast; omega)]
      exact hat

theorem Passed.set? {n m : ℤ} {i : ℕ} (h : Passed M n m max v d i) (hij : i ≠ j) {x : ℤ}
    (hset : set? v (2 * j - d + max) x = some v') : Passed M n m max v' d i := by
  obtain ⟨x', hat, hrest⟩ := h
  refine ⟨x', ?_, hrest⟩
  rw [at?_set? hset, if_neg (by omega)]
  exact hat

end Frontiers

/-! ## The search -/

section Search

variable {equal : Line → Line → Bool} {a b : List Line}

/-- The lines at a cell of the grid are equal. -/
abbrev Cell (equal : Line → Line → Bool) (a b : List Line) : ℤ → ℤ → Prop :=
  Crossing (fun s t => equal s t = true) a b

theorem Cell.lt_and_lt (x y : ℤ) (h : Cell equal a b x y) : x < a.length ∧ y < b.length :=
  Crossing.lt h

theorem snake_spec {fuel : ℕ} {x k : ℤ} (hx : 0 ≤ x) (hy : 0 ≤ x - k)
    (hfuel : (a.length : ℤ) - x ≤ fuel) :
    ∃ x', snake equal a b fuel x (x - k) = some x' ∧ x ≤ x' ∧
      Slide (Cell equal a b) k x x' ∧ ¬Cell equal a b x' (x' - k) := by
  induction fuel generalizing x with
  | zero =>
      refine ⟨x, rfl, le_rfl, fun i h0 h1 => by omega, fun hcross => ?_⟩
      have hlt := Cell.lt_and_lt _ _ hcross
      push_cast at hfuel
      omega
  | succ fuel ih =>
      rw [snake]
      by_cases hin : x < a.length ∧ x - k < b.length
      · obtain ⟨s, hs⟩ := at?_of_lt hx hin.1
        obtain ⟨t, ht⟩ := at?_of_lt hy hin.2
        rw [if_pos hin, hs, ht]
        by_cases heq : equal s t = true
        · have hcross : Cell equal a b x (x - k) :=
            ⟨hx, hy, s, t, (at?_eq_some hs).2.2, (at?_eq_some ht).2.2, heq⟩
          obtain ⟨x', hsnake, hle, hrun, hstop⟩ := ih (x := x + 1) (by omega) (by omega)
            (by push_cast at hfuel; omega)
          refine ⟨x', ?_, by omega, fun i h0 h1 => ?_, hstop⟩
          · rw [show x + 1 - k = x - k + 1 by ring] at hsnake
            simpa [heq] using hsnake
          · rcases eq_or_lt_of_le h0 with rfl | hlt
            · exact hcross
            · exact hrun i (by omega) h1
        · refine ⟨x, by simp [heq], le_rfl, fun i h0 h1 => by omega, ?_⟩
          rintro ⟨-, -, s', t', hs', ht', heq'⟩
          rw [(at?_eq_some hs).2.2] at hs'
          rw [(at?_eq_some ht).2.2] at ht'
          obtain rfl := Option.some.inj hs'
          obtain rfl := Option.some.inj ht'
          exact heq heq'
      · rw [if_neg hin]
        exact ⟨x, rfl, le_rfl, fun i h0 h1 => by omega,
          fun hcross => hin (Cell.lt_and_lt _ _ hcross)⟩

theorem Starts.nonneg {M : ℤ → ℤ → Prop} {d : ℕ} {k x : ℤ} (h : Starts M d k x) :
    0 ≤ x ∧ 0 ≤ x - k := by
  cases d with
  | zero =>
      obtain ⟨rfl, rfl⟩ := h
      omega
  | succ d => exact h.1.reach.nonneg

/-- What a round does with one diagonal after the other: it stops at a furthest
point at or beyond the end, or passes all of them. -/
theorem round_spec {max : ℤ} {d : ℕ} {cnt : ℕ} (hd : (d : ℤ) ≤ max) :
    ∀ {j : ℕ} {v : List ℤ}, j + cnt = d + 1 → (v.length : ℤ) = 2 * max + 1 →
      Ready (Cell equal a b) max v d →
      (∀ i < j, Passed (Cell equal a b) a.length b.length max v d i) →
      ∃ found v', round equal a b max d
          ((List.range' j cnt).map fun j : ℕ => (2 * j - d : ℤ)) v = some (found, v') ∧
        v'.length = v.length ∧
        ((found = true ∧ ∃ k x, Furthest (Cell equal a b) d k x ∧ a.length ≤ x ∧
            b.length ≤ x - k) ∨
          (found = false ∧
            ∀ i ≤ d, Passed (Cell equal a b) a.length b.length max v' d i)) := by
  induction cnt with
  | zero =>
      intro j v hj hlen hready hpassed
      refine ⟨false, v, rfl, rfl, Or.inr ⟨rfl, fun i hi => hpassed i (by omega)⟩⟩
  | succ cnt ih =>
      intro j v hj hlen hready hpassed
      obtain ⟨x₀, henter, hstarts⟩ := hready.enter (j := j) (by omega)
      obtain ⟨hx₀, hy₀⟩ := Starts.nonneg hstarts
      obtain ⟨x, hsnake, hle, hrun, hstop⟩ :=
        @snake_spec equal a b (a.length - x₀).toNat x₀ _ hx₀ hy₀ (by omega)
      have hfar := hstarts.furthest hle hrun hstop
      obtain ⟨v₁, hset, hlen₁⟩ := exists_set? (l := v) (i := 2 * j - d + max) (x := x)
        (by omega) (by omega)
      rw [List.range'_succ, List.map_cons, round, henter]
      simp only [Option.bind_eq_bind, Option.bind_some, hsnake, hset]
      by_cases hend : (a.length : ℤ) ≤ x ∧ (b.length : ℤ) ≤ x - (2 * j - d)
      · rw [if_pos hend]
        exact ⟨true, v₁, rfl, hlen₁, Or.inl ⟨rfl, _, x, hfar, hend⟩⟩
      · rw [if_neg hend]
        have hpassed₁ : ∀ i < j + 1, Passed (Cell equal a b) a.length b.length max v₁ d i := by
          intro i hi
          rcases eq_or_lt_of_le (Nat.lt_succ_iff.mp hi) with rfl | hlt
          · exact ⟨x, by rw [at?_set? hset, if_pos rfl], hfar, hend⟩
          · exact (hpassed i hlt).set? (by omega) hset
        obtain ⟨found, v', hround, hlen', hcases⟩ := ih (j := j + 1) (v := v₁) (by omega)
          (by rw [hlen₁, hlen]) (hready.set? hset) hpassed₁
        exact ⟨found, v', hround, by rw [hlen', hlen₁], hcases⟩

/-- The recorded frontiers of the rounds before `d`. -/
def Recorded (M : ℤ → ℤ → Prop) (max : ℤ) (trace : List (List ℤ)) (d : ℕ) : Prop :=
  ∀ e < d, ∃ v, at? trace e = some v ∧ Front M max v e

theorem Recorded.append {M : ℤ → ℤ → Prop} {max : ℤ} {trace : List (List ℤ)} {d : ℕ}
    {v : List ℤ} (h : Recorded M max trace d) (hlen : trace.length = d)
    (hv : Front M max v d) : Recorded M max (trace ++ [v]) (d + 1) := by
  intro e he
  rcases eq_or_lt_of_le (Nat.lt_succ_iff.mp he) with rfl | hlt
  · refine ⟨v, ?_, hv⟩
    rw [at?, if_pos (by omega), Int.toNat_natCast]
    simp [hlen]
  · obtain ⟨u, hu, hfront⟩ := h e hlt
    refine ⟨u, ?_, hfront⟩
    obtain ⟨-, -, hget⟩ := at?_eq_some hu
    rw [at?, if_pos (by omega), List.getElem?_append_left, hget]
    omega

/-- The search ends in the least round that reaches the end of both texts, with
the frontiers of all rounds before it. -/
theorem search_spec {max : ℤ} (hmax : max = a.length + b.length) {fuel : ℕ} :
    ∀ {d : ℕ} {v : List ℤ} {trace : List (List ℤ)}, (fuel : ℤ) + d = max + 1 →
      (v.length : ℤ) = 2 * max + 1 → Ready (Cell equal a b) max v d →
      trace.length = d → Recorded (Cell equal a b) max trace d →
      (∀ e < d, ¬Reach (Cell equal a b) e a.length b.length) →
      ∃ e trace', search equal a b max fuel d v trace = some (e, trace') ∧
        Reach (Cell equal a b) e a.length b.length ∧
        (∀ e' < e, ¬Reach (Cell equal a b) e' a.length b.length) ∧
        Recorded (Cell equal a b) max trace' e := by
  induction fuel with
  | zero =>
      intro d v trace hfuel hlen hready htrace hrecorded hleast
      refine absurd (Reach.corner (Cell equal a b) a.length b.length) (hleast _ ?_)
      push_cast at hfuel
      omega
  | succ fuel ih =>
      intro d v trace hfuel hlen hready htrace hrecorded hleast
      push_cast at hfuel
      obtain ⟨found, v', hround, hlen', hcases⟩ :=
        @round_spec equal a b max d (d + 1) (by omega) 0 v (by omega) hlen hready
          (fun i hi => absurd hi (by omega))
      rw [← List.range_eq_range'] at hround
      rw [search, diagonals, hround]
      rcases hcases with ⟨rfl, k, x, hfar, hx, hy⟩ | ⟨rfl, hpassed⟩
      · refine ⟨d, trace ++ [v'], rfl, ?_, hleast, ?_⟩
        · have hcorner := hfar.1.eq_corner (by omega) (by omega) Cell.lt_and_lt hx hy hleast
          have hreach : Reach (Cell equal a b) d x (x - k) := hfar.1
          rwa [hcorner.2, hcorner.1] at hreach
        · intro e he
          obtain ⟨u, hu, hfront⟩ := hrecorded e he
          refine ⟨u, ?_, hfront⟩
          obtain ⟨-, -, hget⟩ := at?_eq_some hu
          rw [at?, if_pos (by omega), List.getElem?_append_left, hget]
          omega
      · have hfront : Front (Cell equal a b) max v' d := by
          intro j hj
          obtain ⟨x, hat, hfar, -⟩ := hpassed j hj
          exact ⟨x, hat, hfar⟩
        have hnot : ¬Reach (Cell equal a b) d a.length b.length := by
          intro hreach
          obtain ⟨j, hj, hdiag⟩ := hreach.diagonal_bounds
          obtain ⟨x, -, hfar, hend⟩ := hpassed j hj
          have hle : (a.length : ℤ) ≤ x := by
            refine hfar.2 ?_
            change Reach _ _ _ _
            rwa [← hdiag, sub_sub_cancel]
          exact hend ⟨hle, by omega⟩
        have hleast' : ∀ e < d + 1, ¬Reach (Cell equal a b) e a.length b.length := by
          intro e he
          rcases eq_or_lt_of_le (Nat.lt_succ_iff.mp he) with rfl | hlt
          · exact hnot
          · exact hleast e hlt
        exact ih (by push_cast; omega) (by rw [hlen', hlen]) hfront (by simp [htrace])
          (hrecorded.append htrace hfront) hleast'

/-! ## The way back -/

theorem backSnake_spec {k x₀ prevX prevY : ℤ} (hrun₀ : 0 ≤ x₀ ∧ 0 ≤ x₀ - k)
    (hprev : prevX = x₀ ∧ prevY < x₀ - k ∨ prevX < x₀ ∧ prevY = x₀ - k) {cnt : ℕ} :
    ∀ {fuel : ℕ} {ops : List Op}, cnt ≤ fuel →
      Slide (Cell equal a b) k x₀ (x₀ + cnt) →
      Rest equal a b (x₀ + cnt) (x₀ + cnt - k) ops →
      ∃ ops', backSnake a prevX prevY fuel (x₀ + cnt) (x₀ + cnt - k) ops =
          some (x₀, x₀ - k, ops') ∧
        Rest equal a b x₀ (x₀ - k) ops' ∧ ops'.countP Op.edits = ops.countP Op.edits := by
  induction cnt with
  | zero =>
      intro fuel ops _ _ hrest
      refine ⟨ops, ?_, by simpa using hrest, rfl⟩
      rw [Nat.cast_zero, add_zero]
      cases fuel with
      | zero => rfl
      | succ fuel => rw [backSnake, if_neg (by omega)]
  | succ cnt ih =>
      intro fuel ops hfuel hrun hrest
      obtain ⟨fuel, rfl⟩ : ∃ f, fuel = f + 1 := ⟨fuel - 1, by omega⟩
      obtain ⟨-, -, s, t, hs, ht, heq⟩ := hrun (x₀ + cnt) (by omega) (by push_cast; omega)
      have hx : x₀ + (cnt + 1 : ℕ) - 1 = x₀ + cnt := by push_cast; ring
      have hy : x₀ + (cnt + 1 : ℕ) - k - 1 = x₀ + cnt - k := by push_cast; ring
      have hats : at? a (x₀ + (cnt + 1 : ℕ) - 1) = some s := by
        rw [hx, at?, if_pos (by omega), hs]
      have hatt : at? b (x₀ + (cnt + 1 : ℕ) - k - 1) = some t := by
        rw [hy, at?, if_pos (by omega), ht]
      have hkept := hrest.keep hats hatt heq
      rw [backSnake, if_pos (by push_cast; omega), hats]
      rw [hx, hy] at hkept ⊢
      obtain ⟨ops', hback, hrest', hedits⟩ := ih (Nat.le_of_succ_le_succ hfuel)
        (fun i h0 h1 => hrun i h0 (by push_cast; omega)) hkept
      exact ⟨ops', hback, hrest', by rw [hedits]; simp [Op.edits]⟩

theorem backStart_spec {cnt : ℕ} : ∀ {ops : List Op},
    Slide (Cell equal a b) 0 0 cnt → Rest equal a b cnt cnt ops →
    ∃ ops', backStart equal a b cnt cnt cnt ops = some ops' ∧
      Rest equal a b 0 0 ops' ∧ ops'.countP Op.edits = ops.countP Op.edits := by
  induction cnt with
  | zero => exact fun _ hrest => ⟨_, rfl, hrest, rfl⟩
  | succ cnt ih =>
      intro ops hrun hrest
      obtain ⟨-, -, s, t, hs, ht, heq⟩ := hrun cnt (by omega) (by push_cast; omega)
      have hx : ((cnt + 1 : ℕ) : ℤ) - 1 = cnt := by push_cast; ring
      have hats : at? a ((cnt + 1 : ℕ) - 1 : ℤ) = some s := by
        rw [hx, at?, if_pos (by omega), hs]
      have hatt : at? b ((cnt + 1 : ℕ) - 1 : ℤ) = some t := by
        rw [sub_zero] at ht
        rw [hx, at?, if_pos (by omega), ht]
      have hkept := hrest.keep hats hatt heq
      rw [backStart, if_pos (by push_cast; omega), hats, hatt]
      rw [hx] at hkept ⊢
      obtain ⟨ops', hback, hrest', hedits⟩ := ih
        (fun i h0 h1 => hrun i h0 (by push_cast; omega)) hkept
      refine ⟨ops', ?_, hrest', by rw [hedits]; simp [Op.edits]⟩
      simpa [heq] using hback

/-- From a furthest point of round `d` the way back completes the script with
exactly `d` edits. -/
theorem backtrack_spec {max : ℤ} {trace : List (List ℤ)} {d : ℕ} :
    ∀ {x y : ℤ} {ops : List Op}, x ≤ a.length → y ≤ b.length →
      Furthest (Cell equal a b) d (x - y) x → Recorded (Cell equal a b) max trace d →
      Rest equal a b x y ops →
      ∃ ops', backtrack equal a b max trace d x y ops = some ops' ∧
        IsScript equal 0 0 a b ops' ∧
        ops'.countP Op.edits = ops.countP Op.edits + d := by
  induction d with
  | zero =>
      intro x y ops hx hy hfar _ hrest
      have hreach : Reach (Cell equal a b) 0 x y := by
        have h := hfar.1
        change Reach _ _ _ _ at h
        rwa [sub_sub_cancel] at h
      obtain ⟨rfl, hrun⟩ := hreach.of_zero
      obtain ⟨cnt, rfl⟩ : ∃ cnt : ℕ, x = cnt := ⟨x.toNat, by have := hreach.nonneg; omega⟩
      obtain ⟨ops', hback, hscript, hedits⟩ := backStart_spec hrun hrest
      exact ⟨ops', hback, hscript, hedits⟩
  | succ d ih =>
      intro x y ops hx hy hfar hrecorded hrest
      have hreach : Reach (Cell equal a b) (d + 1) x y := by
        have h := hfar.1
        change Reach _ _ _ _ at h
        rwa [sub_sub_cancel] at h
      obtain ⟨j, hj, hk⟩ := hreach.diagonal_bounds
      obtain ⟨v, hv, hfront⟩ := hrecorded d (Nat.lt_succ_self d)
      have hearlier : Recorded (Cell equal a b) max trace d :=
        fun e he => hrecorded e (Nat.lt_succ_of_lt he)
      rw [backtrack, hv]
      rcases hfront.enters hj hk with ⟨hdown, x₁, hat, hprev, hstarts⟩ |
        ⟨hdown, x₁, hat, hprev, hstarts⟩
      · obtain ⟨hle, hrun⟩ := hfar.run hstarts
        obtain ⟨hx₁, hy₁⟩ := hprev.1.nonneg
        obtain ⟨cnt, hcnt⟩ : ∃ cnt : ℕ, x = x₁ + cnt := ⟨(x - x₁).toNat, by omega⟩
        have hycnt : y = x₁ + cnt - (x - y) := by omega
        obtain ⟨ops₁, hback, hrest₁, hedits₁⟩ :=
          @backSnake_spec equal a b (x - y) x₁ x₁ (x₁ - (x - y + 1)) ⟨hx₁, by omega⟩
            (Or.inl ⟨rfl, by omega⟩) cnt (x - x₁).toNat ops (by omega) (by rwa [← hcnt])
            (by rwa [← hycnt, ← hcnt])
        rw [← hycnt, ← hcnt] at hback
        obtain ⟨t, ht⟩ := at?_of_lt (l := b) (i := x₁ - (x - y) - 1) (by omega) (by omega)
        obtain ⟨ops₂, hrec, hscript, hedits₂⟩ := @ih x₁ (x₁ - (x - y) - 1)
          (⟨.added, t, x₁.toNat, (x₁ - (x - y) - 1).toNat⟩ :: ops₁) (by omega)
          (by omega) (by rwa [show x₁ - (x₁ - (x - y) - 1) = x - y + 1 by ring]) hearlier
          (hrest₁.add ht)
        refine ⟨ops₂, ?_, hscript, ?_⟩
        · simp only [Option.bind_eq_bind, Option.bind_some, hdown, if_true, hat, hback, ht]
          exact hrec
        · rw [hedits₂, List.countP_cons_of_pos (by rfl), hedits₁]
          omega
      · obtain ⟨hle, hrun⟩ := hfar.run hstarts
        obtain ⟨hx₁, hy₁⟩ := hprev.1.nonneg
        obtain ⟨cnt, hcnt⟩ : ∃ cnt : ℕ, x = x₁ + 1 + cnt := ⟨(x - (x₁ + 1)).toNat, by omega⟩
        have hycnt : y = x₁ + 1 + cnt - (x - y) := by omega
        obtain ⟨ops₁, hback, hrest₁, hedits₁⟩ :=
          @backSnake_spec equal a b (x - y) (x₁ + 1) x₁ (x₁ - (x - y - 1))
            ⟨by omega, by omega⟩ (Or.inr ⟨by omega, by omega⟩) cnt (x - x₁).toNat ops
            (by omega) (by rwa [← hcnt]) (by rwa [← hycnt, ← hcnt])
        rw [← hycnt, ← hcnt] at hback
        obtain ⟨s, hs⟩ := at?_of_lt (l := a) (i := x₁ + 1 - 1) (by omega) (by omega)
        obtain ⟨ops₂, hrec, hscript, hedits₂⟩ := @ih (x₁ + 1 - 1) (x₁ + 1 - (x - y))
          (⟨.removed, s, (x₁ + 1 - 1).toNat, (x₁ + 1 - (x - y)).toNat⟩ :: ops₁)
          (by omega) (by omega)
          (by rwa [show x₁ + 1 - 1 - (x₁ + 1 - (x - y)) = x - y - 1 by ring,
            add_sub_cancel_right])
          hearlier (hrest₁.remove hs)
        refine ⟨ops₂, ?_, hscript, ?_⟩
        · simp only [Option.bind_eq_bind, Option.bind_some, hdown, Bool.false_eq_true,
            if_false, hat, hback, hs]
          rw [if_neg (by omega)]
          exact hrec
        · rw [hedits₂, List.countP_cons_of_pos (by rfl), hedits₁]
          omega

end Search

/-! ## The whole diff -/

section Whole

variable {equal : Line → Line → Bool} {a b : List Line}

/-- The number of edits is what the longest common subsequence leaves over. -/
def Shortest (equal : Line → Line → Bool) (a b : List Line) (ops : List Op) : Prop :=
  ∃ len, IsGreatest {len | CommonLength (fun s t => equal s t = true) a b len} len ∧
    ops.countP Op.edits + 2 * len = a.length + b.length

theorem shortest_of_reach {ops : List Op}
    (h : Reach (Cell equal a b) (ops.countP Op.edits) a.length b.length)
    (hleast : ∀ e < ops.countP Op.edits, ¬Reach (Cell equal a b) e a.length b.length) :
    Shortest equal a b ops :=
  isGreatest_commonLength h hleast

theorem Shortest.le {ops ops' : List Op} (h : Shortest equal a b ops)
    (h' : IsScript equal 0 0 a b ops') : ops.countP Op.edits ≤ ops'.countP Op.edits := by
  obtain ⟨len, hgreatest, hcost⟩ := h
  obtain ⟨len', hcommon, hcost'⟩ := reach_corner_iff.mp h'.reach_corner
  have hle : len' ≤ len := hgreatest.2 hcommon
  omega

theorem not_reach_of_empty (h : a.length = 0 ∨ b.length = 0) :
    ∀ e < a.length + b.length, ¬Reach (Cell equal a b) e a.length b.length := by
  intro e he hreach
  obtain ⟨j, hj, hdiag⟩ := hreach.diagonal_bounds
  omega

/-- The diff of two texts is a shortest edit script between them, and the code
never leaves its arrays. -/
theorem linesWith_spec (a b : List Line) (equal : Line → Line → Bool) :
    ∃ ops, linesWith a b equal = some ops ∧ IsScript equal 0 0 a b ops ∧
      Shortest equal a b ops := by
  rw [linesWith]
  by_cases ha : a.length = 0
  · obtain rfl := List.length_eq_zero_iff.mp ha
    rw [if_pos ha]
    have hscript := isScript_added equal b 0
    simp only [zero_add] at hscript
    refine ⟨_, rfl, hscript, shortest_of_reach hscript.reach_corner ?_⟩
    intro e he
    refine not_reach_of_empty (Or.inl rfl) e (lt_of_lt_of_le he ?_)
    refine (List.countP_le_length).trans ?_
    simp
  · rw [if_neg ha]
    by_cases hb : b.length = 0
    · obtain rfl := List.length_eq_zero_iff.mp hb
      rw [if_pos hb]
      have hscript := isScript_removed equal a 0
      simp only [zero_add] at hscript
      refine ⟨_, rfl, hscript, shortest_of_reach hscript.reach_corner ?_⟩
      intro e he
      refine not_reach_of_empty (Or.inr rfl) e (lt_of_lt_of_le he ?_)
      refine (List.countP_le_length).trans ?_
      simp
    · rw [if_neg hb]
      have hready : Ready (Cell equal a b) (a.length + b.length : ℤ)
          (List.replicate (2 * (a.length + b.length) + 1) 0) 0 := by
        rw [Ready, at?, if_pos (by omega), List.getElem?_replicate_of_lt (by omega)]
      obtain ⟨d, trace, hsearch, hreach, hleast, hrecorded⟩ :=
        @search_spec equal a b _ rfl (a.length + b.length + 1) 0 _ [] (by push_cast; ring)
          (by simp) hready rfl (fun e he => absurd he (by omega))
          (fun e he => absurd he (by omega))
      have hfar : Furthest (Cell equal a b) d ((a.length : ℤ) - b.length) a.length := by
        constructor
        · change Reach _ _ _ _
          rwa [sub_sub_cancel]
        · intro x hx
          by_contra hlt
          have hcorner := Reach.eq_corner (by omega) (by omega) Cell.lt_and_lt hx
            (by omega) (by omega) hleast
          omega
      have hrest : Rest equal a b a.length b.length [] := by
        rw [Rest, Int.toNat_natCast, Int.toNat_natCast, List.drop_length, List.drop_length]
        exact IsScript.nil
      obtain ⟨ops, hback, hscript, hedits⟩ := backtrack_spec le_rfl le_rfl hfar hrecorded hrest
      rw [List.countP_nil, zero_add] at hedits
      refine ⟨ops, ?_, hscript, shortest_of_reach hscript.reach_corner (by rwa [hedits])⟩
      simp only [Option.bind_eq_bind, Nat.cast_add, hsearch, Option.bind_some]
      exact hback

theorem lines_spec (a b : List Line) :
    ∃ ops, lines a b = some ops ∧ IsScript (fun s t => s = t) 0 0 a b ops := by
  obtain ⟨ops, hops, hscript, -⟩ := linesWith_spec a b fun s t => s = t
  exact ⟨ops, hops, hscript⟩

/-- The operations of a diff, read on either side: the old lines and their
indices are exact, and so are the indices of the new lines; an added line is
the new line, a kept line has the old text and equals the new line in the
equality used, which for exact comparison is the new line again.  No script
has fewer edits, and the longest common subsequence says how many they are. -/
theorem line_diff_shortest (a b : List Line) (equal : Line → Line → Bool) :
    ∃ ops, linesWith a b equal = some ops ∧
      (ops.filter Op.onOld).map (fun op => (op.line, op.a)) = a.zipIdx ∧
      (ops.filter Op.onNew).map Op.b = List.range b.length ∧
      List.Forall₂
        (fun op t => if op.kind = .added then op.line = t else equal op.line t = true)
        (ops.filter Op.onNew) b ∧
      ((∀ s t, equal s t = true → s = t) →
        (ops.filter Op.onNew).map (fun op => (op.line, op.b)) = b.zipIdx) ∧
      (∀ op ∈ ops, op.kind = .equal →
        ∃ t, a[op.a]? = some op.line ∧ b[op.b]? = some t ∧ equal op.line t = true) ∧
      (∀ ops', IsScript equal 0 0 a b ops' →
        ops.countP Op.edits ≤ ops'.countP Op.edits) ∧
      Shortest equal a b ops := by
  obtain ⟨ops, hops, hscript, hshortest⟩ := linesWith_spec a b equal
  refine ⟨ops, hops, hscript.old_side, ?_, hscript.new_side, ?_, ?_, ?_, hshortest⟩
  · rw [hscript.new_indices, List.range_eq_range']
  · intro hexact
    exact hscript.new_side_exact hexact
  · exact hscript.kept_pairs (List.nil_append a).symm (List.nil_append b).symm rfl rfl
  · exact fun ops' h' => hshortest.le h'

/-- Compared without their spaces, a kept line shows the old text and not the
line of the new text. -/
theorem kept_line_has_old_text :
    ∃ (a b : List Line) (equal : Line → Line → Bool) (ops : List Op),
      Equivalence (fun s t => equal s t = true) ∧ linesWith a b equal = some ops ∧
        (ops.filter Op.onNew).map (fun op => (op.line, op.b)) ≠ b.zipIdx := by
  refine ⟨[[97, 32, 10]], [[97, 10]],
    fun s t => s.filter (· ≠ 32) = t.filter (· ≠ 32),
    [⟨.equal, [97, 32, 10], 0, 0⟩], ⟨?_, ?_, ?_⟩, by decide, by decide⟩
  · exact fun s => decide_eq_true rfl
  · exact fun h => decide_eq_true (of_decide_eq_true h).symm
  · exact fun h h' => decide_eq_true ((of_decide_eq_true h).trans (of_decide_eq_true h'))

end Whole

end Text

end Nipa
