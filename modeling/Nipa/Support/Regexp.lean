import Nipa.Support.Strings
import Mathlib.Logic.Relation

/-!
# Regular expressions

Regular expressions over characters with the two text anchors.  An expression is
matched from a position of a text, which is the part of the text that is left
there, to another position.  `Spans` says between which positions it matches, and
`ends` computes the positions that are reached from one; a text matches when the
expression matches from any of its positions.
-/

namespace Nipa.Support

inductive Regexp where
  | empty
  | start
  | stop
  | set (p : Char → Bool)
  | seq (a b : Regexp)
  | alt (a b : Regexp)
  | star (a : Regexp)

namespace Regexp

/-- An expression once or more. -/
def plus (a : Regexp) : Regexp :=
  .seq a (.star a)

/-- In a text of `n` characters the expression matches from where `s` is left to
where `t` is left. -/
def Spans (n : ℕ) : Regexp → Str → Str → Prop
  | .empty => fun s t => t = s
  | .start => fun s t => s.length = n ∧ t = s
  | .stop => fun s t => s = [] ∧ t = s
  | .set p => fun s t => ∃ c, p c = true ∧ s = c :: t
  | .seq a b => fun s t => ∃ u, Spans n a s u ∧ Spans n b u t
  | .alt a b => fun s t => Spans n a s t ∨ Spans n b s t
  | .star a => Relation.ReflTransGen (Spans n a)

/-- The positions reached by any number of steps that move on, at most `k`. -/
def reached (next : Str → List Str) : ℕ → Str → List Str
  | 0, s => [s]
  | k + 1, s => s :: ((next s).filter fun t => t.length < s.length).flatMap (reached next k)

/-- The positions an expression matches to. -/
def ends (n : ℕ) : Regexp → Str → List Str
  | .empty => fun s => [s]
  | .start => fun s => if s.length = n then [s] else []
  | .stop => fun s => if s = [] then [s] else []
  | .set p => fun s =>
      match s with
      | [] => []
      | c :: t => if p c then [t] else []
  | .seq a b => fun s => (ends n a s).flatMap (ends n b)
  | .alt a b => fun s => ends n a s ++ ends n b s
  | .star a => fun s => reached (ends n a) s.length s

/-- Whether the text holds a match. -/
def matchString (r : Regexp) (text : Str) : Bool :=
  text.tails.any fun s => ends text.length r s ≠ []

/-! ## Matching finds the spans -/

theorem Spans.suffix {n : ℕ} {r : Regexp} {s t : Str} (h : Spans n r s t) : t <:+ s := by
  induction r generalizing s t with
  | empty =>
      obtain rfl : t = s := h
      exact List.suffix_rfl
  | start =>
      obtain ⟨-, rfl⟩ : s.length = n ∧ t = s := h
      exact List.suffix_rfl
  | stop =>
      obtain ⟨-, rfl⟩ : s = [] ∧ t = s := h
      exact List.suffix_rfl
  | set p =>
      obtain ⟨c, -, rfl⟩ : ∃ c, p c = true ∧ s = c :: t := h
      exact List.suffix_cons c t
  | seq a b iha ihb =>
      obtain ⟨u, ha, hb⟩ : ∃ u, Spans n a s u ∧ Spans n b u t := h
      exact (ihb hb).trans (iha ha)
  | alt a b iha ihb =>
      rcases (h : Spans n a s t ∨ Spans n b s t) with ha | hb
      · exact iha ha
      · exact ihb hb
  | star a iha =>
      have hstar : Relation.ReflTransGen (Spans n a) s t := h
      induction hstar with
      | refl => exact List.suffix_rfl
      | tail hsteps hstep ih => exact (iha hstep).trans (ih hsteps)

theorem mem_reached {next : Str → List Str} (hnext : ∀ s, ∀ t ∈ next s, t <:+ s) {k : ℕ}
    {s t : Str} (hk : s.length ≤ k) :
    t ∈ reached next k s ↔ Relation.ReflTransGen (fun s t => t ∈ next s) s t := by
  constructor
  · induction k generalizing s with
    | zero =>
        intro h
        rw [List.mem_singleton.mp h]
    | succ k ih =>
        intro h
        rcases List.mem_cons.mp h with rfl | h
        · exact Relation.ReflTransGen.refl
        · obtain ⟨u, hu, ht⟩ := List.mem_flatMap.mp h
          obtain ⟨hstep, hlt⟩ := List.mem_filter.mp hu
          rw [decide_eq_true_eq] at hlt
          exact Relation.ReflTransGen.head hstep (ih (by omega) ht)
  · intro h
    induction h using Relation.ReflTransGen.head_induction_on generalizing k with
    | refl =>
        cases k with
        | zero => exact List.mem_singleton_self t
        | succ k => exact List.mem_cons_self
    | @head s u hstep hsteps ih =>
        have hsuffix := hnext s u hstep
        by_cases hlt : u.length < s.length
        · obtain ⟨k, rfl⟩ : ∃ j, k = j + 1 := ⟨k - 1, by omega⟩
          refine List.mem_cons_of_mem s (List.mem_flatMap.mpr ⟨u, ?_, ih (by omega)⟩)
          exact List.mem_filter.mpr ⟨hstep, by simpa using hlt⟩
        · obtain rfl : u = s := hsuffix.eq_of_length_le (by omega)
          exact ih hk

theorem mem_ends {n : ℕ} {r : Regexp} {s t : Str} : t ∈ ends n r s ↔ Spans n r s t := by
  induction r generalizing s t with
  | empty => exact List.mem_singleton
  | start =>
      rw [ends, Spans]
      by_cases h : s.length = n <;> simp [h]
  | stop =>
      rw [ends, Spans]
      by_cases h : s = [] <;> simp [h]
  | set p =>
      rw [ends, Spans]
      cases s with
      | nil => simp
      | cons c u =>
          dsimp only
          constructor
          · intro h
            split at h
            next hc => exact ⟨c, hc, by rw [List.mem_singleton.mp h]⟩
            · cases h
          · rintro ⟨d, hd, heq⟩
            obtain ⟨rfl, rfl⟩ := List.cons.inj heq
            rw [if_pos hd]
            exact List.mem_singleton_self u
  | seq a b iha ihb =>
      rw [ends, Spans, List.mem_flatMap]
      simp only [iha, ihb]
  | alt a b iha ihb => rw [ends, Spans, List.mem_append, iha, ihb]
  | star a iha =>
      have hsame : (fun s t => t ∈ ends n a s) = Spans n a := by
        funext s t
        exact propext iha
      rw [ends, Spans, mem_reached (fun s t ht => (iha.mp ht).suffix) le_rfl, hsame]

theorem matchString_iff {r : Regexp} {text : Str} :
    r.matchString text = true ↔ ∃ s, s <:+ text ∧ ∃ t, Spans text.length r s t := by
  rw [matchString, List.any_eq_true]
  simp only [List.mem_tails, decide_eq_true_eq, ne_eq, List.eq_nil_iff_forall_not_mem, not_forall,
    not_not, mem_ends]

/-! ## Sets of characters -/

variable {n : ℕ} {p : Char → Bool} {s t : Str}

theorem spans_star_set : Spans n (.star (.set p)) s t ↔ ∃ u, s = u ++ t ∧ ∀ c ∈ u, p c = true := by
  constructor
  · intro h
    have hstar : Relation.ReflTransGen (Spans n (.set p)) s t := h
    induction hstar using Relation.ReflTransGen.head_induction_on with
    | refl => exact ⟨[], rfl, by simp⟩
    | head hstep hsteps ih =>
        obtain ⟨c, hc, rfl⟩ := hstep
        obtain ⟨u, rfl, hu⟩ := ih hsteps
        refine ⟨c :: u, rfl, ?_⟩
        intro d hd
        rcases List.mem_cons.mp hd with rfl | hd
        · exact hc
        · exact hu d hd
  · rintro ⟨u, rfl, hu⟩
    induction u with
    | nil => exact Relation.ReflTransGen.refl
    | cons c u ih =>
        have hrest : Spans n (.star (.set p)) (u ++ t) t :=
          ih fun d hd => hu d (List.mem_cons_of_mem c hd)
        exact Relation.ReflTransGen.head ⟨c, hu c List.mem_cons_self, rfl⟩ hrest

theorem spans_plus_set : Spans n (plus (.set p)) s t ↔
    ∃ u, u ≠ [] ∧ s = u ++ t ∧ ∀ c ∈ u, p c = true := by
  rw [plus, Spans]
  constructor
  · rintro ⟨v, ⟨c, hc, rfl⟩, hstar⟩
    obtain ⟨u, rfl, hu⟩ := spans_star_set.mp hstar
    refine ⟨c :: u, List.cons_ne_nil c u, rfl, ?_⟩
    intro d hd
    rcases List.mem_cons.mp hd with rfl | hd
    · exact hc
    · exact hu d hd
  · rintro ⟨u, hne, rfl, hu⟩
    obtain ⟨c, u, rfl⟩ := List.exists_cons_of_ne_nil hne
    exact ⟨u ++ t, ⟨c, hu c List.mem_cons_self, rfl⟩,
      spans_star_set.mpr ⟨u, rfl, fun d hd => hu d (List.mem_cons_of_mem c hd)⟩⟩

end Regexp

end Nipa.Support
