import Nipa.Diff
import Nipa.Support.Greedy
import Nipa.Text.Newlines
import Mathlib.Algebra.BigOperators.Group.List.Basic
import Mathlib.Algebra.Order.BigOperators.Group.List
import Mathlib.Data.Prod.Lex

/-!
# Renames

Deleted and added files of a comparison are paired by similarity, best pairs
first, and a pair becomes one rename.  A score is a percentage and does not depend
on the order the maps behind it are visited in.
-/

namespace Nipa

open Support

namespace Diff

/-! ## Maps in any order -/

/-- The order in which the entries of a map are visited. -/
structure MapOrder where
  visit : ∀ {α : Type}, List α → List α
  perm : ∀ {α : Type} (l : List α), (visit l).Perm l

def MapOrder.stored : MapOrder :=
  ⟨fun l => l, fun l => List.Perm.refl l⟩

/-- A map whose entries lie in the order they are visited in. -/
def MapOrder.reorder {K : Type} {V : K → Type} (order : MapOrder) (m : AList V) : AList V :=
  ⟨order.visit m.entries, (List.perm_nodupKeys (order.perm m.entries)).mpr m.nodupKeys⟩

theorem MapOrder.lookup_reorder {K : Type} [DecidableEq K] {V : K → Type} (order : MapOrder)
    (m : AList V) (k : K) : (order.reorder m).lookup k = m.lookup k :=
  AList.perm_lookup (order.perm m.entries)

/-! ## Similarity -/

section Similarity

def fnv64a (data : List UInt8) : UInt64 :=
  data.foldl (fun h b => (h ^^^ b.toUInt64) * 1099511628211) 14695981039346656037

/-- How often each line occurs, by the hash of the line. -/
def lineFingerprint (data : List UInt8) : AList fun _ : UInt64 => ℕ :=
  (Text.splitLines data).foldl
    (fun out line => out.insert (fnv64a line) ((out.lookup (fnv64a line)).getD 0 + 1)) ∅

def lineSimilarity (order : MapOrder) (a b : List UInt8) : ℕ :=
  let fa := lineFingerprint a
  let fb := lineFingerprint b
  let (common, totalA) := (order.visit fa.entries).foldl
    (fun (common, totalA) e =>
      let m := (fb.lookup e.1).getD 0
      (if 0 < m then common + min e.2 m else common, totalA + e.2)) (0, 0)
  let totalB := (order.visit fb.entries).foldl (fun totalB e => totalB + e.2) 0
  let denom := max totalA totalB
  if denom = 0 then 0 else common * 100 / denom

variable {H : Type} [DecidableEq H]

/-- The share of the new chunks that the old file has. -/
def chunkSimilarity (old new : Entry H) : ℕ :=
  if old.chunkHashes = [] ∨ new.chunkHashes = [] then 0
  else new.chunkHashes.countP (· ∈ old.chunkHashes) * 100 /
    max old.chunkHashes.length new.chunkHashes.length

/-- The similarity of two files in percent; `load` gives the content of a file
where it is available. -/
def similarity (order : MapOrder) (load : Option (Entry H → Option (List UInt8)))
    (old new : Entry H) : ℕ :=
  if old.hash = new.hash then 100
  else
    match load with
    | none => chunkSimilarity old new
    | some load =>
        if old.isBinary || new.isBinary then chunkSimilarity old new
        else
          match load old, load new with
          | some oldContent, some newContent => lineSimilarity order oldContent newContent
          | _, _ => chunkSimilarity old new

end Similarity

/-! ## Pairing -/

section Pairing

variable {H : Type} [DecidableEq H]

/-- A change with the score a rename carries. -/
structure ScoredChange (H : Type) extends Change H where
  similarity : ℕ
  deriving DecidableEq

/-- A change as a comparison finds it. -/
def ScoredChange.plain (c : Change H) : ScoredChange H :=
  ⟨c, 0⟩

/-- A deleted and an added change with their indices. -/
structure RenamePair (H : Type) where
  old : ScoredChange H × ℕ
  new : ScoredChange H × ℕ
  score : ℕ

def defaultRenameThreshold : ℤ := 50

def changesWith (status : Status) (changes : List (ScoredChange H)) :
    List (ScoredChange H × ℕ) :=
  changes.zipIdx.filter fun e => e.1.status = status

/-- The pairs that are similar enough. -/
def renamePairs (order : MapOrder) (load : Option (Entry H → Option (List UInt8)))
    (threshold : ℤ) (changes : List (ScoredChange H)) : List (RenamePair H) :=
  (changesWith .deleted changes).flatMap fun d =>
    (changesWith .added changes).filterMap fun a =>
      let score := similarity order load d.1.old a.1.new
      if threshold ≤ score then some ⟨d, a, score⟩ else none

/-- The order of the pairs: by score, then by the old and the new path. -/
def RenamePair.precedes (p q : RenamePair H) : Prop :=
  if p.score ≠ q.score then q.score < p.score
  else if p.old.1.path ≠ q.old.1.path then p.old.1.path < q.old.1.path
  else p.new.1.path ≤ q.new.1.path

instance : DecidableRel (RenamePair.precedes : RenamePair H → RenamePair H → Prop) := fun p q =>
  inferInstanceAs (Decidable (if p.score ≠ q.score then q.score < p.score
    else if p.old.1.path ≠ q.old.1.path then p.old.1.path < q.old.1.path
    else p.new.1.path ≤ q.new.1.path))

/-- Go over the sorted pairs and take those whose files are not used yet. -/
def choosePairs : List ℕ → List ℕ → List (RenamePair H) → List (RenamePair H)
  | _, _, [] => []
  | usedOld, usedNew, p :: ps =>
      if p.old.2 ∈ usedOld ∨ p.new.2 ∈ usedNew then choosePairs usedOld usedNew ps
      else p :: choosePairs (p.old.2 :: usedOld) (p.new.2 :: usedNew) ps

def RenamePair.renamed (p : RenamePair H) : ScoredChange H :=
  ⟨⟨p.new.1.path, .renamed, p.old.1.old, p.new.1.new⟩, p.score⟩

/-- What stands for a change once the pairs are put in: a rename takes the place
of the deleted change, and the added one is dropped. -/
def putRename (chosen : List (RenamePair H)) (e : ScoredChange H × ℕ) :
    Option (ScoredChange H) :=
  if e.2 ∈ chosen.map fun p => p.new.2 then none
  else
    match chosen.find? fun p => p.old.2 = e.2 with
    | some p => some p.renamed
    | none => some e.1

def putRenames (chosen : List (RenamePair H)) (changes : List (ScoredChange H)) :
    List (ScoredChange H) :=
  changes.zipIdx.filterMap (putRename chosen)

def chosenPairs (order : MapOrder) (load : Option (Entry H → Option (List UInt8)))
    (threshold : ℤ) (changes : List (ScoredChange H)) : List (RenamePair H) :=
  choosePairs [] [] ((renamePairs order load threshold changes).insertionSort RenamePair.precedes)

def detectRenamesAt (order : MapOrder) (changes : List (ScoredChange H))
    (load : Option (Entry H → Option (List UInt8))) (threshold : ℤ) : List (ScoredChange H) :=
  if changesWith .deleted changes = [] ∨ changesWith .added changes = [] then changes
  else (putRenames (chosenPairs order load threshold changes) changes).insertionSort
    fun c c' => c.path ≤ c'.path

def detectRenames (order : MapOrder) (changes : List (ScoredChange H))
    (load : Option (Entry H → Option (List UInt8))) : List (ScoredChange H) :=
  detectRenamesAt order changes load defaultRenameThreshold

end Pairing

/-! ## Scores -/

section Scores

theorem foldl_common_total {α : Type} (f g : α → ℕ) (l : List α) (s t : ℕ) :
    l.foldl (fun acc e => (acc.1 + f e, acc.2 + g e)) (s, t) =
      (s + (l.map f).sum, t + (l.map g).sum) := by
  induction l generalizing s t with
  | nil => simp
  | cons e l ih =>
      rw [List.foldl_cons, ih]
      simp [Nat.add_assoc]

theorem lineSimilarity_eq (order : MapOrder) (a b : List UInt8) :
    lineSimilarity order a b =
      let fa := lineFingerprint a
      let fb := lineFingerprint b
      let common := (fa.entries.map fun e => min e.2 ((fb.lookup e.1).getD 0)).sum
      let totalA := (fa.entries.map fun e => e.2).sum
      let totalB := (fb.entries.map fun e => e.2).sum
      if max totalA totalB = 0 then 0 else common * 100 / max totalA totalB := by
  have hsum : ∀ {α : Type} (f : α → ℕ) (l : List α), ((order.visit l).map f).sum = (l.map f).sum :=
    fun f l => ((order.perm l).map f).sum_eq
  have hcommon : ∀ (fb : AList fun _ : UInt64 => ℕ) (acc : ℕ × ℕ) (e : Sigma fun _ : UInt64 => ℕ),
      (if 0 < (fb.lookup e.1).getD 0 then acc.1 + min e.2 ((fb.lookup e.1).getD 0) else acc.1) =
        acc.1 + min e.2 ((fb.lookup e.1).getD 0) := by
    intro fb acc e
    split
    · rfl
    next h => simp [Nat.eq_zero_of_not_pos h]
  have htotal : ∀ (l : List (Sigma fun _ : UInt64 => ℕ)) (t : ℕ),
      l.foldl (fun totalB e => totalB + e.2) t = t + (l.map fun e => e.2).sum := by
    intro l
    induction l with
    | nil => simp
    | cons e l ih =>
        intro t
        rw [List.foldl_cons, ih]
        simp [Nat.add_assoc]
  simp only [lineSimilarity, hcommon]
  rw [foldl_common_total, htotal]
  simp only [hsum, Nat.zero_add]

theorem lineSimilarity_le (order : MapOrder) (a b : List UInt8) :
    lineSimilarity order a b ≤ 100 := by
  rw [lineSimilarity_eq]
  dsimp only
  split
  · exact Nat.zero_le 100
  · have hcommon : ((lineFingerprint a).entries.map fun e =>
        min e.2 (((lineFingerprint b).lookup e.1).getD 0)).sum ≤
          ((lineFingerprint a).entries.map fun e => e.2).sum :=
      List.sum_le_sum fun e _ => min_le_left _ _
    refine Nat.div_le_of_le_mul ?_
    exact Nat.mul_le_mul_right 100 (hcommon.trans (le_max_left _ _))

variable {H : Type} [DecidableEq H] {order : MapOrder}
  {load : Option (Entry H → Option (List UInt8))}

theorem chunkSimilarity_le (old new : Entry H) : chunkSimilarity old new ≤ 100 := by
  rw [chunkSimilarity]
  split
  · exact Nat.zero_le 100
  · refine Nat.div_le_of_le_mul (Nat.mul_le_mul_right 100 ?_)
    exact List.countP_le_length.trans (le_max_right _ _)

theorem similarity_le (old new : Entry H) : similarity order load old new ≤ 100 := by
  unfold similarity
  split
  · exact le_rfl
  · split
    · exact chunkSimilarity_le old new
    · split
      · exact chunkSimilarity_le old new
      · split
        · exact lineSimilarity_le order _ _
        · exact chunkSimilarity_le old new

theorem similarity_order (order order' : MapOrder)
    (load : Option (Entry H → Option (List UInt8))) :
    similarity order load = similarity order' load := by
  have hline : lineSimilarity order = lineSimilarity order' := by
    funext a b
    rw [lineSimilarity_eq, lineSimilarity_eq]
  funext old new
  unfold similarity
  rw [hline]

theorem detectRenamesAt_order (order order' : MapOrder) (changes : List (ScoredChange H))
    (threshold : ℤ) :
    detectRenamesAt order changes load threshold =
      detectRenamesAt order' changes load threshold := by
  simp only [detectRenamesAt, chosenPairs, renamePairs, similarity_order order order']

end Scores

/-! ## The chosen pairs -/

section Chosen

variable {H : Type} [DecidableEq H] {order : MapOrder}
  {load : Option (Entry H → Option (List UInt8))} {threshold : ℤ}
  {changes : List (ScoredChange H)}

omit [DecidableEq H] in
theorem mem_changesWith {status : Status} {e : ScoredChange H × ℕ} :
    e ∈ changesWith status changes ↔ e ∈ changes.zipIdx ∧ e.1.status = status := by
  rw [changesWith, List.mem_filter, decide_eq_true_eq]

omit [DecidableEq H] in
theorem eq_of_index_eq {e e' : ScoredChange H × ℕ} (he : e ∈ changes.zipIdx)
    (he' : e' ∈ changes.zipIdx) (h : e.2 = e'.2) : e = e' := by
  rw [List.mem_zipIdx_iff_getElem?] at he he'
  rw [h, he'] at he
  exact Prod.ext (Option.some.inj he).symm h

theorem mem_renamePairs {p : RenamePair H} :
    p ∈ renamePairs order load threshold changes ↔
      p.old ∈ changesWith .deleted changes ∧ p.new ∈ changesWith .added changes ∧
        p.score = similarity order load p.old.1.old p.new.1.new ∧ threshold ≤ p.score := by
  rw [renamePairs, List.mem_flatMap]
  constructor
  · rintro ⟨d, hd, hp⟩
    obtain ⟨a, ha, hsome⟩ := List.mem_filterMap.mp hp
    dsimp only at hsome
    split at hsome
    next hscore =>
      obtain rfl := Option.some.inj hsome
      exact ⟨hd, ha, rfl, hscore⟩
    · cases hsome
  · rintro ⟨hd, ha, hscore, hle⟩
    refine ⟨p.old, hd, List.mem_filterMap.mpr ⟨p.new, ha, ?_⟩⟩
    rw [hscore] at hle
    dsimp only
    rw [if_pos hle, ← hscore]

/-- Two pairs need the same file. -/
def RenamePair.shares (p q : RenamePair H) : Bool :=
  p.old.2 = q.old.2 || p.new.2 = q.new.2

omit [DecidableEq H] in
theorem choosePairs_eq (chosen ps : List (RenamePair H)) :
    choosePairs (chosen.map fun p => p.old.2) (chosen.map fun p => p.new.2) ps =
      greedy RenamePair.shares chosen ps := by
  induction ps generalizing chosen with
  | nil => rfl
  | cons p ps ih =>
      have hused : (p.old.2 ∈ (chosen.map fun p => p.old.2) ∨
          p.new.2 ∈ chosen.map fun p => p.new.2) ↔ chosen.any p.shares = true := by
        simp only [List.mem_map, List.any_eq_true, RenamePair.shares, Bool.or_eq_true,
          decide_eq_true_eq]
        constructor
        · rintro (⟨q, hq, heq⟩ | ⟨q, hq, heq⟩)
          · exact ⟨q, hq, Or.inl heq.symm⟩
          · exact ⟨q, hq, Or.inr heq.symm⟩
        · rintro ⟨q, hq, heq | heq⟩
          · exact Or.inl ⟨q, hq, heq.symm⟩
          · exact Or.inr ⟨q, hq, heq.symm⟩
      rw [choosePairs, greedy]
      by_cases h : chosen.any p.shares = true
      · rw [if_pos (hused.mpr h), if_pos h]
        exact ih chosen
      · rw [if_neg (mt hused.mp h), if_neg h]
        exact congrArg (p :: ·) (ih (p :: chosen))

/-- The place of a pair in the order: high scores first. -/
def RenamePair.place (p : RenamePair H) : ℕᵒᵈ ×ₗ Str ×ₗ Str :=
  toLex (OrderDual.toDual p.score, toLex (p.old.1.path, p.new.1.path))

omit [DecidableEq H] in
theorem RenamePair.precedes_iff (p q : RenamePair H) : p.precedes q ↔ p.place ≤ q.place := by
  rw [RenamePair.precedes, RenamePair.place, RenamePair.place, Prod.Lex.toLex_le_toLex]
  by_cases hscore : p.score = q.score
  · by_cases hold : p.old.1.path = q.old.1.path
    · simp [hscore, hold, Prod.Lex.toLex_le_toLex]
    · simp [hscore, hold, Prod.Lex.toLex_le_toLex]
  · simp [hscore]

omit [DecidableEq H] in
theorem sorted_pairs (ps : List (RenamePair H)) :
    (ps.insertionSort RenamePair.precedes).Pairwise fun p q => q.score ≤ p.score := by
  have htotal : ∀ p q : RenamePair H, p.precedes q ∨ q.precedes p := by
    intro p q
    rw [RenamePair.precedes_iff, RenamePair.precedes_iff]
    exact le_total _ _
  have htrans : ∀ p q r : RenamePair H, p.precedes q → q.precedes r → p.precedes r := by
    intro p q r
    rw [RenamePair.precedes_iff, RenamePair.precedes_iff, RenamePair.precedes_iff]
    exact le_trans
  have : Std.Total (RenamePair.precedes : RenamePair H → RenamePair H → Prop) := ⟨htotal⟩
  have : IsTrans (RenamePair H) RenamePair.precedes := ⟨htrans⟩
  refine (List.pairwise_insertionSort RenamePair.precedes ps).imp ?_
  intro p q hle
  rw [RenamePair.precedes] at hle
  split at hle
  · exact hle.le
  next hscore => exact (not_not.mp hscore).ge

/-- The pairs of a choice are of deleted and added files, each in one pair. -/
structure Choice (changes : List (ScoredChange H)) (chosen : List (RenamePair H)) : Prop where
  old_mem : ∀ p ∈ chosen, p.old ∈ changesWith .deleted changes
  new_mem : ∀ p ∈ chosen, p.new ∈ changesWith .added changes
  old_inj : ∀ p ∈ chosen, ∀ q ∈ chosen, p.old.2 = q.old.2 → p = q
  new_inj : ∀ p ∈ chosen, ∀ q ∈ chosen, p.new.2 = q.new.2 → p = q

theorem chosenPairs_eq : chosenPairs order load threshold changes =
    greedy RenamePair.shares []
      ((renamePairs order load threshold changes).insertionSort RenamePair.precedes) :=
  choosePairs_eq [] _

theorem mem_of_mem_chosenPairs {p : RenamePair H}
    (hp : p ∈ chosenPairs order load threshold changes) :
    p ∈ renamePairs order load threshold changes := by
  rw [chosenPairs_eq] at hp
  exact (List.mem_insertionSort _).mp ((greedy_sublist _ _).subset hp)

theorem chosenPairs_choice : Choice changes (chosenPairs order load threshold changes) := by
  have hmem : ∀ p ∈ chosenPairs order load threshold changes, _ := fun p hp =>
    mem_renamePairs.mp (mem_of_mem_chosenPairs hp)
  have hapart : (chosenPairs order load threshold changes).Pairwise
      fun p q => q.shares p = false := by
    rw [chosenPairs_eq]
    exact greedy_pairwise _ _
  have hshares : ∀ p ∈ chosenPairs order load threshold changes,
      ∀ q ∈ chosenPairs order load threshold changes, p ≠ q →
        p.old.2 ≠ q.old.2 ∧ p.new.2 ≠ q.new.2 := by
    intro p hp q hq hne
    have : Std.Symm fun p q : RenamePair H => p.old.2 ≠ q.old.2 ∧ p.new.2 ≠ q.new.2 :=
      ⟨fun _ _ h => ⟨h.1.symm, h.2.symm⟩⟩
    have hpairs : (chosenPairs order load threshold changes).Pairwise
        fun p q => p.old.2 ≠ q.old.2 ∧ p.new.2 ≠ q.new.2 := by
      refine hapart.imp ?_
      intro p q h
      simp only [RenamePair.shares, Bool.or_eq_false_iff, decide_eq_false_iff_not] at h
      exact ⟨Ne.symm h.1, Ne.symm h.2⟩
    exact hpairs.forall hp hq hne
  refine ⟨fun p hp => (hmem p hp).1, fun p hp => (hmem p hp).2.1, ?_, ?_⟩
  · intro p hp q hq heq
    by_contra hne
    exact (hshares p hp q hq hne).1 heq
  · intro p hp q hq heq
    by_contra hne
    exact (hshares p hp q hq hne).2 heq

/-- A pair that is similar enough shares a file with a chosen pair that is at
least as similar; a chosen pair shares it with itself. -/
theorem chosenPairs_covers {p : RenamePair H} (hp : p ∈ renamePairs order load threshold changes) :
    ∃ q ∈ chosenPairs order load threshold changes, p.shares q = true ∧ p.score ≤ q.score := by
  rw [chosenPairs_eq]
  have hnone : ∀ q ∈ ([] : List (RenamePair H)), ∀ p ∈ (renamePairs order load threshold
      changes).insertionSort RenamePair.precedes, p.score ≤ q.score := by
    simp
  rcases greedy_covers (sorted_pairs _) hnone ((List.mem_insertionSort _).mpr hp) with
    hin | ⟨q, hq, hshares, hle⟩
  · exact ⟨p, hin, by simp [RenamePair.shares], le_rfl⟩
  · rcases hq with hq | hq
    · cases hq
    · exact ⟨q, hq, hshares, hle⟩

end Chosen

end Diff

end Nipa
