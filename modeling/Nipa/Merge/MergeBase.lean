import Nipa.Support.Ancestry
import Nipa.Push.Run

/-!
# The merge base of two commits

The server looks for the merge base with two breadth-first searches that take
turns, one from each head, and returns the first commit both have seen.  That
commit is a common ancestor, but an old ancestor reached by a short path can be
met before a newer one.
-/

namespace Nipa

open Support

/-! ## The search -/

section Search

variable {H : Type}

def commitParents (c : Commit H) : List ID :=
  c.parent1ID.toList ++ c.parent2ID.toList

/-- Look at the parents of one frontier: stop at one the other side has seen,
queue the others that are new. -/
def scanParents (seenOther : List ID) :
    List ID → List ID → List ID → ID ⊕ (List ID × List ID)
  | [], seen, next => .inr (seen, next)
  | p :: ps, seen, next =>
      if p ∈ seenOther then .inl p
      else if p ∈ seen then scanParents seenOther ps seen next
      else scanParents seenOther ps (p :: seen) (next ++ [p])

/-- Load the commits of a queue one by one and look at their parents. -/
def expandQueue (db : DB H) (seenOther : List ID) :
    List ID → List ID → List ID → Except DomainError (ID ⊕ (List ID × List ID))
  | [], seen, next => .ok (.inr (seen, next))
  | id :: rest, seen, next => do
      let commit ← getCommit db id
      match scanParents seenOther (commitParents commit) seen next with
      | .inl p => return .inl p
      | .inr (seen', next') => expandQueue db seenOther rest seen' next'

/-- The rounds of the search.  Each round queues only commits that were not
seen before, so there are no more rounds than commits. -/
def searchRounds (db : DB H) :
    ℕ → List ID → List ID → List ID → List ID → Except DomainError (Option ID)
  | 0, _, _, _, _ => .ok none
  | rounds + 1, seenA, seenB, queueA, queueB =>
      if queueA = [] ∧ queueB = [] then .ok none
      else do
        match ← expandQueue db seenB queueA seenA [] with
        | .inl p => return some p
        | .inr (seenA', nextA) =>
            match ← expandQueue db seenA' queueB seenB [] with
            | .inl p => return some p
            | .inr (seenB', nextB) => searchRounds db rounds seenA' seenB' nextA nextB

def findMergeBase (db : DB H) : Option ID → Option ID → Except DomainError (Option ID)
  | some a, some c =>
      if a = c then .ok (some a)
      else searchRounds db db.commits.length [a] [c] [a] [c]
  | _, _ => .ok none

end Search

/-! ## The commit graph -/

section Graph

variable {H : Type}

/-- The parents of a commit by its number. -/
def parentsOf (db : DB H) (id : ID) : List ID :=
  match db.getCommit id with
  | none => []
  | some c => commitParents c

/-- The commits are a directed acyclic graph: numbers are unique, parents are
stored, and every parent ranks below its child. -/
structure CommitDAG (db : DB H) : Prop where
  ids_nodup : (db.commits.map Commit.id).Nodup
  stored : ∀ c ∈ db.commits, ∀ p ∈ commitParents c, p ∈ db.commits.map Commit.id
  acyclic : ∃ rank : ID → ℕ, ∀ c ∈ db.commits, ∀ p ∈ commitParents c, rank p < rank c.id

variable {db : DB H}

theorem CommitDAG.exists_getCommit (h : CommitDAG db) {id : ID}
    (hid : id ∈ db.commits.map Commit.id) :
    ∃ c ∈ db.commits, db.getCommit id = some c ∧ c.id = id := by
  obtain ⟨c, hc, rfl⟩ := List.mem_map.mp hid
  exact ⟨c, hc, (find?_key_eq_some_iff h.ids_nodup).mpr ⟨hc, rfl⟩, rfl⟩

theorem mem_parentsOf {id p : ID} (hp : p ∈ parentsOf db id) :
    ∃ c ∈ db.commits, c.id = id ∧ p ∈ commitParents c := by
  rw [parentsOf] at hp
  split at hp
  · simp at hp
  next c hc =>
    exact ⟨c, List.mem_of_find?_eq_some hc, by simpa using List.find?_some hc, hp⟩

theorem CommitDAG.parent_stored (h : CommitDAG db) {id p : ID} (hp : p ∈ parentsOf db id) :
    p ∈ db.commits.map Commit.id := by
  obtain ⟨c, hc, -, hpc⟩ := mem_parentsOf hp
  exact h.stored c hc p hpc

theorem CommitDAG.walks_stored (h : CommitDAG db) {a : ID}
    (ha : a ∈ db.commits.map Commit.id) {r : ℕ} :
    ∀ x ∈ walks (parentsOf db) a r, x ∈ db.commits.map Commit.id := by
  rcases r with _ | r
  · intro x hx
    rw [List.mem_singleton.mp hx]
    exact ha
  · intro x hx
    obtain ⟨y, -, hxy⟩ := List.mem_flatMap.mp hx
    exact h.parent_stored hxy

theorem CommitDAG.walks_eq_nil (h : CommitDAG db) {a : ID}
    (ha : a ∈ db.commits.map Commit.id) :
    walks (parentsOf db) a db.commits.length = [] := by
  obtain ⟨rank, hrank⟩ := h.acyclic
  have hchain : ∀ r, ∀ x ∈ walks (parentsOf db) a r, ∃ l : List ID, l.length = r + 1 ∧
      l.Nodup ∧ (∀ y ∈ l, y ∈ db.commits.map Commit.id) ∧ ∀ y ∈ l, rank x ≤ rank y := by
    intro r
    induction r with
    | zero =>
        intro x hx
        obtain rfl := List.mem_singleton.mp hx
        exact ⟨[x], rfl, List.nodup_singleton x, by simpa using ha, by simp⟩
    | succ r ih =>
        intro x hx
        obtain ⟨y, hy, hxy⟩ := List.mem_flatMap.mp hx
        obtain ⟨l, hlen, hnodup, hmem, hle⟩ := ih y hy
        obtain ⟨c, hc, rfl, hpc⟩ := mem_parentsOf hxy
        have hlt := hrank c hc x hpc
        refine ⟨x :: l, by simp [hlen], List.nodup_cons.mpr ⟨?_, hnodup⟩, ?_, ?_⟩
        · intro hxl
          have := hle x hxl
          omega
        · intro z hz
          rcases List.mem_cons.mp hz with rfl | hz
          · exact h.parent_stored hxy
          · exact hmem z hz
        · intro z hz
          rcases List.mem_cons.mp hz with rfl | hz
          · exact le_refl _
          · have := hle z hz
            omega
  rw [List.eq_nil_iff_forall_not_mem]
  intro x hx
  obtain ⟨l, hlen, hnodup, hmem, -⟩ := hchain _ x hx
  have hle := (List.subperm_of_subset hnodup hmem).length_le
  rw [List.length_map] at hle
  omega

end Graph

/-! ## What the search returns -/

section Spec

variable {H : Type} {db : DB H}

theorem scanParents_eq (seenOther ps seen next : List ID) :
    scanParents seenOther ps seen next =
      match ps.find? (· ∈ seenOther) with
      | some p => .inl p
      | none => .inr ((thin seen ps).reverse ++ seen, next ++ thin seen ps) := by
  induction ps generalizing seen next with
  | nil => simp [scanParents, thin]
  | cons p ps ih =>
      rw [scanParents, thin]
      by_cases hp : p ∈ seenOther
      · rw [if_pos hp, List.find?_cons_of_pos (by simpa using hp)]
      · rw [if_neg hp, List.find?_cons_of_neg (by simpa using hp)]
        by_cases hs : p ∈ seen
        · rw [if_pos hs, if_pos hs, ih]
        · rw [if_neg hs, if_neg hs, ih]
          simp

theorem expandQueue_eq (hdag : CommitDAG db) (seenOther : List ID) {queue : List ID}
    (hq : ∀ id ∈ queue, id ∈ db.commits.map Commit.id) (seen next : List ID) :
    expandQueue db seenOther queue seen next =
      .ok (scanParents seenOther (queue.flatMap (parentsOf db)) seen next) := by
  induction queue generalizing seen next with
  | nil => rfl
  | cons id rest ih =>
      obtain ⟨c, -, hget, -⟩ := hdag.exists_getCommit (hq id (by simp))
      have hparents : parentsOf db id = commitParents c := by rw [parentsOf, hget]
      have hload : getCommit db id = .ok c := by
        rw [getCommit, hget]
        rfl
      have hrest := fun seen next => ih (fun x hx => hq x (by simp [hx])) seen next
      rw [expandQueue, hload, List.flatMap_cons, hparents]
      change (match scanParents seenOther (commitParents c) seen next with
        | .inl p => Except.ok (Sum.inl p)
        | .inr (seen', next') => expandQueue db seenOther rest seen' next') = _
      rw [scanParents_eq, scanParents_eq, List.find?_append]
      rcases hfind : (commitParents c).find? (· ∈ seenOther) with _ | p
      · simp only [Option.none_or]
        rw [hrest, scanParents_eq, thin_append]
        have hcongr : thin ((thin seen (commitParents c)).reverse ++ seen)
            (rest.flatMap (parentsOf db)) =
            thin (commitParents c ++ seen) (rest.flatMap (parentsOf db)) := by
          refine thin_congr ?_ _
          intro x
          simp only [List.mem_append, List.mem_reverse, mem_thin]
          by_cases hx : x ∈ seen
          · simp [hx]
          · simp [hx]
        rw [hcongr]
        rcases (rest.flatMap (parentsOf db)).find? (· ∈ seenOther) with _ | p
        · simp
        · rfl
      · rfl

theorem Frontier.queue_stored (hdag : CommitDAG db) {a : ID}
    (ha : a ∈ db.commits.map Commit.id) {r : ℕ} {seen queue : List ID}
    (h : Frontier (parentsOf db) a r seen queue) :
    ∀ id ∈ queue, id ∈ db.commits.map Commit.id := by
  intro id hid
  obtain ⟨old, -, rfl⟩ := h.queue_eq
  exact hdag.walks_stored ha id (mem_thin.mp hid).1

/-- What the search finds: the first meeting, or nothing where there is no
common ancestor. -/
def Found (db : DB H) (a c : ID) (res : Option ID) : Prop :=
  (∀ x, res = some x → FirstMet (parentsOf db) a c x) ∧
    (res = none → ∀ x, ¬ CommonAncestor (parentsOf db) a c x)

theorem found_none {a c : ID} {r : ℕ} {seenA seenB : List ID}
    (hA : Frontier (parentsOf db) a r seenA []) (hB : Frontier (parentsOf db) c r seenB [])
    (hnone : ∀ t ≤ 2 * r, ∀ x, ¬ Meets (parentsOf db) a c t x) : Found db a c none := by
  refine ⟨by simp, ?_⟩
  rintro - x ⟨hxa, hxc⟩
  obtain ⟨t, ht, hmeets⟩ := exists_meets ((hA.mem_seen x).mp (hA.mem_seen_of_queue_nil hxa))
    ((hB.mem_seen x).mp (hB.mem_seen_of_queue_nil hxc))
  exact hnone t ht x hmeets

theorem Frontier.queue_nil_of_walks {a : ID} {r : ℕ} {seen queue : List ID}
    (h : Frontier (parentsOf db) a r seen queue) (hw : walks (parentsOf db) a r = []) :
    queue = [] := by
  obtain ⟨old, -, rfl⟩ := h.queue_eq
  rw [hw]
  rfl

theorem searchRounds_succ (hdag : CommitDAG db) {queueA queueB : List ID}
    (hqA : ∀ id ∈ queueA, id ∈ db.commits.map Commit.id)
    (hqB : ∀ id ∈ queueB, id ∈ db.commits.map Commit.id) (rounds : ℕ)
    (seenA seenB : List ID) :
    searchRounds db (rounds + 1) seenA seenB queueA queueB =
      if queueA = [] ∧ queueB = [] then .ok none
      else
        match scanParents seenB (queueA.flatMap (parentsOf db)) seenA [] with
        | .inl p => .ok (some p)
        | .inr (seenA', nextA) =>
            match scanParents seenA' (queueB.flatMap (parentsOf db)) seenB [] with
            | .inl p => .ok (some p)
            | .inr (seenB', nextB) => searchRounds db rounds seenA' seenB' nextA nextB := by
  rw [searchRounds, expandQueue_eq hdag _ hqA]
  split
  · rfl
  · rcases scanParents seenB (queueA.flatMap (parentsOf db)) seenA [] with p | ⟨seenA', nextA⟩
    · rfl
    · change (expandQueue db seenA' queueB seenB [] >>= _) = _
      rw [expandQueue_eq hdag _ hqB]
      dsimp only
      rcases scanParents seenA' (queueB.flatMap (parentsOf db)) seenB [] with p | ⟨_, _⟩
      · rfl
      · rfl

section Turns

variable {a c : ID} {r : ℕ} {seenA seenB queueA queueB : List ID}

theorem turn_first (hA : Frontier (parentsOf db) a r seenA queueA)
    (hB : Frontier (parentsOf db) c r seenB queueB)
    (hnone : ∀ t ≤ 2 * r, ∀ x, ¬ Meets (parentsOf db) a c t x) :
    match (queueA.flatMap (parentsOf db)).find? (· ∈ seenB) with
    | some p => FirstMet (parentsOf db) a c p
    | none => ∀ t ≤ 2 * r + 1, ∀ x, ¬ Meets (parentsOf db) a c t x := by
  have hfind := hA.find?_eq (p := fun x => decide (x ∈ seenB)) (by
    intro x hxa hxb
    rw [decide_eq_true_eq, hB.mem_seen] at hxb
    obtain ⟨t, ht, hmeets⟩ := exists_meets hxa hxb
    exact hnone t ht x hmeets)
  have hwait : ∀ y, decide (y ∈ seenB) = true ↔
      Waiting (parentsOf db) a c (2 * r + 1) y := by
    intro y
    rw [decide_eq_true_eq, hB.mem_seen, Waiting, if_neg (by omega),
      show (2 * r + 1) / 2 = r by omega]
  rw [hfind, ← line_odd a c r]
  split
  next p hp => exact firstMet_of_find? hwait (fun s hs => hnone s (by omega)) hp
  next hp =>
    intro t ht x hx
    rcases Nat.lt_or_ge t (2 * r + 1) with hlt | hge
    · exact hnone t (by omega) x hx
    · obtain rfl : t = 2 * r + 1 := by omega
      exact List.find?_eq_none.mp hp x hx.1 ((hwait x).mpr hx.2)

theorem turn_second (hA : Frontier (parentsOf db) a (r + 1) seenA queueA)
    (hB : Frontier (parentsOf db) c r seenB queueB)
    (hnone : ∀ t ≤ 2 * r + 1, ∀ x, ¬ Meets (parentsOf db) a c t x) :
    match (queueB.flatMap (parentsOf db)).find? (· ∈ seenA) with
    | some p => FirstMet (parentsOf db) a c p
    | none => ∀ t ≤ 2 * (r + 1), ∀ x, ¬ Meets (parentsOf db) a c t x := by
  have hfind := hB.find?_eq (p := fun x => decide (x ∈ seenA)) (by
    intro x hxc hxa
    rw [decide_eq_true_eq, hA.mem_seen] at hxa
    rcases within_succ.mp hxa with hxa | hxa
    · obtain ⟨t, ht, hmeets⟩ := exists_meets hxa hxc
      exact hnone t (by omega) x hmeets
    · exact hnone _ (le_refl _) x (meets_odd.mpr ⟨hxa, hxc⟩))
  have hwait : ∀ y, decide (y ∈ seenA) = true ↔
      Waiting (parentsOf db) a c (2 * (r + 1)) y := by
    intro y
    rw [decide_eq_true_eq, hA.mem_seen, Waiting, if_pos (by omega),
      Nat.mul_div_cancel_left _ (by omega)]
  rw [hfind, ← line_even a c (r + 1)]
  split
  next p hp => exact firstMet_of_find? hwait (fun s hs => hnone s (by omega)) hp
  next hp =>
    intro t ht x hx
    rcases Nat.lt_or_ge t (2 * (r + 1)) with hlt | hge
    · exact hnone t (by omega) x hx
    · obtain rfl : t = 2 * (r + 1) := by omega
      exact List.find?_eq_none.mp hp x hx.1 ((hwait x).mpr hx.2)

end Turns

theorem found_some {a c p : ID} (h : FirstMet (parentsOf db) a c p) :
    Found db a c (some p) := by
  refine ⟨?_, by simp⟩
  rintro x hx
  obtain rfl := Option.some.inj hx
  exact h

/-- The rounds find the first meeting.  The invariant: after `r` rounds both
sides have seen what is within `r` steps and have not met. -/
theorem searchRounds_found (hdag : CommitDAG db) {a c : ID}
    (ha : a ∈ db.commits.map Commit.id) (hc : c ∈ db.commits.map Commit.id)
    {rounds r : ℕ} {seenA seenB queueA queueB : List ID}
    (hA : Frontier (parentsOf db) a r seenA queueA)
    (hB : Frontier (parentsOf db) c r seenB queueB)
    (hnone : ∀ t ≤ 2 * r, ∀ x, ¬ Meets (parentsOf db) a c t x)
    (hwa : walks (parentsOf db) a (r + rounds) = [])
    (hwc : walks (parentsOf db) c (r + rounds) = []) :
    ∃ res, searchRounds db rounds seenA seenB queueA queueB = .ok res ∧
      Found db a c res := by
  induction rounds generalizing r seenA seenB queueA queueB with
  | zero =>
      obtain rfl := Frontier.queue_nil_of_walks hA hwa
      obtain rfl := Frontier.queue_nil_of_walks hB hwc
      exact ⟨none, rfl, found_none hA hB hnone⟩
  | succ rounds ih =>
      rw [searchRounds_succ hdag (Frontier.queue_stored hdag ha hA)
        (Frontier.queue_stored hdag hc hB)]
      by_cases hempty : queueA = [] ∧ queueB = []
      · rw [if_pos hempty]
        obtain ⟨rfl, rfl⟩ := hempty
        exact ⟨none, rfl, found_none hA hB hnone⟩
      · rw [if_neg hempty, scanParents_eq]
        have hfirst := turn_first hA hB hnone
        rcases hhit : (queueA.flatMap (parentsOf db)).find? (· ∈ seenB) with _ | p
        · rw [hhit] at hfirst
          have hA' := hA.next
          simp only [List.nil_append]
          rw [scanParents_eq]
          have hsecond := turn_second hA' hB hfirst
          rcases hhit' : (queueB.flatMap (parentsOf db)).find?
              (· ∈ (thin seenA (queueA.flatMap (parentsOf db))).reverse ++ seenA) with _ | p
          · rw [hhit'] at hsecond
            simp only [List.nil_append]
            refine ih hA' hB.next hsecond ?_ ?_
            · rwa [Nat.add_right_comm, Nat.add_assoc]
            · rwa [Nat.add_right_comm, Nat.add_assoc]
          · rw [hhit'] at hsecond
            exact ⟨some p, rfl, found_some hsecond⟩
        · rw [hhit] at hfirst
          exact ⟨some p, rfl, found_some hfirst⟩

theorem findMergeBase_found (hdag : CommitDAG db) {a c : ID}
    (ha : a ∈ db.commits.map Commit.id) (hc : c ∈ db.commits.map Commit.id) :
    ∃ res, findMergeBase db (some a) (some c) = .ok res ∧ Found db a c res := by
  rw [findMergeBase]
  by_cases hac : a = c
  · rw [if_pos hac]
    subst hac
    refine ⟨some a, rfl, found_some ⟨0, meets_even.mpr ⟨by simp [walks], 0, le_refl 0,
      by simp [walks]⟩, ?_⟩⟩
    intro s y hy
    rcases Nat.eq_zero_or_pos s with rfl | hpos
    · refine Or.inr ⟨rfl, ?_⟩
      rw [show line (parentsOf db) a a 0 = [a] from rfl]
      simp
    · exact Or.inl hpos
  · rw [if_neg hac]
    refine searchRounds_found hdag ha hc (Frontier.start a) (Frontier.start c) ?_ ?_ ?_
    · intro t ht x hx
      obtain rfl : t = 0 := by omega
      obtain ⟨hxc, i, hi, hxa⟩ := (meets_even (r := 0)).mp hx
      obtain rfl : i = 0 := by omega
      exact hac ((List.mem_singleton.mp hxa).symm.trans (List.mem_singleton.mp hxc))
    · rw [Nat.zero_add]
      exact hdag.walks_eq_nil ha
    · rw [Nat.zero_add]
      exact hdag.walks_eq_nil hc

end Spec

/-! ## When the merge base is a best one -/

section Best

variable {H : Type} {db : DB H}

/-- The search returns a maximal common ancestor when there is a common
ancestor at all, and the first head when that is an ancestor of the second. -/
structure BestMergeBase (db : DB H) (a c : ID) (res : Option ID) : Prop where
  maximal : ∀ x, res = some x → MaximalCommonAncestor (parentsOf db) a c x
  found : ∀ x, CommonAncestor (parentsOf db) a c x → res ≠ none
  fastForward : Ancestor (parentsOf db) a c → res = some a

/-- Before every common ancestor that another one descends from, some common
ancestor is met. -/
def NoneMetTooEarly (db : DB H) (a c : ID) : Prop :=
  ∀ x, CommonAncestor (parentsOf db) a c x → ¬ MaximalCommonAncestor (parentsOf db) a c x →
    ∃ z, MetBefore (parentsOf db) a c z x

theorem findMergeBase_best_iff (hdag : CommitDAG db) {a c : ID}
    (ha : a ∈ db.commits.map Commit.id) (hc : c ∈ db.commits.map Commit.id) :
    (∃ res, findMergeBase db (some a) (some c) = .ok res ∧ BestMergeBase db a c res) ↔
      NoneMetTooEarly db a c := by
  obtain ⟨res, hres, hfirst, hnone⟩ := findMergeBase_found hdag ha hc
  constructor
  · rintro ⟨res', hres', hbest⟩
    obtain rfl := Except.ok.inj (hres.symm.trans hres')
    intro x hx hnot
    obtain ⟨b, rfl⟩ := Option.ne_none_iff_exists'.mp (hbest.found x hx)
    exact (hfirst b rfl).maximal_iff.mp (hbest.maximal b rfl) x hx hnot
  · intro hcond
    have hmax : ∀ x, res = some x → MaximalCommonAncestor (parentsOf db) a c x := fun x hx =>
      (hfirst x hx).maximal_iff.mpr hcond
    refine ⟨res, hres, hmax, fun x hx hn => hnone hn x hx, ?_⟩
    intro hac
    have hne : res ≠ none := fun hn => hnone hn a ⟨Relation.ReflTransGen.refl, hac⟩
    obtain ⟨b, rfl⟩ := Option.ne_none_iff_exists'.mp hne
    rw [(hmax b rfl).eq_of_ancestor hac]

end Best

/-! ## A short way to an old commit -/

/-- A commit of a small history. -/
def demoCommit (id : ID) (parent1 parent2 : Option ID) : Commit IdealHash :=
  ⟨id, .digest [], 1, 1, parent1, parent2, 5, []⟩

/-- Commits `1 ← 2 ← 3` and a merge `4` of `3` with the old commit `1`. -/
def shortcutStore : DB IdealHash :=
  { demoStore with commits := [demoCommit 1 none none, demoCommit 2 (some 1) none,
      demoCommit 3 (some 2) none, demoCommit 4 (some 3) (some 1)] }

theorem shortcut_dag : CommitDAG shortcutStore :=
  ⟨by decide, by decide, id, by decide⟩

theorem findMergeBase_best_demo :
    ∃ res, findMergeBase shortcutStore (some 2) (some 3) = .ok res ∧
      BestMergeBase shortcutStore 2 3 res := by
  refine (findMergeBase_best_iff shortcut_dag (by decide) (by decide)).mpr ?_
  have hle : ∀ {x y : ID}, Ancestor (parentsOf shortcutStore) x y → x ≤ y := by
    intro x y h
    induction h with
    | refl => exact le_refl _
    | tail _ hstep ih =>
        obtain ⟨c, hc, rfl, hp⟩ := mem_parentsOf hstep
        have hlt : ∀ c ∈ shortcutStore.commits, ∀ p ∈ commitParents c, p ≤ c.id := by decide
        exact le_trans (hlt c hc _ hp) ih
  have hmax : MaximalCommonAncestor (parentsOf shortcutStore) 2 3 2 :=
    ⟨⟨Relation.ReflTransGen.refl, ancestor_iff_walks.mpr ⟨1, by decide⟩⟩,
      fun y hy hdesc => le_antisymm (hle hy.1) (hle hdesc)⟩
  -- commit 2 is met in turn 2, and nothing else before or in it
  intro x _ hnot
  refine ⟨2, 2, (meets_even (r := 1)).mpr ⟨by decide, 0, by decide, by decide⟩, ?_⟩
  intro s hs
  by_contra hlate
  have hturn : s ≤ 2 := by
    rw [not_or] at hlate
    omega
  rcases (by omega : s = 0 ∨ s = 1 ∨ s = 2) with rfl | rfl | rfl
  · obtain ⟨hx, i, hi, hxa⟩ := (meets_even (r := 0)).mp hs
    obtain rfl : i = 0 := by omega
    exact absurd ((List.mem_singleton.mp hxa).symm.trans (List.mem_singleton.mp hx))
      (by decide)
  · obtain ⟨hx, i, hi, hxc⟩ := (meets_odd (r := 0)).mp hs
    obtain rfl : i = 0 := by omega
    rw [List.mem_singleton.mp hxc] at hx
    exact absurd hx (by decide)
  · obtain ⟨hx, -⟩ := (meets_even (r := 1)).mp hs
    have hx2 : x = 2 := List.mem_singleton.mp hx
    exact hnot (hx2 ▸ hmax)

/-- Commit 2 is an ancestor of commit 4, and the search returns commit 1. -/
theorem shortcut_met_too_early :
    CommitDAG shortcutStore ∧ (findMergeBase shortcutStore (some 2) (some 4) = .ok (some 1)) ∧
      Ancestor (parentsOf shortcutStore) 2 4 ∧
      ¬ ∃ res, findMergeBase shortcutStore (some 2) (some 4) = .ok res ∧
        BestMergeBase shortcutStore 2 4 res := by
  have hanc : Ancestor (parentsOf shortcutStore) 2 4 :=
    ancestor_iff_walks.mpr ⟨2, by decide⟩
  refine ⟨shortcut_dag, rfl, hanc, ?_⟩
  rintro ⟨res, hres, hbest⟩
  obtain rfl := Except.ok.inj ((rfl : findMergeBase shortcutStore (some 2) (some 4) =
    .ok (some 1)).symm.trans hres)
  exact absurd (hbest.fastForward hanc) (by decide)

end Nipa
