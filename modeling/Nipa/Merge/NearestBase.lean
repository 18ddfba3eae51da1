import Nipa.Merge.MergeBase
import Nipa.Support.Loops

/-!
# The merge base is a common ancestor, and the nearest one on straight histories

The search ends on every finite history.  It returns nothing exactly when the
two commits have no common ancestor, and a common ancestor otherwise.  Where
every commit has at most one parent, the ancestors of a commit lie on one line,
a search passes the nearer of two of them first, and the first meeting is the
common ancestor that descends from all others.
-/

namespace Nipa

open Support

/-! ## The loop of the search -/

section Rounds

variable {H : Type}

/-- What the search keeps between two rounds. -/
structure MergeBaseSearch where
  seenA : List ID
  seenB : List ID
  queueA : List ID
  queueB : List ID

/-- One round: the first side moves one generation up, then the other one. -/
def searchRound (db : DB H) (s : MergeBaseSearch) :
    Except DomainError (Option ID ⊕ MergeBaseSearch) :=
  if s.queueA = [] ∧ s.queueB = [] then .ok (.inl none)
  else do
    match ← expandQueue db s.seenB s.queueA s.seenA [] with
    | .inl p => return .inl (some p)
    | .inr (seenA', nextA) =>
        match ← expandQueue db seenA' s.queueB s.seenB [] with
        | .inl p => return .inl (some p)
        | .inr (seenB', nextB) => return .inr ⟨seenA', seenB', nextA, nextB⟩

/-- Both sides have seen and queued their own commit. -/
def searchStart (a c : ID) : MergeBaseSearch :=
  ⟨[a], [c], [a], [c]⟩

variable {db : DB H} {a c : ID}

theorem searchRound_eq (hdag : CommitDAG db) {queueA queueB : List ID}
    (hqA : ∀ id ∈ queueA, id ∈ db.commits.map Commit.id)
    (hqB : ∀ id ∈ queueB, id ∈ db.commits.map Commit.id) (seenA seenB : List ID) :
    searchRound db ⟨seenA, seenB, queueA, queueB⟩ =
      if queueA = [] ∧ queueB = [] then .ok (.inl none)
      else
        match scanParents seenB (queueA.flatMap (parentsOf db)) seenA [] with
        | .inl p => .ok (.inl (some p))
        | .inr (seenA', nextA) =>
            match scanParents seenA' (queueB.flatMap (parentsOf db)) seenB [] with
            | .inl p => .ok (.inl (some p))
            | .inr (seenB', nextB) => .ok (.inr ⟨seenA', seenB', nextA, nextB⟩) := by
  rw [searchRound, expandQueue_eq hdag _ hqA]
  split
  · rfl
  · rcases scanParents seenB (queueA.flatMap (parentsOf db)) seenA [] with p | ⟨seenA', nextA⟩
    · rfl
    · change (expandQueue db seenA' queueB seenB [] >>= _) = _
      rw [expandQueue_eq hdag _ hqB]
      dsimp only
      rcases scanParents seenA' (queueB.flatMap (parentsOf db)) seenB [] with p | ⟨_, _⟩
      · rfl
      · rfl

/-- The rounds that stay within the number of commits are the whole loop: the
queues run empty before the count does. -/
theorem searchRounds_loop (hdag : CommitDAG db) (ha : a ∈ db.commits.map Commit.id)
    (hc : c ∈ db.commits.map Commit.id) {rounds r : ℕ} {seenA seenB queueA queueB : List ID}
    (hA : Frontier (parentsOf db) a r seenA queueA)
    (hB : Frontier (parentsOf db) c r seenB queueB)
    (hwa : walks (parentsOf db) a (r + rounds) = [])
    (hwc : walks (parentsOf db) c (r + rounds) = []) :
    Loop (searchRound db) ⟨seenA, seenB, queueA, queueB⟩
      (searchRounds db rounds seenA seenB queueA queueB) := by
  induction rounds generalizing r seenA seenB queueA queueB with
  | zero =>
      obtain rfl := Frontier.queue_nil_of_walks hA hwa
      obtain rfl := Frontier.queue_nil_of_walks hB hwc
      exact Loop.leave rfl
  | succ rounds ih =>
      have hqA := Frontier.queue_stored hdag ha hA
      have hqB := Frontier.queue_stored hdag hc hB
      have hround := searchRound_eq hdag hqA hqB seenA seenB
      rw [searchRounds_succ hdag hqA hqB]
      by_cases hempty : queueA = [] ∧ queueB = []
      · rw [if_pos hempty] at hround ⊢
        exact Loop.leave hround
      · rw [if_neg hempty, scanParents_eq] at hround ⊢
        rcases hhit : (queueA.flatMap (parentsOf db)).find? (· ∈ seenB) with _ | p
        · rw [hhit] at hround
          simp only [List.nil_append] at hround ⊢
          rw [scanParents_eq] at hround ⊢
          rcases hhit' : (queueB.flatMap (parentsOf db)).find?
              (· ∈ (thin seenA (queueA.flatMap (parentsOf db))).reverse ++ seenA) with _ | p
          · rw [hhit'] at hround
            refine Loop.again hround (ih hA.next hB.next ?_ ?_)
            · rwa [Nat.add_right_comm, Nat.add_assoc]
            · rwa [Nat.add_right_comm, Nat.add_assoc]
          · rw [hhit'] at hround
            exact Loop.leave hround
        · rw [hhit] at hround
          exact Loop.leave hround

theorem findMergeBase_loop (hdag : CommitDAG db) (ha : a ∈ db.commits.map Commit.id)
    (hc : c ∈ db.commits.map Commit.id) (hac : a ≠ c) :
    Loop (searchRound db) (searchStart a c) (findMergeBase db (some a) (some c)) := by
  rw [findMergeBase, if_neg hac]
  refine searchRounds_loop hdag ha hc (Frontier.start a) (Frontier.start c) ?_ ?_
  · rw [Nat.zero_add]
    exact hdag.walks_eq_nil ha
  · rw [Nat.zero_add]
    exact hdag.walks_eq_nil hc

end Rounds

/-! ## The merge base on every history -/

section Bases

variable {H : Type} {db : DB H} {a c : ID}

theorem CommitDAG.acyclic_parentsOf (h : CommitDAG db) : Acyclic (parentsOf db) := by
  obtain ⟨rank, hrank⟩ := h.acyclic
  have hle : ∀ {x y : ID}, Ancestor (parentsOf db) x y → x = y ∨ rank x < rank y := by
    intro x y hxy
    induction hxy with
    | refl => exact Or.inl rfl
    | tail _ hstep ih =>
        obtain ⟨commit, hmem, rfl, hp⟩ := mem_parentsOf hstep
        have hlt := hrank commit hmem _ hp
        rcases ih with rfl | ih
        · exact Or.inr hlt
        · exact Or.inr (hlt.trans ih)
  intro x y hxy hyx
  rcases hle hxy with heq | hlt
  · exact heq
  · rcases hle hyx with heq | hlt'
    · exact heq.symm
    · omega

theorem CommitDAG.parentsOf_eq (hdag : CommitDAG db) {c : Commit H} (hc : c ∈ db.commits) :
    parentsOf db c.id = commitParents c := by
  have hget : db.getCommit c.id = some c :=
    (find?_key_eq_some_iff hdag.ids_nodup).mpr ⟨hc, rfl⟩
  rw [parentsOf, hget]

theorem CommitDAG.parent_ne (hdag : CommitDAG db) {c : Commit H} (hc : c ∈ db.commits) {p : ID}
    (hp : p ∈ commitParents c) : p ≠ c.id := by
  obtain ⟨rank, hrank⟩ := hdag.acyclic
  intro heq
  have hlt := hrank c hc p hp
  rw [heq] at hlt
  exact lt_irrefl _ hlt

/-- What the merge base of two commits has to be. -/
structure SoundMergeBase (db : DB H) (a c : ID) (res : Option ID) : Prop where
  none_iff : res = none ↔ ¬ ∃ x, CommonAncestor (parentsOf db) a c x
  common : ∀ x, res = some x → CommonAncestor (parentsOf db) a c x
  nearest : Straight (parentsOf db) a → Straight (parentsOf db) c → ∀ x, res = some x →
    NearestCommonAncestor (parentsOf db) a c x ∧
      ∀ y, NearestCommonAncestor (parentsOf db) a c y → y = x

theorem Found.sound {res : Option ID} (h : Found db a c res) (hdag : CommitDAG db) :
    SoundMergeBase db a c res := by
  obtain ⟨hfirst, hnone⟩ := h
  have hcommon : ∀ x, res = some x → CommonAncestor (parentsOf db) a c x := by
    intro x hx
    obtain ⟨t, hmeets, -⟩ := hfirst x hx
    exact hmeets.commonAncestor
  constructor
  · constructor
    · rintro hres ⟨x, hx⟩
      exact hnone hres x hx
    · intro hno
      rw [Option.eq_none_iff_forall_ne_some]
      intro x hx
      exact hno ⟨x, hcommon x hx⟩
  · exact hcommon
  · intro ha hc x hx
    have hnearest := (hfirst x hx).nearest hdag.acyclic_parentsOf ha hc
    exact ⟨hnearest, fun y hy => hnearest.unique hdag.acyclic_parentsOf hy⟩

/-- On every history the search ends, with the merge base of the two commits. -/
theorem findMergeBase_sound (hdag : CommitDAG db) (ha : a ∈ db.commits.map Commit.id)
    (hc : c ∈ db.commits.map Commit.id) :
    ∃ res, findMergeBase db (some a) (some c) = .ok res ∧
      (a ≠ c → Loop (searchRound db) (searchStart a c) (.ok res)) ∧
      SoundMergeBase db a c res := by
  obtain ⟨res, hres, hfound⟩ := findMergeBase_found hdag ha hc
  refine ⟨res, hres, ?_, hfound.sound hdag⟩
  intro hac
  rw [← hres]
  exact findMergeBase_loop hdag ha hc hac

/-- Two branches from commit 1, one of them two commits long. -/
def forkStore : DB IdealHash :=
  { demoStore with commits := [demoCommit 1 none none, demoCommit 2 (some 1) none,
      demoCommit 3 (some 2) none, demoCommit 4 (some 1) none] }

theorem findMergeBase_sound_fork :
    ∃ res, findMergeBase forkStore (some 3) (some 4) = .ok res ∧
      ((3 : ID) ≠ 4 → Loop (searchRound forkStore) (searchStart 3 4) (.ok res)) ∧
      SoundMergeBase forkStore 3 4 res :=
  findMergeBase_sound ⟨by decide, by decide, id, by decide⟩ (by decide) (by decide)

end Bases

end Nipa
