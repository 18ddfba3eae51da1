import Nipa.History.FirstParents
import Nipa.Review.Gate

/-!
# The commits of a merge request

A merge request lists the commits its source adds to its target: the first
parents of the source head, down to the merge base of the two heads.  The merge
base need not be on the first-parent chain, though.  Once the source has merged
the target it is the target head, the walk does not meet it, and the list runs
on into commits the target has had all along.

The join of the commits with their authors is left out.
-/

namespace Nipa

open Support

/-! ## The query and the call -/

section Query

variable {H : Type}

def mergeRequestCommitLimit : ℕ := 250

/-- The recursive part of the query: the chain from a commit, which is not
continued past the stop.  The rounds bound the recursion, which adds a row for
every commit of the chain. -/
def commitChain (db : DB H) (stop : ID) : ℕ → ID → List (Commit H)
  | 0, _ => []
  | rounds + 1, id =>
      match db.getCommit id with
      | none => []
      | some c =>
          c :: match c.parent1ID with
            | none => []
            | some p => if c.id ≠ stop then commitChain db stop rounds p else []

/-- The chain from a commit down to the stop, without it; zero is no stop. -/
def commitLogUntil (db : DB H) (projectID startCommitID stopCommitID : ID) (limit : ℕ) :
    List (Commit H) :=
  ((commitChain db stopCommitID db.commits.length startCommitID).filter
    fun c => c.projectID = projectID ∧ c.id ≠ stopCommitID).take limit

/-- The stop of the list: the merge base with the target, when there is one. -/
def requestStop (s : RequestStore H) (perm : PermissionUsecase) (projectID : ID)
    (targetBranch : Str) (sourceHead : ID) : Except DomainError ID :=
  match s.db.getBranchByName projectID targetBranch with
  | none => .ok 0
  | some target =>
      match target.commitID with
      | none => .ok 0
      | some targetHead => do
          let base ← getMergeBase s.db perm projectID targetHead sourceHead
          return base.getD 0

/-- The commits of a merge request, newest first. -/
def requestCommits (s : RequestStore H) (perm : PermissionUsecase) (projectID : ID) (number : ℤ) :
    Except DomainError (List (Commit H)) := do
  let mr ← loadRequest s perm projectID number
  let source ← branchByName s.db projectID mr.sourceBranch
  match source.commitID with
  | none => return []
  | some sourceHead =>
      let stop ← requestStop s perm projectID mr.targetBranch sourceHead
      return commitLogUntil s.db projectID sourceHead stop mergeRequestCommitLimit

end Query

/-! ## The listed part of a chain -/

section Listed

variable {H : Type} {db : DB H} {projectID head : ID} {chain : List (Commit H)}

theorem commitChain_step (hdag : CommitDAG db) {c : Commit H} (hc : c ∈ db.commits) (stop : ID)
    (rounds : ℕ) :
    commitChain db stop (rounds + 1) c.id =
      c :: match c.parent1ID with
        | none => []
        | some p => if c.id ≠ stop then commitChain db stop rounds p else [] := by
  have hget : db.getCommit c.id = some c :=
    (find?_key_eq_some_iff hdag.ids_nodup).mpr ⟨hc, rfl⟩
  rw [commitChain, hget]

theorem commitChain_filter (hdag : CommitDAG db) (hchain : FirstParentChain db head chain)
    (hproject : ∀ c ∈ chain, c.projectID = projectID) (stop : ID) {rounds : ℕ}
    (hrounds : chain.length ≤ rounds) :
    (commitChain db stop rounds head).filter
        (fun c => c.projectID = projectID ∧ c.id ≠ stop) =
      chain.takeWhile fun c => c.id ≠ stop := by
  induction hchain generalizing rounds with
  | @root c hc hparent =>
      obtain ⟨rounds, rfl⟩ := Nat.exists_eq_add_of_le' hrounds
      have hp := hproject c (by simp)
      rw [List.length_singleton, commitChain_step hdag hc, hparent]
      by_cases hstop : c.id = stop
      · simp [hstop]
      · simp [hp, hstop]
  | @child c p older hc hparent _ ih =>
      rw [List.length_cons] at hrounds
      obtain ⟨rounds, rfl⟩ := Nat.exists_eq_add_of_le' (Nat.le_of_add_left_le hrounds)
      have hp := hproject c (by simp)
      rw [commitChain_step hdag hc, hparent]
      by_cases hstop : c.id = stop
      · simp [hstop]
      · dsimp only
        rw [if_pos hstop, List.filter_cons_of_pos (by simp [hp, hstop]),
          List.takeWhile_cons_of_pos (by simpa using hstop),
          ih (fun c' hc' => hproject c' (List.mem_cons_of_mem _ hc')) (by omega)]

theorem commitLogUntil_eq (hdag : CommitDAG db) (hchain : FirstParentChain db head chain)
    (hproject : ∀ c ∈ chain, c.projectID = projectID) (stop : ID) (limit : ℕ) :
    commitLogUntil db projectID head stop limit =
      (chain.takeWhile fun c => c.id ≠ stop).take limit := by
  rw [commitLogUntil, commitChain_filter hdag hchain hproject stop (hchain.length_le hdag)]

/-- The first commit of a chain that another head contains. -/
def FirstShared (db : DB H) (t : ID) (chain : List (Commit H)) (c : Commit H) : Prop :=
  ∃ new older, chain = new ++ c :: older ∧ (∀ c' ∈ new, ¬ Ancestor (parentsOf db) c'.id t) ∧
    Ancestor (parentsOf db) c.id t

theorem FirstShared.notContained_append {t : ID} {c : Commit H} (hdag : CommitDAG db)
    (hchain : FirstParentChain db head chain) (h : FirstShared db t chain c) :
    ∃ older, chain = notContained db (some t) chain ++ c :: older := by
  obtain ⟨new, older, hsplit, hnew, hc⟩ := h
  refine ⟨older, ?_⟩
  have htake : notContained db (some t) chain = new := by
    rw [hchain.notContained_eq hdag, hsplit, List.takeWhile_append_of_pos (by simpa using hnew),
      List.takeWhile_cons_of_neg (by simpa using hc), List.append_nil]
  rw [htake]
  exact hsplit

/-- Either the head shares nothing with the chain, or it has a first shared
commit. -/
theorem shared_cases (db : DB H) (chain : List (Commit H)) (t : ID) :
    (notContained db (some t) chain = chain ∧
      ∀ c ∈ chain, ¬ Ancestor (parentsOf db) c.id t) ∨ ∃ c, FirstShared db t chain c := by
  by_cases hall : ∀ c ∈ chain, ¬ Ancestor (parentsOf db) c.id t
  · refine Or.inl ⟨?_, hall⟩
    rw [notContained, List.filter_eq_self]
    simpa using hall
  · refine Or.inr ?_
    push Not at hall
    obtain ⟨c, hc, hanc⟩ := hall
    induction chain with
    | nil => cases hc
    | cons c' chain ih =>
        by_cases hc' : Ancestor (parentsOf db) c'.id t
        · exact ⟨c', [], chain, rfl, by simp, hc'⟩
        · have hmem : c ∈ chain := by
            rcases List.mem_cons.mp hc with rfl | hc
            · exact absurd hanc hc'
            · exact hc
          obtain ⟨c'', new, older, rfl, hnew, hshared⟩ := ih hmem
          refine ⟨c'', c' :: new, older, rfl, ?_, hshared⟩
          intro d hd
          rcases List.mem_cons.mp hd with rfl | hd
          · exact hc'
          · exact hnew d hd

end Listed

/-! ## When the list is exact -/

section Exact

variable {H : Type} {projectID : ID} {chain : List (Commit H)}

/-- The request is between a source head and a target head, where there is one. -/
structure RequestOf (s : RequestStore H) (perm : PermissionUsecase) (projectID : ID) (number : ℤ)
    (head : ID) (target : Option ID) : Prop where
  reads : perm.hasProjectAccess .read = true
  rows : ∃ mr source, loadRequest s perm projectID number = .ok mr ∧
    s.db.getBranchByName projectID mr.sourceBranch = some source ∧
    source.commitID = some head ∧
    (s.db.getBranchByName projectID mr.targetBranch).bind Branch.commitID = target

/-- The list ends where it should: it fits the cap, and the first commit of the
chain that the target has is where the searches for the merge base meet, or
lies just behind the cap. -/
def EndsAtShared (db : DB H) (head : ID) (target : Option ID) (chain : List (Commit H)) : Prop :=
  (notContained db target chain).length ≤ mergeRequestCommitLimit ∧
    ∀ t ∈ target, ∀ c, FirstShared db t chain c →
      FirstMet (parentsOf db) t head c.id ∨
        (notContained db target chain).length = mergeRequestCommitLimit

theorem requestCommits_eq {s : RequestStore H} {perm : PermissionUsecase} {number : ℤ} {head : ID}
    {target : Option ID} (hdag : CommitDAG s.db)
    (hrequest : RequestOf s perm projectID number head target)
    (hchain : FirstParentChain s.db head chain)
    (hproject : ∀ c ∈ s.db.commits, (Ancestor (parentsOf s.db) c.id head ∨
      ∃ t ∈ target, Ancestor (parentsOf s.db) c.id t) → c.projectID = projectID)
    (htarget : ∀ t ∈ target, t ∈ s.db.commits.map Commit.id) :
    ∃ stop, requestCommits s perm projectID number =
        .ok ((chain.takeWhile fun c => c.id ≠ stop).take mergeRequestCommitLimit) ∧
      ((target = none ∧ stop = 0) ∨ ∃ t base, target = some t ∧
        Found s.db t head base ∧ stop = base.getD 0) := by
  obtain ⟨hreads, mr, source, hload, hsource, hhead, htargetHead⟩ := hrequest
  have hinProject : ∀ c ∈ chain, c.projectID = projectID := fun c hc =>
    hproject c (hchain.mem_commits c hc) (Or.inl (hchain.ancestor hdag c hc))
  have hsourceRow : branchByName s.db projectID mr.sourceBranch = .ok source := by
    rw [branchByName, hsource]
    rfl
  have hlist : ∀ stop, requestStop s perm projectID mr.targetBranch head = .ok stop →
      requestCommits s perm projectID number =
        .ok ((chain.takeWhile fun c => c.id ≠ stop).take mergeRequestCommitLimit) := by
    intro stop hstop
    rw [requestCommits, hload]
    change (branchByName s.db projectID mr.sourceBranch >>= _) = _
    rw [hsourceRow]
    simp only [bind, Except.bind, hhead, hstop,
      commitLogUntil_eq hdag hchain hinProject]
    rfl
  rw [← htargetHead] at htarget hproject ⊢
  rcases hrow : s.db.getBranchByName projectID mr.targetBranch with _ | row
  · refine ⟨0, hlist 0 ?_, Or.inl ⟨rfl, rfl⟩⟩
    rw [requestStop, hrow]
  · rw [hrow] at htarget hproject
    rcases hcommit : row.commitID with _ | t
    · refine ⟨0, hlist 0 ?_, Or.inl ⟨hcommit, rfl⟩⟩
      rw [requestStop, hrow]
      dsimp only
      rw [hcommit]
    · have ht : t ∈ s.db.commits.map Commit.id := htarget t hcommit
      obtain ⟨base, hbase, hfound⟩ := findMergeBase_found hdag ht hchain.head_mem
      refine ⟨base.getD 0, hlist _ ?_, Or.inr ⟨t, base, hcommit, hfound, rfl⟩⟩
      obtain ⟨ct, hct, -, rfl⟩ := hdag.exists_getCommit ht
      obtain ⟨ch, hch, -, rfl⟩ := hdag.exists_getCommit hchain.head_mem
      have hct' := commitByIDInProject_eq hdag hct
        (hproject ct hct (Or.inr ⟨ct.id, hcommit, Relation.ReflTransGen.refl⟩))
      have hch' := commitByIDInProject_eq hdag hch
        (hproject ch hch (Or.inl Relation.ReflTransGen.refl))
      rw [requestStop, hrow]
      simp only [hcommit, getMergeBase, hreads, hct', hch', hbase]
      rfl

/-- A merge request lists exactly the commits of the source's first-parent chain
that the target does not have, if and only if the list ends where it should. -/
theorem requestCommits_exact_iff {s : RequestStore H} {perm : PermissionUsecase} {number : ℤ}
    {head : ID} {target : Option ID} (hdag : CommitDAG s.db)
    (hids : ∀ c ∈ s.db.commits, c.id ≠ 0)
    (hrequest : RequestOf s perm projectID number head target)
    (hchain : FirstParentChain s.db head chain)
    (hproject : ∀ c ∈ s.db.commits, (Ancestor (parentsOf s.db) c.id head ∨
      ∃ t ∈ target, Ancestor (parentsOf s.db) c.id t) → c.projectID = projectID)
    (htarget : ∀ t ∈ target, t ∈ s.db.commits.map Commit.id) :
    requestCommits s perm projectID number = .ok (notContained s.db target chain) ↔
      EndsAtShared s.db head target chain := by
  obtain ⟨stop, hlist, hstop⟩ := requestCommits_eq hdag hrequest hchain hproject htarget
  rw [hlist, Except.ok.injEq, EndsAtShared]
  -- a stop off the chain stops nothing
  have hoff : (∀ c ∈ chain, c.id ≠ stop) →
      (chain.takeWhile fun c => c.id ≠ stop) = chain := by
    intro h
    rw [List.takeWhile_eq_self_iff]
    simpa using h
  rcases hstop with ⟨rfl, rfl⟩ | ⟨t, base, rfl, ⟨hmet, hnone⟩, rfl⟩
  · have hall : notContained s.db none chain = chain := by simp [notContained]
    rw [hoff fun c hc => hids c (hchain.mem_commits c hc), hall, List.take_eq_self_iff]
    simp
  · rcases shared_cases s.db chain t with ⟨hall, hunshared⟩ | ⟨c, hshared⟩
    · have hstop : ∀ c ∈ chain, c.id ≠ base.getD 0 := by
        intro c hc
        cases base with
        | none => exact hids c (hchain.mem_commits c hc)
        | some b =>
            rintro rfl
            obtain ⟨time, hmeets, -⟩ := hmet c.id rfl
            exact hunshared c hc hmeets.commonAncestor.1
      have hno : ∀ c, ¬ FirstShared s.db t chain c := by
        rintro c ⟨new, older, rfl, -, hc⟩
        exact hunshared c (by simp) hc
      rw [hoff hstop, hall, List.take_eq_self_iff]
      constructor
      · intro hle
        exact ⟨hle, fun t' ht' c hc => absurd (Option.mem_some.mp ht' ▸ hc) (hno c)⟩
      · exact And.left
    · have hanc := hchain.ancestor hdag
      obtain ⟨older, hsplit⟩ := hshared.notContained_append hdag hchain
      have hcmem : c ∈ chain := by
        rw [hsplit]
        simp
      have hct : Ancestor (parentsOf s.db) c.id t := by
        obtain ⟨-, -, -, -, hct⟩ := hshared
        exact hct
      obtain ⟨b, rfl⟩ : ∃ b, base = some b := by
        refine Option.ne_none_iff_exists'.mp fun hbase => ?_
        exact hnone hbase c.id ⟨hct, hanc c hcmem⟩
      have hb := hmet b rfl
      have hnew : ∀ c' ∈ notContained s.db (some t) chain, decide (c'.id ≠ b) = true := by
        intro c' hc'
        rw [decide_eq_true_eq]
        rintro rfl
        obtain ⟨time, hmeets, -⟩ := hb
        have hnot := (List.mem_filter.mp hc').2
        simp only [Option.mem_def, Option.some.injEq, forall_eq', decide_eq_true_eq] at hnot
        exact hnot hmeets.commonAncestor.1
      have hmeet : decide (c.id ≠ b) = false ↔ FirstMet (parentsOf s.db) t head c.id := by
        rw [decide_eq_false_iff_not, not_not]
        constructor
        · rintro rfl
          exact hb
        · exact fun h => h.unique hb
      have hiff : (chain.takeWhile fun c => c.id ≠ b).take mergeRequestCommitLimit =
          notContained s.db (some t) chain ↔
          (notContained s.db (some t) chain).length ≤ mergeRequestCommitLimit ∧
            (FirstMet (parentsOf s.db) t head c.id ∨
              (notContained s.db (some t) chain).length = mergeRequestCommitLimit) := by
        rw [← hmeet, ← take_takeWhile_eq_iff hnew, ← hsplit]
      rw [Option.getD_some, hiff]
      refine and_congr_right fun _ => ?_
      constructor
      · intro h t' ht' c' hc'
        obtain rfl := Option.mem_some.mp ht'
        obtain ⟨older', hsplit'⟩ := hc'.notContained_append hdag hchain
        have heq := List.append_cancel_left (hsplit.symm.trans hsplit')
        rw [(List.cons.inj heq).1] at h
        exact h
      · intro h
        exact h t rfl c hshared

end Exact

/-! ## A source that has merged its target -/

/-- The request from a branch to a mainline with the head 2. -/
def mergedRequests (sourceHead : ID) : RequestStore IdealHash where
  db := { mergedStore with
    branches := [⟨1, 1, "main".toList, false, true, some 2, false⟩,
      ⟨2, 1, "feature".toList, false, false, some sourceHead, false⟩] }
  policies _ := ⟨0, false, false, [], []⟩
  requests := [⟨9, 1, 1, 2, 1, "feature".toList, "main".toList, "work".toList, .opened, false, 5,
    none⟩]
  reviews := []
  checks := []

/-- Before the merge the list is right: commit 1 is where the searches meet. -/
theorem requestCommits_exact_demo :
    requestCommits (mergedRequests 3) demoCaller.perm 1 1 =
        .ok (notContained (mergedRequests 3).db (some 2) [demoCommit 3 (some 1) none,
          demoCommit 1 none none]) ∧
      EndsAtShared (mergedRequests 3).db 3 (some 2) [demoCommit 3 (some 1) none,
        demoCommit 1 none none] := by
  have hdag : CommitDAG (mergedRequests 3).db := ⟨by decide, by decide, id, by decide⟩
  have hproject : ∀ c ∈ (mergedRequests 3).db.commits, c.projectID = 1 := by decide
  have hchain : FirstParentChain (mergedRequests 3).db 3 [demoCommit 3 (some 1) none,
      demoCommit 1 none none] := by
    refine FirstParentChain.child (c := demoCommit 3 (some 1) none) (by decide) rfl ?_
    exact FirstParentChain.root (c := demoCommit 1 none none) (by decide) rfl
  have hshared : Ancestor (parentsOf (mergedRequests 3).db) 1 2 :=
    ancestor_iff_walks.mpr ⟨1, by decide⟩
  have hclosed : ∀ x ∈ [2, 1], ∀ y ∈ parentsOf (mergedRequests 3).db x, y ∈ [2, 1] := by decide
  have hnew : ¬ Ancestor (parentsOf (mergedRequests 3).db) 3 2 := fun h =>
    absurd (ancestor_mem_of_closed hclosed (by decide) h) (by decide)
  have hlist : requestCommits (mergedRequests 3) demoCaller.perm 1 1 =
      .ok (notContained (mergedRequests 3).db (some 2) [demoCommit 3 (some 1) none,
        demoCommit 1 none none]) := by
    have hleft : notContained (mergedRequests 3).db (some 2) [demoCommit 3 (some 1) none,
        demoCommit 1 none none] = [demoCommit 3 (some 1) none] := by
      simp [notContained, demoCommit, hshared, hnew]
    rw [hleft]
    rfl
  have hrequest : RequestOf (mergedRequests 3) demoCaller.perm 1 1 3 (some 2) :=
    ⟨rfl, _, _, rfl, rfl, rfl, rfl⟩
  exact ⟨hlist, (requestCommits_exact_iff hdag (by decide) hrequest hchain
    (fun c hc _ => hproject c hc) (by decide)).mp hlist⟩

/-- The source head 4 has merged the target head 2, and the request lists
commit 1, which the target has. -/
theorem requestCommits_lists_shared :
    requestCommits (mergedRequests 4) demoCaller.perm 1 1 = .ok mergedChain ∧
      FirstParentChain (mergedRequests 4).db 4 mergedChain ∧
      demoCommit 1 none none ∈ mergedChain ∧
      Ancestor (parentsOf (mergedRequests 4).db) 1 2 ∧
      ¬ requestCommits (mergedRequests 4) demoCaller.perm 1 1 =
        .ok (notContained (mergedRequests 4).db (some 2) mergedChain) := by
  have hlist : requestCommits (mergedRequests 4) demoCaller.perm 1 1 = .ok mergedChain := rfl
  have hchain : FirstParentChain (mergedRequests 4).db 4 mergedChain := by
    refine FirstParentChain.child (c := demoCommit 4 (some 3) (some 2)) (by decide) rfl ?_
    refine FirstParentChain.child (c := demoCommit 3 (some 1) none) (by decide) rfl ?_
    exact FirstParentChain.root (c := demoCommit 1 none none) (by decide) rfl
  have hanc : Ancestor (parentsOf (mergedRequests 4).db) 1 2 :=
    ancestor_iff_walks.mpr ⟨1, by decide⟩
  have hmem : demoCommit 1 none none ∈ mergedChain := by decide
  refine ⟨hlist, hchain, hmem, hanc, ?_⟩
  rw [hlist, Except.ok.injEq]
  intro heq
  rw [heq] at hmem
  have hnot := (List.mem_filter.mp hmem).2
  simp only [Option.mem_def, Option.some.injEq, forall_eq', decide_eq_true_eq] at hnot
  exact hnot hanc

end Nipa
