import Nipa.History.FirstParents
import Mathlib.Data.Set.Card

/-!
# The commits of a range

The server lists the commits that are reachable from a start over both parents
and cuts the walk at a stop commit.  The walk is depth-first with a stack of its
own: a frame is visited once, and the frame that takes its place emits the
commit when everything above it is done.  The list is the emitted commits
backwards.

A commit is marked when it is put on the stack, not when it is visited.  A
commit therefore comes before its ancestors unless a merge has a second parent
that is an ancestor of its first parent.
-/

namespace Nipa

open Support

/-! ## The walk -/

section Walk

variable {H : Type}

def maxCommitWalkNodes : ℕ := 10000

/-- A frame of the walk; an expanded one keeps the commit it has loaded. -/
inductive Frame (H : Type) where
  | visit (id : ID)
  | expanded (commit : Commit H)

def Frame.id : Frame H → ID
  | .visit id => id
  | .expanded commit => commit.id

@[simp] theorem Frame.id_visit (id : ID) : (Frame.visit id : Frame H).id = id := rfl

@[simp] theorem Frame.id_expanded (commit : Commit H) : (Frame.expanded commit).id = commit.id :=
  rfl

/-- The state of the walk; the top of the stack comes first. -/
structure CommitWalk (H : Type) where
  visited : List ID
  stack : List (Frame H)
  ordered : List (Commit H)

def errRangeTooLarge : DomainError :=
  errUser "commit range is too large" []

/-- Put the parents that were not seen before on the stack. -/
def pushParents :
    List ID → List (Frame H) → List ID → Except DomainError (List ID × List (Frame H))
  | visited, stack, [] => .ok (visited, stack)
  | visited, stack, p :: ps =>
      if p ∈ visited then pushParents visited stack ps
      else if maxCommitWalkNodes ≤ visited.length then .error errRangeTooLarge
      else pushParents (p :: visited) (.visit p :: stack) ps

/-- One turn of the walk: take the top frame off the stack. -/
def walkRound (db : DB H) (projectID : ID) (stop : Option ID) (w : CommitWalk H) :
    Except DomainError (List (Commit H) ⊕ CommitWalk H) :=
  match w.stack with
  | [] => .ok (.inl w.ordered)
  | .expanded commit :: stack =>
      .ok (.inr { w with stack := stack, ordered := w.ordered ++ [commit] })
  | .visit id :: stack =>
      if stop = some id then .ok (.inr { w with stack := stack })
      else do
        let commit ← commitByIDInProject db projectID id
        let (visited, stack') ← pushParents w.visited (.expanded commit :: stack)
          (commitParents commit).reverse
        return .inr ⟨visited, stack', w.ordered⟩

def walkStart (start : ID) : CommitWalk H :=
  ⟨[start], [.visit start], []⟩

/-- The number of commits a caller asks for. -/
def walkLimit (limit : ℤ) : ℕ :=
  if limit ≤ 0 then 50 else limit.toNat

/-- The commits of a range.  A commit is visited once and emitted once, so the
rounds suffice; the result would be `none` if they did not. -/
def walkCommitsRange (db : DB H) (projectID start : ID) (stop : Option ID) (limit : ℤ) :
    Option (Except DomainError (List (Commit H))) :=
  if stop = some start then some (.ok [])
  else
    (runFor (walkRound db projectID stop) (2 * db.commits.length + 2) (walkStart start)).map
      fun res => res.map fun ordered => ordered.reverse.take (walkLimit limit)

end Walk

/-! ## What a range is -/

section Range

variable {H : Type}

/-- The commit graph cut at the stop commit: nothing is reached through it. -/
def parentsBefore (db : DB H) (stop : Option ID) (id : ID) : List ID :=
  if stop = some id then [] else parentsOf db id

/-- No listed merge has a second parent that is an ancestor of its first one. -/
def NoMergeOfAncestor (db : DB H) (stop : Option ID) (start : ID) : Prop :=
  ∀ c ∈ db.commits, stop ≠ some c.id → Ancestor (parentsBefore db stop) c.id start →
    ∀ p q, c.parent1ID = some p → c.parent2ID = some q → p ≠ q →
      ¬ Ancestor (parentsBefore db stop) q p

/-- The listing of a range: what is reachable from the start without passing
the stop, once each, and descendants before their ancestors. -/
structure RangeListing (db : DB H) (start : ID) (stop : Option ID) (commits : List (Commit H)) :
    Prop where
  nodup : (commits.map Commit.id).Nodup
  mem_iff : ∀ c, c ∈ commits ↔
    c ∈ db.commits ∧ stop ≠ some c.id ∧ Ancestor (parentsBefore db stop) c.id start
  sorted : NoMergeOfAncestor db stop start →
    commits.Pairwise fun c c' => ¬ Ancestor (parentsBefore db stop) c.id c'.id

variable {db : DB H} {stop : Option ID} {start : ID}

theorem mem_parentsBefore {id p : ID} :
    p ∈ parentsBefore db stop id ↔ stop ≠ some id ∧ p ∈ parentsOf db id := by
  rw [parentsBefore]
  split
  next h => simp [h]
  next h => simp [h]

theorem CommitDAG.acyclic_parentsBefore (hdag : CommitDAG db) (stop : Option ID) :
    Acyclic (parentsBefore db stop) := by
  have hsub : ∀ y, ∀ p ∈ parentsBefore db stop y, p ∈ parentsOf db y :=
    fun y p hp => (mem_parentsBefore.mp hp).2
  intro x y hxy hyx
  exact hdag.acyclic_parentsOf x y (hxy.mono hsub) (hyx.mono hsub)

theorem CommitDAG.parent_ancestor (hdag : CommitDAG db) {c : Commit H} (hc : c ∈ db.commits)
    (hstop : stop ≠ some c.id) {p : ID} (hp : p ∈ commitParents c) :
    Ancestor (parentsBefore db stop) p c.id := by
  rw [← hdag.parentsOf_eq hc] at hp
  exact Relation.ReflTransGen.single (mem_parentsBefore.mpr ⟨hstop, hp⟩)

theorem CommitDAG.ancestor_stored (hdag : CommitDAG db)
    (hstart : start ∈ db.commits.map Commit.id) {x : ID}
    (hx : Ancestor (parentsBefore db stop) x start) : x ∈ db.commits.map Commit.id := by
  induction hx with
  | refl => exact hstart
  | tail _ hstep _ => exact hdag.parent_stored (mem_parentsBefore.mp hstep).2

end Range

/-! ## The invariant of the walk -/

section Invariant

variable {H : Type} {db : DB H} {projectID start : ID} {stop : Option ID}

theorem pushParents_eq (visited : List ID) (stack : List (Frame H)) (ps : List ID) :
    pushParents visited stack ps =
      if thin visited ps = [] ∨
          visited.length + (thin visited ps).length ≤ maxCommitWalkNodes then
        .ok ((thin visited ps).reverse ++ visited,
          (thin visited ps).reverse.map Frame.visit ++ stack)
      else .error errRangeTooLarge := by
  induction ps generalizing visited stack with
  | nil => simp [pushParents, thin]
  | cons p ps ih =>
      rw [pushParents, thin]
      by_cases hp : p ∈ visited
      · rw [if_pos hp, if_pos hp, ih]
      · rw [if_neg hp, if_neg hp]
        by_cases hfull : maxCommitWalkNodes ≤ visited.length
        · rw [if_pos hfull, if_neg]
          rintro (hnil | hle)
          · cases hnil
          · rw [List.length_cons] at hle
            omega
        · rw [if_neg hfull, ih]
          rcases hthin : thin (p :: visited) ps with _ | ⟨q, qs⟩
          · have hle : visited.length + 1 ≤ maxCommitWalkNodes := by omega
            simp [hle]
          · simp only [List.length_cons, reduceCtorEq, false_or, List.reverse_cons,
              List.append_assoc, List.map_append, List.map_cons, List.map_nil]
            rw [show visited.length + 1 + (qs.length + 1) =
              visited.length + (qs.length + 1 + 1) by omega]
            rfl

/-- The frames above an expanded commit are its ancestors; the frames above a
waiting second parent are ancestors of the first one. -/
def Above (db : DB H) (stop : Option ID) (start : ID) (g : Frame H) : Frame H → Prop
  | .expanded e => g.id ≠ e.id ∧ Ancestor (parentsBefore db stop) g.id e.id
  | .visit q => ∃ c ∈ db.commits, stop ≠ some c.id ∧
      Ancestor (parentsBefore db stop) c.id start ∧ ∃ p, c.parent1ID = some p ∧
        c.parent2ID = some q ∧ p ≠ q ∧ Ancestor (parentsBefore db stop) g.id p

/-- Every parent of an emitted commit was emitted before it, or is the stop. -/
def ParentsBelow (stop : Option ID) : List (Commit H) → Prop
  | [] => True
  | c :: older =>
      (∀ p ∈ commitParents c, stop = some p ∨ p ∈ older.map Commit.id) ∧
        ParentsBelow stop older

/-- The invariant of the walk: what is marked is reachable, waits on the stack
or was emitted, and frames lie above their descendants. -/
structure CommitWalk.Inv (db : DB H) (start : ID) (stop : Option ID) (w : CommitWalk H) :
    Prop where
  start_visited : start ∈ w.visited
  visited_nodup : w.visited.Nodup
  visited_le : w.visited.length ≤ maxCommitWalkNodes
  visited_reached : ∀ x ∈ w.visited, Ancestor (parentsBefore db stop) x start
  placed_nodup : (w.ordered.map Commit.id ++ w.stack.map Frame.id).Nodup
  placed_visited : ∀ x ∈ w.ordered.map Commit.id ++ w.stack.map Frame.id, x ∈ w.visited
  visited_placed : ∀ x ∈ w.visited,
    stop = some x ∨ x ∈ w.ordered.map Commit.id ++ w.stack.map Frame.id
  loaded : ∀ c, c ∈ w.ordered ∨ Frame.expanded c ∈ w.stack →
    c ∈ db.commits ∧ stop ≠ some c.id ∧ ∀ p ∈ commitParents c, p ∈ w.visited
  discipline : w.stack.Pairwise (Above db stop start)
  sorted : NoMergeOfAncestor db stop start → ParentsBelow stop w.ordered.reverse

theorem CommitWalk.Inv.init (db : DB H) (start : ID) (stop : Option ID) :
    (walkStart start : CommitWalk H).Inv db start stop where
  start_visited := by simp [walkStart]
  visited_nodup := by simp [walkStart]
  visited_le := by simp [walkStart, maxCommitWalkNodes]
  visited_reached := by
    intro x hx
    rw [List.mem_singleton.mp hx]
    exact Relation.ReflTransGen.refl
  placed_nodup := by simp [walkStart]
  placed_visited := by simp [walkStart]
  visited_placed := by simp [walkStart]
  loaded := by simp [walkStart]
  discipline := by simp [walkStart]
  sorted := fun _ => trivial

theorem Above.of_ancestor (hacyclic : Acyclic (parentsBefore db stop)) {g g' f : Frame H}
    (h : Above db stop start g f) (hg : Ancestor (parentsBefore db stop) g'.id g.id) :
    Above db stop start g' f := by
  cases f with
  | expanded e =>
      obtain ⟨hne, hanc⟩ := h
      refine ⟨?_, hg.trans hanc⟩
      intro heq
      rw [heq] at hg
      exact hne (hacyclic _ _ hanc hg)
  | visit q =>
      obtain ⟨c, hc, hstop, hreach, p, hp, hq, hpq, hanc⟩ := h
      exact ⟨c, hc, hstop, hreach, p, hp, hq, hpq, hg.trans hanc⟩

variable {visited : List ID} {stack : List (Frame H)}

theorem CommitWalk.Inv.skip {ordered : List (Commit H)} {id : ID} (hid : stop = some id)
    (h : (⟨visited, .visit id :: stack, ordered⟩ : CommitWalk H).Inv db start stop) :
    (⟨visited, stack, ordered⟩ : CommitWalk H).Inv db start stop where
  start_visited := h.start_visited
  visited_nodup := h.visited_nodup
  visited_le := h.visited_le
  visited_reached := h.visited_reached
  placed_nodup := by
    refine h.placed_nodup.sublist ?_
    exact (List.Sublist.refl _).append (List.sublist_cons_self _ _)
  placed_visited := by
    intro x hx
    refine h.placed_visited x ?_
    rw [List.mem_append] at hx ⊢
    exact hx.imp_right (List.mem_cons_of_mem _)
  visited_placed := by
    intro x hx
    rcases h.visited_placed x hx with hstop | hx
    · exact Or.inl hstop
    · rw [List.map_cons, List.mem_append, List.mem_cons] at hx
      rcases hx with hx | rfl | hx
      · exact Or.inr (List.mem_append_left _ hx)
      · exact Or.inl hid
      · exact Or.inr (List.mem_append_right _ hx)
  loaded := by
    intro c hc
    exact h.loaded c (hc.imp_right (List.mem_cons_of_mem _))
  discipline := (List.pairwise_cons.mp h.discipline).2
  sorted := h.sorted

theorem CommitWalk.Inv.emit (hdag : CommitDAG db) {ordered : List (Commit H)} {c : Commit H}
    (h : (⟨visited, .expanded c :: stack, ordered⟩ : CommitWalk H).Inv db start stop) :
    (⟨visited, stack, ordered ++ [c]⟩ : CommitWalk H).Inv db start stop := by
  have hplaced : (ordered ++ [c]).map Commit.id ++ stack.map Frame.id =
      ordered.map Commit.id ++ (Frame.expanded c :: stack).map Frame.id := by simp
  obtain ⟨hc, hstop, hparents⟩ := h.loaded c (Or.inr List.mem_cons_self)
  obtain ⟨habove, hrest⟩ := List.pairwise_cons.mp h.discipline
  constructor
  · exact h.start_visited
  · exact h.visited_nodup
  · exact h.visited_le
  · exact h.visited_reached
  · rw [hplaced]
    exact h.placed_nodup
  · rw [hplaced]
    exact h.placed_visited
  · rw [hplaced]
    exact h.visited_placed
  · intro c' hc'
    refine h.loaded c' ?_
    rw [List.mem_append, List.mem_singleton] at hc'
    rcases hc' with (hc' | rfl) | hc'
    · exact Or.inl hc'
    · exact Or.inr List.mem_cons_self
    · exact Or.inr (List.mem_cons_of_mem _ hc')
  · exact hrest
  · intro hmerge
    rw [List.reverse_append, List.reverse_singleton, List.singleton_append]
    refine ⟨?_, h.sorted hmerge⟩
    intro p hp
    rcases h.visited_placed p (hparents p hp) with hpstop | hplace
    · exact Or.inl hpstop
    · refine Or.inr ?_
      rw [List.map_reverse, List.mem_reverse]
      rw [List.map_cons, List.mem_append, List.mem_cons] at hplace
      rcases hplace with hplace | heq | hplace
      · exact hplace
      · exact absurd heq (hdag.parent_ne hc hp)
      · -- a parent that still waits below would close a cycle or be a second
        -- parent that is an ancestor of the first one
        obtain ⟨f, hf, rfl⟩ := List.mem_map.mp hplace
        have hanc := hdag.parent_ancestor hc hstop hp
        have hfabove := habove f hf
        cases f with
        | expanded e =>
            obtain ⟨hne, hce⟩ := hfabove
            exact absurd (hdag.acyclic_parentsBefore stop c.id e.id hce hanc) hne
        | visit q =>
            obtain ⟨m, hm, hmstop, hreach, p', hp', hq, hne, hcp⟩ := hfabove
            exact absurd (hanc.trans hcp) (hmerge m hm hmstop hreach p' q hp' hq hne)

theorem CommitWalk.Inv.expand (hdag : CommitDAG db) {ordered : List (Commit H)} {c : Commit H}
    (hc : c ∈ db.commits) (hstop : stop ≠ some c.id)
    (h : (⟨visited, .visit c.id :: stack, ordered⟩ : CommitWalk H).Inv db start stop)
    {new : List ID} (hnew : new = (thin visited (commitParents c).reverse).reverse)
    (hle : visited.length + new.length ≤ maxCommitWalkNodes) :
    (⟨new ++ visited, new.map Frame.visit ++ .expanded c :: stack, ordered⟩ :
      CommitWalk H).Inv db start stop := by
  have hmem : ∀ p, p ∈ new ↔ p ∈ commitParents c ∧ p ∉ visited := by
    intro p
    rw [hnew, List.mem_reverse, mem_thin, List.mem_reverse]
  have hnodup : new.Nodup := by
    rw [hnew]
    exact List.nodup_reverse.mpr (thin_nodup _ _)
  have hdisjoint : List.Disjoint new visited := fun p hp => ((hmem p).mp hp).2
  have hreached : Ancestor (parentsBefore db stop) c.id start :=
    h.visited_reached c.id (h.placed_visited c.id (by simp))
  have hparent : ∀ p ∈ new, Ancestor (parentsBefore db stop) p c.id := fun p hp =>
    hdag.parent_ancestor hc hstop ((hmem p).mp hp).1
  have hplaced : (ordered.map Commit.id ++
      (new.map Frame.visit ++ Frame.expanded c :: stack).map Frame.id).Perm
      (new ++ (ordered.map Commit.id ++ (Frame.visit c.id :: stack).map Frame.id)) := by
    have hmap : (new.map Frame.visit ++ Frame.expanded c :: stack).map Frame.id =
        new ++ (Frame.visit c.id :: stack).map Frame.id := by
      simp [Function.comp_def]
    rw [hmap, ← List.append_assoc, ← List.append_assoc]
    exact List.perm_append_comm.append_right _
  constructor
  · exact List.mem_append_right _ h.start_visited
  · exact hnodup.append h.visited_nodup hdisjoint
  · rw [List.length_append]
    omega
  · intro x hx
    rcases List.mem_append.mp hx with hx | hx
    · exact (hparent x hx).trans hreached
    · exact h.visited_reached x hx
  · rw [hplaced.nodup_iff]
    refine hnodup.append h.placed_nodup ?_
    intro p hp hold
    exact hdisjoint hp (h.placed_visited p hold)
  · intro x hx
    rcases List.mem_append.mp (hplaced.mem_iff.mp hx) with hx | hx
    · exact List.mem_append_left _ hx
    · exact List.mem_append_right _ (h.placed_visited x hx)
  · intro x hx
    rcases List.mem_append.mp hx with hx | hx
    · exact Or.inr (hplaced.mem_iff.mpr (List.mem_append_left _ hx))
    · refine (h.visited_placed x hx).imp_right fun hx => ?_
      exact hplaced.mem_iff.mpr (List.mem_append_right _ hx)
  · intro c' hc'
    have hold : c' = c ∨ c' ∈ ordered ∨ Frame.expanded c' ∈ Frame.visit c.id :: stack := by
      rcases hc' with hc' | hc'
      · exact Or.inr (Or.inl hc')
      · rw [List.mem_append, List.mem_cons] at hc'
        rcases hc' with hc' | heq | hc'
        · obtain ⟨p, -, hp⟩ := List.mem_map.mp hc'
          cases hp
        · cases heq
          exact Or.inl rfl
        · exact Or.inr (Or.inr (List.mem_cons_of_mem _ hc'))
    rcases hold with rfl | hold
    · refine ⟨hc, hstop, ?_⟩
      intro p hp
      by_cases hpv : p ∈ visited
      · exact List.mem_append_right _ hpv
      · exact List.mem_append_left _ ((hmem p).mpr ⟨hp, hpv⟩)
    · obtain ⟨hmem', hstop', hparents⟩ := h.loaded c' hold
      exact ⟨hmem', hstop', fun p hp => List.mem_append_right _ (hparents p hp)⟩
  · obtain ⟨habove, hrest⟩ := List.pairwise_cons.mp h.discipline
    have hacyclic := hdag.acyclic_parentsBefore stop
    refine List.pairwise_append.mpr ⟨?_, List.pairwise_cons.mpr ⟨?_, hrest⟩, ?_⟩
    · rw [List.pairwise_map]
      have hpair : (commitParents c).Pairwise fun p q =>
          c.parent1ID = some p ∧ c.parent2ID = some q := by
        rw [commitParents]
        cases c.parent1ID
        · cases c.parent2ID <;> simp
        · cases c.parent2ID <;> simp
      have hsub : new.Sublist (commitParents c) := by
        rw [hnew]
        simpa using (thin_sublist visited (commitParents c).reverse).reverse
      refine ((hpair.sublist hsub).and hnodup).imp ?_
      rintro p q ⟨⟨hp, hq⟩, hne⟩
      exact ⟨c, hc, hstop, hreached, p, hp, hq, hne, Relation.ReflTransGen.refl⟩
    · intro f hf
      exact (habove f hf).of_ancestor hacyclic Relation.ReflTransGen.refl
    · intro g hg f hf
      obtain ⟨p, hp, rfl⟩ := List.mem_map.mp hg
      rcases List.mem_cons.mp hf with rfl | hf
      · exact ⟨hdag.parent_ne hc ((hmem p).mp hp).1, hparent p hp⟩
      · exact (habove f hf).of_ancestor hacyclic (hparent p hp)
  · exact h.sorted

end Invariant

/-! ## The rounds -/

section Rounds

variable {H : Type} {db : DB H} {projectID start : ID} {stop : Option ID}

/-- The part of the history that the walk can reach belongs to the project. -/
def InProject (db : DB H) (projectID start : ID) (stop : Option ID) : Prop :=
  ∀ c ∈ db.commits, Ancestor (parentsBefore db stop) c.id start → c.projectID = projectID

/-- What the walk can mark: the commits it lists and the stop it meets. -/
def reachedBefore (db : DB H) (start : ID) (stop : Option ID) : Set ID :=
  {x | Ancestor (parentsBefore db stop) x start}

theorem reachedBefore_finite (hdag : CommitDAG db) (hstart : start ∈ db.commits.map Commit.id) :
    (reachedBefore db start stop).Finite :=
  (List.finite_toSet (db.commits.map Commit.id)).subset fun _ hx =>
    hdag.ancestor_stored hstart hx

theorem length_le_reachedBefore (hdag : CommitDAG db)
    (hstart : start ∈ db.commits.map Commit.id) {l : List ID} (hnodup : l.Nodup)
    (hl : ∀ x ∈ l, Ancestor (parentsBefore db stop) x start) :
    l.length ≤ (reachedBefore db start stop).ncard := by
  rw [← List.toFinset_card_of_nodup hnodup, ← Set.ncard_coe_finset]
  refine Set.ncard_le_ncard ?_ (reachedBefore_finite hdag hstart)
  intro x hx
  exact hl x (List.mem_toFinset.mp hx)

/-- Rounds left: two for every commit that can still be marked, and what the
frames on the stack take. -/
def CommitWalk.size (db : DB H) (w : CommitWalk H) : ℕ :=
  2 * (db.commits.length - w.visited.length) +
    (w.stack.map fun f => match f with
      | .visit _ => 2
      | .expanded _ => 1).sum

variable {w : CommitWalk H}

theorem CommitWalk.Inv.visited_stored (hdag : CommitDAG db)
    (hstart : start ∈ db.commits.map Commit.id) (h : w.Inv db start stop) :
    w.visited.length ≤ db.commits.length := by
  have hsub : w.visited ⊆ db.commits.map Commit.id := fun x hx =>
    hdag.ancestor_stored hstart (h.visited_reached x hx)
  simpa using (List.subperm_of_subset h.visited_nodup hsub).length_le

theorem walkRound_visit (hdag : CommitDAG db) {c : Commit H} (hc : c ∈ db.commits)
    (hproject : c.projectID = projectID) (hstop : stop ≠ some c.id) {visited : List ID}
    (hle : visited.length ≤ maxCommitWalkNodes) (stack : List (Frame H))
    (ordered : List (Commit H)) :
    walkRound db projectID stop ⟨visited, .visit c.id :: stack, ordered⟩ =
      if visited.length + (thin visited (commitParents c).reverse).reverse.length ≤
          maxCommitWalkNodes then
        .ok (.inr ⟨(thin visited (commitParents c).reverse).reverse ++ visited,
          (thin visited (commitParents c).reverse).reverse.map Frame.visit ++
            .expanded c :: stack, ordered⟩)
      else .error errRangeTooLarge := by
  have hload := commitByIDInProject_eq hdag hc hproject
  have hcond : (thin visited (commitParents c).reverse = [] ∨
      visited.length + (thin visited (commitParents c).reverse).length ≤ maxCommitWalkNodes) ↔
      visited.length + (thin visited (commitParents c).reverse).reverse.length ≤
        maxCommitWalkNodes := by
    rw [List.length_reverse]
    constructor
    · rintro (hnil | h)
      · rw [hnil]
        exact hle
      · exact h
    · exact Or.inr
  rw [walkRound]
  dsimp only
  rw [if_neg hstop, hload]
  change (pushParents visited (.expanded c :: stack) (commitParents c).reverse >>= _) = _
  rw [pushParents_eq]
  split
  next h =>
    rw [if_pos (hcond.mp h)]
    rfl
  next h =>
    rw [if_neg (mt hcond.mpr h)]
    rfl

theorem CommitWalk.Inv.round (hdag : CommitDAG db) (hstart : start ∈ db.commits.map Commit.id)
    (hproject : InProject db projectID start stop) {w' : CommitWalk H} (h : w.Inv db start stop)
    (hround : walkRound db projectID stop w = .ok (.inr w')) :
    w'.Inv db start stop ∧ w'.size db < w.size db := by
  obtain ⟨visited, stack, ordered⟩ := w
  rcases stack with _ | ⟨f, stack⟩
  · simp [walkRound] at hround
  cases f with
  | expanded c =>
      rw [walkRound] at hround
      cases hround
      exact ⟨h.emit hdag, by simp [CommitWalk.size]⟩
  | visit id =>
      by_cases hstop : stop = some id
      · rw [walkRound] at hround
        dsimp only at hround
        rw [if_pos hstop] at hround
        cases hround
        exact ⟨h.skip hstop, by simp [CommitWalk.size]⟩
      · have hreached := h.visited_reached id (h.placed_visited id (by simp))
        obtain ⟨c, hc, -, rfl⟩ := hdag.exists_getCommit (hdag.ancestor_stored hstart hreached)
        rw [walkRound_visit hdag hc (hproject c hc hreached) hstop h.visited_le] at hround
        split at hround
        next hle =>
          cases hround
          have hnext := h.expand hdag hc hstop rfl hle
          refine ⟨hnext, ?_⟩
          have hstored := hnext.visited_stored hdag hstart
          simp only [CommitWalk.size, List.length_append, List.map_append, List.map_map,
            List.map_cons, List.sum_append, List.sum_cons] at hstored ⊢
          have hsum : ∀ l : List ID, (l.map ((fun f : Frame H => match f with
              | .visit _ => 2
              | .expanded _ => 1) ∘ Frame.visit)).sum = 2 * l.length := by
            intro l
            simp [Function.comp_def, Nat.mul_comm]
          rw [hsum]
          omega
        next => cases hround

theorem walkRound_leave {ordered : List (Commit H)}
    (hround : walkRound db projectID stop w = .ok (.inl ordered)) :
    ordered = w.ordered ∧ w.stack = [] := by
  obtain ⟨visited, stack, ordered'⟩ := w
  rcases stack with _ | ⟨f, stack⟩
  · cases hround
    exact ⟨rfl, rfl⟩
  · cases f with
    | expanded c => cases hround
    | visit id =>
        rw [walkRound] at hround
        dsimp only at hround
        split at hround
        · cases hround
        · simp only [bind_eq_ok, pure_eq_ok] at hround
          obtain ⟨_, -, _, -, heq⟩ := hround
          cases heq

theorem CommitWalk.Inv.fail (hdag : CommitDAG db) (hstart : start ∈ db.commits.map Commit.id)
    (hproject : InProject db projectID start stop) {e : DomainError} (h : w.Inv db start stop)
    (hround : walkRound db projectID stop w = .error e) :
    e = errRangeTooLarge ∧ maxCommitWalkNodes < (reachedBefore db start stop).ncard := by
  obtain ⟨visited, stack, ordered⟩ := w
  rcases stack with _ | ⟨f, stack⟩
  · simp [walkRound] at hround
  cases f with
  | expanded c => simp [walkRound] at hround
  | visit id =>
      by_cases hstop : stop = some id
      · rw [walkRound] at hround
        dsimp only at hround
        rw [if_pos hstop] at hround
        cases hround
      · have hreached := h.visited_reached id (h.placed_visited id (by simp))
        obtain ⟨c, hc, -, rfl⟩ := hdag.exists_getCommit (hdag.ancestor_stored hstart hreached)
        rw [walkRound_visit hdag hc (hproject c hc hreached) hstop h.visited_le] at hround
        split at hround
        next => cases hround
        next hlt =>
          cases hround
          refine ⟨rfl, (Nat.lt_of_not_le hlt).trans_le ?_⟩
          rw [Nat.add_comm, ← List.length_append]
          refine length_le_reachedBefore hdag hstart ?_ ?_
          · refine (List.nodup_reverse.mpr (thin_nodup _ _)).append h.visited_nodup ?_
            intro p hp
            exact (mem_thin.mp (List.mem_reverse.mp hp)).2
          · intro x hx
            rcases List.mem_append.mp hx with hx | hx
            · have hx := (mem_thin.mp (List.mem_reverse.mp hx)).1
              exact (hdag.parent_ancestor hc hstop (List.mem_reverse.mp hx)).trans hreached
            · exact h.visited_reached x hx

end Rounds

/-! ## The list -/

section Listing

variable {H : Type} {db : DB H} {projectID start : ID} {stop : Option ID}

variable {l : List (Commit H)}

theorem ParentsBelow.parent_mem (h : ParentsBelow stop l) {c : Commit H} (hc : c ∈ l) :
    ∀ p ∈ commitParents c, stop = some p ∨ p ∈ l.map Commit.id := by
  induction l with
  | nil => cases hc
  | cons c' older ih =>
      obtain ⟨hparents, hrest⟩ := h
      intro p hp
      rcases List.mem_cons.mp hc with rfl | hc
      · exact (hparents p hp).imp_right (List.mem_cons_of_mem _)
      · exact (ih hrest hc p hp).imp_right (List.mem_cons_of_mem _)

theorem ParentsBelow.ancestor_mem (hdag : CommitDAG db) (h : ParentsBelow stop l)
    (hstored : ∀ c ∈ l, c ∈ db.commits) {x y : ID} (hx : x ∈ l.map Commit.id)
    (hyx : Ancestor (parentsBefore db stop) y x) : stop = some y ∨ y ∈ l.map Commit.id := by
  induction hyx with
  | refl => exact Or.inr hx
  | tail _ hstep ih =>
      obtain ⟨hstop, hparent⟩ := mem_parentsBefore.mp hstep
      obtain ⟨c, hc, rfl⟩ := List.mem_map.mp (ih.resolve_left hstop)
      rw [hdag.parentsOf_eq (hstored c hc)] at hparent
      exact h.parent_mem hc _ hparent

theorem ParentsBelow.pairwise (hdag : CommitDAG db) (h : ParentsBelow stop l)
    (hnodup : (l.map Commit.id).Nodup) (hstored : ∀ c ∈ l, c ∈ db.commits ∧ stop ≠ some c.id) :
    l.Pairwise fun c c' => ¬ Ancestor (parentsBefore db stop) c.id c'.id := by
  induction l with
  | nil => exact List.Pairwise.nil
  | cons c older ih =>
      obtain ⟨-, hrest⟩ := h
      rw [List.map_cons, List.nodup_cons] at hnodup
      have hstored' : ∀ c' ∈ older, c' ∈ db.commits ∧ stop ≠ some c'.id := fun c' hc' =>
        hstored c' (List.mem_cons_of_mem _ hc')
      refine List.pairwise_cons.mpr ⟨?_, ih hrest hnodup.2 hstored'⟩
      intro c' hc' hanc
      rcases hrest.ancestor_mem hdag (fun x hx => (hstored' x hx).1)
        (List.mem_map_of_mem hc') hanc with hstop | hmem
      · exact (hstored c List.mem_cons_self).2 hstop
      · exact hnodup.1 hmem

theorem CommitWalk.Inv.listing (hdag : CommitDAG db) {visited : List ID}
    {ordered : List (Commit H)}
    (h : (⟨visited, [], ordered⟩ : CommitWalk H).Inv db start stop) :
    RangeListing db start stop ordered.reverse ∧
      (reachedBefore db start stop).ncard ≤ maxCommitWalkNodes := by
  have hemitted : ∀ x ∈ visited, stop ≠ some x → x ∈ ordered.map Commit.id := by
    intro x hx hstop
    simpa using (h.visited_placed x hx).resolve_left hstop
  have hloaded : ∀ c ∈ ordered, c ∈ db.commits ∧ stop ≠ some c.id ∧
      ∀ p ∈ commitParents c, p ∈ visited := fun c hc => h.loaded c (Or.inl hc)
  have hclosed : ∀ x ∈ visited, ∀ p ∈ parentsBefore db stop x, p ∈ visited := by
    intro x hx p hp
    obtain ⟨hstop, hp⟩ := mem_parentsBefore.mp hp
    obtain ⟨c, hc, rfl⟩ := List.mem_map.mp (hemitted x hx hstop)
    obtain ⟨hmem, -, hparents⟩ := hloaded c hc
    rw [hdag.parentsOf_eq hmem] at hp
    exact hparents p hp
  have hreached : ∀ x, Ancestor (parentsBefore db stop) x start → x ∈ visited := fun x hx =>
    ancestor_mem_of_closed hclosed h.start_visited hx
  have hnodup : (ordered.reverse.map Commit.id).Nodup := by
    have hplaced := h.placed_nodup
    simp only [List.map_nil, List.append_nil] at hplaced
    rw [List.map_reverse]
    exact List.nodup_reverse.mpr hplaced
  constructor
  · constructor
    · exact hnodup
    · intro c
      rw [List.mem_reverse]
      constructor
      · intro hc
        obtain ⟨hmem, hstop, -⟩ := hloaded c hc
        refine ⟨hmem, hstop, h.visited_reached c.id (h.placed_visited c.id ?_)⟩
        exact List.mem_append_left _ (List.mem_map_of_mem hc)
      · rintro ⟨hmem, hstop, hanc⟩
        obtain ⟨c', hc', hid⟩ := List.mem_map.mp (hemitted c.id (hreached c.id hanc) hstop)
        have heq : c' = c :=
          List.inj_on_of_nodup_map hdag.ids_nodup (hloaded c' hc').1 hmem hid
        exact heq ▸ hc'
    · intro hmerge
      refine (h.sorted hmerge).pairwise hdag hnodup ?_
      intro c hc
      obtain ⟨hmem, hstop, -⟩ := hloaded c (List.mem_reverse.mp hc)
      exact ⟨hmem, hstop⟩
  · have hset : reachedBefore db start stop = (visited.toFinset : Set ID) := by
      ext x
      rw [Finset.mem_coe, List.mem_toFinset]
      exact ⟨hreached x, h.visited_reached x⟩
    rw [hset, Set.ncard_coe_finset, List.toFinset_card_of_nodup h.visited_nodup]
    exact h.visited_le

end Listing

/-! ## Every range -/

section Ranges

variable {H : Type} {db : DB H} {projectID start : ID} {stop : Option ID}

/-- What the walk ends with: a listing, or a refusal because it reaches too many
commits. -/
def WalkEnd (db : DB H) (start : ID) (stop : Option ID)
    (res : Except DomainError (List (Commit H))) : Prop :=
  (∃ ordered, res = .ok ordered ∧ RangeListing db start stop ordered.reverse ∧
      (reachedBefore db start stop).ncard ≤ maxCommitWalkNodes) ∨
    (res = .error errRangeTooLarge ∧
      maxCommitWalkNodes < (reachedBefore db start stop).ncard)

/-- A range is listed when the walk may mark all that it reaches, and refused
otherwise. -/
theorem walkCommitsRange_lists (hdag : CommitDAG db)
    (hstart : start ∈ db.commits.map Commit.id)
    (hproject : InProject db projectID start stop) :
    ((reachedBefore db start stop).ncard ≤ maxCommitWalkNodes →
      ∃ commits, RangeListing db start stop commits ∧ ∀ limit,
        walkCommitsRange db projectID start stop limit =
          some (.ok (commits.take (walkLimit limit)))) ∧
      (maxCommitWalkNodes < (reachedBefore db start stop).ncard → ∀ limit,
        walkCommitsRange db projectID start stop limit = some (.error errRangeTooLarge)) := by
  by_cases hstop : stop = some start
  · -- the walk is cut at its start
    have honly : ∀ x, Ancestor (parentsBefore db stop) x start → x = start := by
      intro x hx
      rcases Relation.ReflTransGen.cases_head hx with heq | ⟨y, hy, -⟩
      · exact heq.symm
      · exact absurd hstop (mem_parentsBefore.mp hy).1
    have hcard : (reachedBefore db start stop).ncard ≤ 1 := by
      refine (Set.ncard_le_ncard (t := {start}) ?_ (Set.finite_singleton start)).trans_eq
        (Set.ncard_singleton start)
      intro x hx
      exact honly x hx
    have hone : 1 ≤ maxCommitWalkNodes := by decide
    constructor
    · intro _
      refine ⟨[], ⟨List.nodup_nil, ?_, fun _ => List.Pairwise.nil⟩, ?_⟩
      · intro c
        constructor
        · intro hc
          cases hc
        · rintro ⟨-, hne, hc⟩
          exact absurd (by rw [honly c.id hc, hstop]) hne
      · intro limit
        rw [walkCommitsRange, if_pos hstop, List.take_nil]
    · intro hlt
      omega
  · have hend : ∃ res, runFor (walkRound db projectID stop) (2 * db.commits.length + 2)
        (walkStart start) = some res := by
      refine exists_runFor (fun w => w.Inv db start stop) (CommitWalk.size db) ?_
        (CommitWalk.Inv.init db start stop) ?_
      · intro w w' hw hround
        exact hw.round hdag hstart hproject hround
      · have hpos := List.length_pos_of_mem hstart
        rw [List.length_map] at hpos
        simp only [CommitWalk.size, walkStart, List.length_singleton, List.map_singleton,
          List.sum_singleton]
        omega
    obtain ⟨res, hres⟩ := hend
    have hwalk : ∀ limit, walkCommitsRange db projectID start stop limit =
        some (res.map fun ordered => ordered.reverse.take (walkLimit limit)) := by
      intro limit
      rw [walkCommitsRange, if_neg hstop, hres]
      rfl
    have hspec : WalkEnd db start stop res := by
      refine (Loop.of_runFor hres).invariant (I := fun w => w.Inv db start stop)
        (Q := WalkEnd db start stop) (CommitWalk.Inv.init db start stop) ?_ ?_ ?_
      · intro w w' hw hround
        exact (hw.round hdag hstart hproject hround).1
      · intro w e hw hround
        obtain ⟨rfl, hlt⟩ := hw.fail hdag hstart hproject hround
        exact Or.inr ⟨rfl, hlt⟩
      · intro w ordered hw hround
        obtain ⟨rfl, hempty⟩ := walkRound_leave hround
        obtain ⟨visited, stack, ordered⟩ := w
        cases hempty
        obtain ⟨hlisting, hle⟩ := hw.listing hdag
        exact Or.inl ⟨ordered, rfl, hlisting, hle⟩
    constructor
    · intro hle
      rcases hspec with ⟨ordered, rfl, hlisting, -⟩ | ⟨-, hlt⟩
      · exact ⟨ordered.reverse, hlisting, hwalk⟩
      · omega
    · intro hlt limit
      rcases hspec with ⟨-, -, -, hle⟩ | ⟨rfl, -⟩
      · omega
      · rw [hwalk]
        rfl

/-- Two sides `2` and `3` of a merge `4`, and a merge `6` of `5` with the old
commit `1`. -/
def rangeStore : DB IdealHash :=
  { demoStore with commits := [demoCommit 1 none none, demoCommit 2 (some 1) none,
      demoCommit 3 (some 1) none, demoCommit 4 (some 2) (some 3), demoCommit 5 (some 1) none,
      demoCommit 6 (some 5) (some 1)] }

theorem walkCommitsRange_lists_demo :
    ∃ commits, RangeListing rangeStore 4 (some 2) commits ∧ ∀ limit,
      walkCommitsRange rangeStore 1 4 (some 2) limit =
        some (.ok (commits.take (walkLimit limit))) := by
  have hdag : CommitDAG rangeStore := ⟨by decide, by decide, id, by decide⟩
  have hproject : ∀ c ∈ rangeStore.commits, c.projectID = 1 := by decide
  have hstored : reachedBefore rangeStore 4 (some 2) ⊆
      (rangeStore.commits.map Commit.id).toFinset := by
    intro x hx
    exact List.mem_toFinset.mpr (hdag.ancestor_stored (by decide) hx)
  have hfew := Set.ncard_le_ncard hstored (Finset.finite_toSet _)
  rw [Set.ncard_coe_finset] at hfew
  exact (walkCommitsRange_lists hdag (by decide) fun c hc _ => hproject c hc).1
    (hfew.trans (by decide))

/-- The walk from 4 to 2 lists commit 1, an ancestor of 2, and the walk from 6
lists commit 1 before its child 5. -/
theorem walkCommitsRange_passes_stop :
    (¬ ∃ commits : List (Commit IdealHash),
      (∀ c ∈ commits, ¬ Ancestor (parentsOf rangeStore) c.id 2) ∧ ∀ limit,
        walkCommitsRange rangeStore 1 4 (some 2) limit =
          some (.ok (commits.take (walkLimit limit)))) ∧
      ¬ ∃ commits : List (Commit IdealHash),
        (commits.Pairwise fun c c' => ¬ Ancestor (parentsOf rangeStore) c.id c'.id) ∧
          ∀ limit, walkCommitsRange rangeStore 1 6 none limit =
            some (.ok (commits.take (walkLimit limit))) := by
  have hwalk : walkCommitsRange rangeStore 1 4 (some 2) 10 = some (.ok [demoCommit 4 (some 2)
      (some 3), demoCommit 3 (some 1) none, demoCommit 1 none none]) := rfl
  have hwalk' : walkCommitsRange rangeStore 1 6 none 10 = some (.ok [demoCommit 6 (some 5)
      (some 1), demoCommit 1 none none, demoCommit 5 (some 1) none]) := rfl
  have hchild : ∀ id, id = 2 ∨ id = 5 → Ancestor (parentsOf rangeStore) 1 id := by
    rintro id (rfl | rfl)
    · exact ancestor_iff_walks.mpr ⟨1, by decide⟩
    · exact ancestor_iff_walks.mpr ⟨1, by decide⟩
  constructor
  · rintro ⟨commits, hcommits, hlimit⟩
    have htake := Except.ok.inj (Option.some.inj ((hlimit 10).symm.trans hwalk))
    have hmem : demoCommit 1 none none ∈ commits.take (walkLimit 10) := by
      rw [htake]
      simp
    exact hcommits _ (List.mem_of_mem_take hmem) (hchild 2 (Or.inl rfl))
  · rintro ⟨commits, hcommits, hlimit⟩
    have htake := Except.ok.inj (Option.some.inj ((hlimit 10).symm.trans hwalk'))
    have hsorted := hcommits.sublist (List.take_sublist (walkLimit 10) commits)
    rw [htake] at hsorted
    simp only [List.pairwise_cons] at hsorted
    exact hsorted.2.1 (demoCommit 5 (some 1) none) (by simp) (hchild 5 (Or.inr rfl))

end Ranges

end Nipa
