import Nipa.History.HistoryAgreement

/-!
# Path history under a read filter

A caller sees a path as a readable file, or else as the readable part of a directory.
The log of a path is right about a commit when it can tell the commit from its first
parent exactly when the caller sees a difference.  It cannot where an unreadable file
stands in front of a directory that is seen, it may take a directory of which nothing
is seen for one that is there, and it lists the root of a history whatever is seen.
-/

namespace Nipa

open Support

/-! ## Two readings of one history -/

section Sequences

variable {α β : Type} [DecidableEq β] {shown seen : α → Option β} {c : α} {rest : List α}

/-- Whether an entry is listed exactly when it should be: the root when something is
seen there, any other when the same holds of what is shown and of what is seen. -/
def ListedRight (shown seen : α → Option β) (c : α) : Option α → Prop
  | none => seen c ≠ none
  | some p => shown c = shown p ↔ seen c = seen p

/-- What a log of what is shown lists. -/
def logged (shown : α → Option β) (chain : List α) : List α :=
  touchedCommits shown chain ++ bareRoot shown chain

theorem mem_of_mem_logged {chain : List α} (h : c ∈ logged shown chain) : c ∈ chain := by
  rcases List.mem_append.mp h with h | h
  · exact (touchedCommits_sublist shown chain).subset h
  · rw [bareRoot, Option.mem_toList, Option.filter_eq_some_iff] at h
    exact List.mem_of_mem_getLast? h.1

/-- The first entry of a history is listed right, or it is listed without being touched,
or touched without being listed. -/
theorem listedRight_cases (shown seen : α → Option β) (c : α) (rest : List α) :
    (ListedRight shown seen c rest.head? ∧
      (logged shown (c :: rest) = c :: logged shown rest ∧
          touchedCommits seen (c :: rest) = c :: touchedCommits seen rest ∨
        logged shown (c :: rest) = logged shown rest ∧
          touchedCommits seen (c :: rest) = touchedCommits seen rest)) ∨
      (¬ ListedRight shown seen c rest.head? ∧
        (logged shown (c :: rest) = c :: logged shown rest ∧
            touchedCommits seen (c :: rest) = touchedCommits seen rest ∨
          logged shown (c :: rest) = logged shown rest ∧
            touchedCommits seen (c :: rest) = c :: touchedCommits seen rest)) := by
  have htouched : touchedCommits seen (c :: rest) =
      if seen c = rest.head?.bind seen then touchedCommits seen rest
      else c :: touchedCommits seen rest := rfl
  cases rest with
  | nil =>
      have hlog : logged shown [c] = c :: logged shown [] := by
        by_cases h : shown c = none
        · simp [logged, touchedCommits, bareRoot, Option.filter, h]
        · simp [logged, touchedCommits, bareRoot, Option.filter, h]
      by_cases hseen : seen c = none
      · rw [List.head?_nil, Option.bind_none, if_pos hseen] at htouched
        exact Or.inr ⟨not_not.mpr hseen, Or.inl ⟨hlog, htouched⟩⟩
      · rw [List.head?_nil, Option.bind_none, if_neg hseen] at htouched
        exact Or.inl ⟨hseen, Or.inl ⟨hlog, htouched⟩⟩
  | cons p rest =>
      have hlog : logged shown (c :: p :: rest) =
          if shown c = shown p then logged shown (p :: rest)
          else c :: logged shown (p :: rest) := by
        rw [logged, bareRoot, List.getLast?_cons_cons, touchedCommits, List.head?_cons,
          Option.bind_some]
        split
        · rfl
        · rfl
      rw [List.head?_cons, Option.bind_some] at htouched
      by_cases hshown : shown c = shown p
      · rw [if_pos hshown] at hlog
        by_cases hseen : seen c = seen p
        · rw [if_pos hseen] at htouched
          exact Or.inl ⟨iff_of_true hshown hseen, Or.inr ⟨hlog, htouched⟩⟩
        · rw [if_neg hseen] at htouched
          exact Or.inr ⟨fun h => hseen (h.mp hshown), Or.inr ⟨hlog, htouched⟩⟩
      · rw [if_neg hshown] at hlog
        by_cases hseen : seen c = seen p
        · rw [if_pos hseen] at htouched
          exact Or.inr ⟨fun h => hshown (h.mpr hseen), Or.inl ⟨hlog, htouched⟩⟩
        · rw [if_neg hseen] at htouched
          exact Or.inl ⟨iff_of_false hshown hseen, Or.inl ⟨hlog, htouched⟩⟩

theorem length_touchedCommits_le (newer older : List α) :
    (touchedCommits seen older).length ≤ (touchedCommits seen (newer ++ older)).length := by
  induction newer with
  | nil => exact le_refl _
  | cons c newer ih =>
      rw [List.cons_append, touchedCommits]
      split
      · exact ih
      · exact ih.trans (Nat.le_succ _)

/-- Lists of which only one has an entry begin with the same entries only when that
entry comes after them. -/
theorem take_cons_ne {l l' : List α} {left : ℕ} (hleft : 0 < left) (h : c ∉ l') :
    (c :: l).take left ≠ l'.take left := by
  intro heq
  have hmem : c ∈ (c :: l).take left := by
    obtain ⟨left, rfl⟩ := Nat.exists_eq_succ_of_ne_zero hleft.ne'
    exact List.mem_cons_self
  rw [heq] at hmem
  exact h (List.mem_of_mem_take hmem)

theorem forall_parts_cons {P : α → List α → Prop} :
    (∀ newer d older, c :: rest = newer ++ d :: older → P d older) ↔
      P c rest ∧ ∀ newer d older, rest = newer ++ d :: older → P d older := by
  constructor
  · intro hall
    refine ⟨hall [] c rest rfl, ?_⟩
    intro newer d older heq
    exact hall (c :: newer) d older (by rw [heq, List.cons_append])
  · rintro ⟨hfirst, hlater⟩ newer d older heq
    cases newer with
    | nil =>
        obtain ⟨rfl, rfl⟩ := List.cons.inj heq
        exact hfirst
    | cons e newer => exact hlater newer d older (List.cons.inj heq).2

/-- The log of what is shown begins with the same entries as the history of what is seen
exactly when every entry is listed right, up to where the log is cut. -/
theorem take_logged_eq_iff {chain : List α} (hnodup : chain.Nodup) (left : ℕ) :
    (logged shown chain).take left = (touchedCommits seen chain).take left ↔
      ∀ newer c older, chain = newer ++ c :: older →
        (touchedCommits seen chain).length < left + (touchedCommits seen (c :: older)).length →
        ListedRight shown seen c older.head? := by
  induction chain generalizing left with
  | nil => simp [logged, touchedCommits, bareRoot]
  | cons c rest ih =>
      rcases Nat.eq_zero_or_pos left with rfl | hleft
      · simp only [List.take_zero, true_iff]
        intro newer d older heq hlt
        have hle : (touchedCommits seen (d :: older)).length ≤
            (touchedCommits seen (newer ++ d :: older)).length :=
          length_touchedCommits_le newer (d :: older)
        rw [← heq] at hle
        omega
      obtain ⟨hnotMem, hrest⟩ := List.nodup_cons.mp hnodup
      have hunlogged : c ∉ logged shown rest := fun h => hnotMem (mem_of_mem_logged h)
      have hunseen : c ∉ touchedCommits seen rest :=
        fun h => hnotMem ((touchedCommits_sublist seen rest).subset h)
      rw [forall_parts_cons]
      rcases listedRight_cases shown seen c rest with
        ⟨hright, ⟨hlog, htouched⟩ | ⟨hlog, htouched⟩⟩ |
        ⟨hwrong, ⟨hlog, htouched⟩ | ⟨hlog, htouched⟩⟩
      · obtain ⟨left, rfl⟩ := Nat.exists_eq_succ_of_ne_zero hleft.ne'
        rw [hlog, htouched, List.take_succ_cons, List.take_succ_cons, List.cons.injEq,
          ih hrest left]
        have hcount : ∀ n, (c :: touchedCommits seen rest).length < left.succ + n ↔
            (touchedCommits seen rest).length < left + n := by
          intro n
          rw [List.length_cons]
          omega
        simp only [hcount, hright, true_and, implies_true]
      · rw [hlog, htouched, ih hrest left]
        simp only [hright, true_and, implies_true]
      · rw [hlog, htouched]
        constructor
        · intro heq
          exact absurd heq (take_cons_ne hleft hunseen)
        · rintro ⟨hall, -⟩
          exact absurd (hall (by omega)) hwrong
      · rw [hlog, htouched]
        constructor
        · intro heq
          exact absurd heq.symm (take_cons_ne hleft hunlogged)
        · rintro ⟨hall, -⟩
          exact absurd (hall (by omega)) hwrong

end Sequences

/-! ## What a caller sees -/

section Seen

variable {H : Type} [DecidableEq H] [HashScheme H] {db : DB H} {filter : PathFilter}
  {empties : Bool} {path : Str}

/-- The readable part of a directory.  A directory below the root of which nothing is
readable is missing from the manifest of the caller; `empties` counts it as there. -/
def seenRow (db : DB H) (filter : PathFilter) (empties : Bool) (path : Str) (row : TreeRow H) :
    Option H :=
  ((loadTreeManifest db true filter [] db.treeDepth row path).filter fun t =>
    empties || splitPath path = [] || !(t.fileChildren.isEmpty && t.treeChildren.isEmpty)).map
      rehashTree

/-- What a caller sees of a path at a commit: a readable file, or else a directory. -/
def seenAt (db : DB H) (filter : PathFilter) (empties : Bool) (path : Str) (c : Commit H) :
    Option H :=
  match (fileRowAt db (splitPath path) c).filter fun _ => filter.allow path with
  | some file => some file.hash
  | none => (dirRowAt db (splitPath path) c).bind (seenRow db filter empties path)

/-- What the tree browser lists of an entry to a caller who may not read everything is
what the caller sees of its path. -/
theorem seenAt_listed (hinv : db.StoreInv) {all : Bool} (hfilter : CompiledFilter all filter)
    {ds : List Str} (hds : ∀ m ∈ ds, ValidName m) {n : Str} (hn : ValidName n) (c : Commit H) :
    seenAt db filter false (pathOf (ds ++ [n])) c =
      childEntryHash (listedDir db false filter ds c) n := by
  have hcompiled : CompiledFilter false filter :=
    ⟨hfilter.descends, hfilter.enters, fun h => absurd h (by simp)⟩
  have hsplit := splitPath_pathOf (validNames_concat hds hn)
  rw [childEntryHash_listedDir hinv hcompiled hds hn, seenAt, hsplit]
  have hrow : seenRow db filter false (pathOf (ds ++ [n])) =
      listedRow db false filter (ds ++ [n]) := by
    funext row
    rw [seenRow, listedRow, hsplit]
    simp
  rw [hrow]
  all_goals rfl

/-! ## What the log makes of it -/

/-- How a path stands at a commit: an unreadable file in front of a directory that is
seen, a directory that is not seen, or neither. -/
inductive PathView where
  | plain
  | hidden
  | bare
  deriving DecidableEq

def viewAt (db : DB H) (filter : PathFilter) (empties : Bool) (path : Str) (c : Commit H) :
    PathView :=
  match fileRowAt db (splitPath path) c, dirRowAt db (splitPath path) c with
  | some _, _ =>
      if filter.allow path = false ∧ seenAt db filter empties path c ≠ none then .hidden
      else .plain
  | none, some _ => if seenAt db filter empties path c = none then .bare else .plain
  | none, none => .plain

theorem shownAt_cases (hinv : db.StoreInv) (filter : PathFilter) (empties : Bool)
    (path : Str) (c : Commit H) :
    match viewAt db filter empties path c with
    | .plain => shownAt db filter path c = seenAt db filter empties path c
    | .hidden => shownAt db filter path c = none ∧ seenAt db filter empties path c ≠ none
    | .bare => shownAt db filter path c = some (treeHash [] []) ∧
        seenAt db filter empties path c = none := by
  have hshown : shownAt db filter path c =
      match fileRowAt db (splitPath path) c with
      | some file => if filter.allow path then some file.hash else none
      | none => (dirRowAt db (splitPath path) c).bind fun row =>
          readableHash db filter row path := by
    rw [shownAt, fileRowAt, dirRowAt]
    cases db.treeNodeGet c.treeID with
    | none => rfl
    | some root => rfl
  rw [hshown, viewAt]
  cases hfile : fileRowAt db (splitPath path) c with
  | some file =>
      cases hallow : filter.allow path with
      | true =>
          rw [if_neg (by simp), seenAt, hfile, Option.filter_some]
          simp [hallow]
      | false =>
          by_cases hseen : seenAt db filter empties path c = none
          · simp [hseen]
          · simp [hseen]
  | none =>
      cases hdir : dirRowAt db (splitPath path) c with
      | none => simp [seenAt, hfile, hdir]
      | some row =>
          obtain ⟨t, ht⟩ := exists_manifest hinv filter (dirRowAt_mem hinv hdir) path
          have hseen : seenAt db filter empties path c = seenRow db filter empties path row := by
            simp [seenAt, hfile, hdir]
          have hread : readableHash db filter row path = some (rehashTree t) := by
            rw [readableHash, ht, Option.map_some]
          dsimp only
          rw [Option.bind_some, hread, hseen, seenRow, ht, Option.filter_some]
          by_cases hkeep : (empties || decide (splitPath path = []) ||
              !(t.fileChildren.isEmpty && t.treeChildren.isEmpty)) = true
          · rw [if_pos hkeep]
            simp
          · rw [if_neg hkeep]
            have hblank : t.fileChildren = [] ∧ t.treeChildren = [] := by
              simp only [Bool.or_eq_true, not_or] at hkeep
              simpa using hkeep.2
            rw [rehashTree_eq, hblank.1, hblank.2]
            simp

/-- The log can tell two neighbouring commits apart exactly when the caller sees two
things: of two hidden directories, when they look the same; of a hidden one and
something else in plain view, when that is there and differs; of a directory that is not
seen and something in plain view, when that is there and is not an empty file. -/
def ToldApart (db : DB H) (filter : PathFilter) (empties : Bool) (path : Str)
    (c p : Commit H) : Prop :=
  let seen := seenAt db filter empties path
  match viewAt db filter empties path c, viewAt db filter empties path p with
  | .hidden, .hidden => seen c = seen p
  | .hidden, .plain => seen p ≠ none ∧ seen p ≠ seen c
  | .plain, .hidden => seen c ≠ none ∧ seen c ≠ seen p
  | .bare, .plain => seen p ≠ none ∧ seen p ≠ some (treeHash [] [])
  | .plain, .bare => seen c ≠ none ∧ seen c ≠ some (treeHash [] [])
  | _, _ => True

theorem toldApart_iff (hinv : db.StoreInv) (c p : Commit H) :
    ToldApart db filter empties path c p ↔
      (shownAt db filter path c = shownAt db filter path p ↔
        seenAt db filter empties path c = seenAt db filter empties path p) := by
  have hc := shownAt_cases hinv filter empties path c
  have hp := shownAt_cases hinv filter empties path p
  rw [ToldApart]
  cases hviewC : viewAt db filter empties path c
  all_goals
    cases hviewP : viewAt db filter empties path p
    all_goals
      rw [hviewC] at hc
      rw [hviewP] at hp
      grind

end Seen

/-! ## When the log is right -/

section Exact

variable {H : Type} [DecidableEq H] [HashScheme H] {db : DB H} {perm : PermissionUsecase}
  {filter : PathFilter} {projectID : ID} {rev path : Str} {startCommitID : Option ID}
  {chain : List (Commit H)}

/-- At the commits of a chain before which fewer than `left` commits touched the path:
something is seen at the root, and the log can tell any other from its first parent. -/
def ToldDownTo (db : DB H) (filter : PathFilter) (empties : Bool) (path : Str) (left : ℕ)
    (chain : List (Commit H)) : Prop :=
  let seen := seenAt db filter empties path
  ∀ newer c older, chain = newer ++ c :: older →
    (touchedCommits seen chain).length < left + (touchedCommits seen (c :: older)).length →
    match older with
    | [] => seen c ≠ none
    | p :: _ => ToldApart db filter empties path c p

/-- The log of a path lists exactly the commits at which what the caller sees of it
differs from the first parent, exactly when it can tell these commits apart. -/
theorem pathCommitLog_exact_iff (hinv : db.StoreInv) (hdag : CommitDAG db)
    (hcall : PathLogCall db perm filter projectID rev path startCommitID chain)
    (empties : Bool) (limit : ℤ) :
    pathCommitLog db perm filter projectID rev path startCommitID limit =
        .ok ((touchedCommits (seenAt db filter empties (trimChar '/' path)) chain).take
          (walkLimit limit)) ↔
      ToldDownTo db filter empties (trimChar '/' path) (walkLimit limit) chain := by
  obtain ⟨commitID, -, hchain⟩ := hcall.starts
  have hnodup : chain.Nodup := (hchain.nodup hdag).of_map
  rw [pathCommitLog_eq hinv hdag hcall limit, Except.ok.injEq, ← logged,
    take_logged_eq_iff hnodup, ToldDownTo]
  have hright : ∀ (c : Commit H) (older : List (Commit H)),
      ListedRight (shownAt db filter (trimChar '/' path))
        (seenAt db filter empties (trimChar '/' path)) c older.head? ↔
      match older with
      | [] => seenAt db filter empties (trimChar '/' path) c ≠ none
      | p :: _ => ToldApart db filter empties (trimChar '/' path) c p := by
    intro c older
    cases older with
    | nil => exact Iff.rfl
    | cons p older => exact (toldApart_iff hinv c p).symm
  simp only [hright]

end Exact

/-! ## A path that is not there, and a hidden file -/

/-- Nothing stands in the way of a log when every commit shows the path plainly and the
root shows something. -/
theorem toldDownTo_of_plain {H : Type} [DecidableEq H] [HashScheme H] {db : DB H}
    {filter : PathFilter} {empties : Bool} {path : Str} {chain : List (Commit H)}
    (hplain : ∀ c ∈ chain, viewAt db filter empties path c = .plain)
    (hroot : ∀ root ∈ chain.getLast?, seenAt db filter empties path root ≠ none) (left : ℕ) :
    ToldDownTo db filter empties path left chain := by
  intro newer c older heq _
  cases older with
  | nil =>
      apply hroot c
      rw [heq, List.getLast?_append]
      rfl
  | cons p older =>
      have hc := hplain c (by rw [heq]; simp)
      have hp := hplain p (by rw [heq]; simp)
      simp [ToldApart, hc, hp]

theorem changedStore_inv : changedStore.StoreInv := by
  have hempty : demoStore.Unborn := ⟨rfl, rfl, rfl⟩
  have hfirst : PushRun demoStore clashedStore :=
    .push (.refl demoStore) (eq_ok_of_toOption demoStore (by decide +kernel))
  have hrun : PushRun demoStore changedStore :=
    .push hfirst (eq_ok_of_toOption demoStore (by decide +kernel))
  exact (hrun.grows hempty.storeInv IdealHash.collisionFree).inv'

theorem changed_dag : CommitDAG changedStore :=
  ⟨by decide +kernel, by decide +kernel, id, by decide +kernel⟩

/-- The filter of a caller who may read one file below the directory `a` only. -/
def belowFilter : PathFilter := compileFilter false belowOnly permissionRead

theorem changedStore_pathLogCall (path : Str)
    (hvisible : belowFilter.canDescend (trimChar '/' path) = true) :
    ∃ c d, PathLogCall changedStore demoCaller.perm belowFilter 1 [] path none [d, c] := by
  obtain ⟨c, d, hcall⟩ := changedStore_call
  exact ⟨c, d, rfl, Or.inr hvisible, ⟨d.id, hcall.starts, hcall.chain⟩, hcall.inProject,
    hcall.covered.trans (by decide)⟩

theorem touchedCommits_pair {α β : Type} [DecidableEq β] {seen : α → Option β} {c d : α}
    (hroot : seen c ≠ none) (hchanged : seen d ≠ seen c) :
    touchedCommits seen [d, c] = [d, c] := by
  rw [touchedCommits, List.head?_cons, Option.bind_some, if_neg hchanged, touchedCommits,
    List.head?_nil, Option.bind_none, if_neg hroot, touchedCommits]

/-- The caller sees the file that both commits pushed, and its log lists both. -/
theorem pathCommitLog_exact_demo :
    ∃ c d, PathLogCall changedStore demoCaller.perm belowFilter 1 [] "a/b.txt".toList none
        [d, c] ∧
      pathCommitLog changedStore demoCaller.perm belowFilter 1 [] "a/b.txt".toList none 0 =
        .ok [d, c] := by
  obtain ⟨c, d, hcall⟩ := changedStore_pathLogCall "a/b.txt".toList
    (by decide +kernel)
  obtain ⟨_, -, hchain⟩ := hcall.starts
  have hmem := hchain.mem_commits
  have hne : d.id ≠ c.id := by
    have hnodup := hchain.nodup changed_dag
    simpa using hnodup
  have hviews : ∀ e ∈ changedStore.commits,
      viewAt changedStore belowFilter false "a/b.txt".toList e = .plain ∧
        seenAt changedStore belowFilter false "a/b.txt".toList e ≠ none := by
    decide +kernel
  have hdiffer : ∀ e ∈ changedStore.commits, ∀ e' ∈ changedStore.commits, e.id ≠ e'.id →
      seenAt changedStore belowFilter false "a/b.txt".toList e ≠
        seenAt changedStore belowFilter false "a/b.txt".toList e' := by
    decide +kernel
  have hd := hmem d (by simp)
  have hc := hmem c (by simp)
  have htrim : trimChar '/' "a/b.txt".toList = "a/b.txt".toList := by decide +kernel
  have htold : ToldDownTo changedStore belowFilter false (trimChar '/' "a/b.txt".toList)
      (walkLimit 0) [d, c] := by
    rw [htrim]
    apply toldDownTo_of_plain
    · intro e he
      exact (hviews e (hmem e he)).1
    · intro root hroot
      obtain rfl := Option.some.inj hroot
      exact (hviews c hc).2
  have hexact := (pathCommitLog_exact_iff changedStore_inv changed_dag hcall false 0).mpr htold
  rw [htrim, touchedCommits_pair (hviews c hc).2 (hdiffer d hd c hc hne)] at hexact
  exact ⟨c, d, hcall, hexact⟩

theorem filledStore_call (path : Str) : PathLogCall filledStore demoCaller.perm allowAllFilter 1
    [] path none filledStore.commits := by
  have hcommits : ∃ c, filledStore.commits = [c] ∧ c.id = 7 ∧ c.parent1ID = none ∧
      c.projectID = 1 := ⟨_, rfl, rfl, rfl, rfl⟩
  obtain ⟨c, hc, hid, hparent, hproject⟩ := hcommits
  have hchain : FirstParentChain filledStore 7 filledStore.commits := by
    rw [hc, ← hid]
    exact FirstParentChain.root (by rw [hc]; exact List.mem_singleton_self c) hparent
  refine ⟨rfl, Or.inr rfl, ⟨7, rfl, hchain⟩, ?_, ?_⟩
  · rw [hc]
    simpa using hproject
  · simp [hc, maxPathHistoryScan]

/-- No commit has a file `x.txt`, and its log lists the first commit.  Two commits differ
in the directory `a`, and its log lists only the first, since it reads a hidden file. -/
theorem pathCommitLog_not_exact :
    (PathLogCall filledStore demoCaller.perm allowAllFilter 1 [] "x.txt".toList none
        filledStore.commits ∧ ∀ empties,
      ¬ pathCommitLog filledStore demoCaller.perm allowAllFilter 1 [] "x.txt".toList none 0 =
        .ok ((touchedCommits (seenAt filledStore allowAllFilter empties
          (trimChar '/' "x.txt".toList)) filledStore.commits).take (walkLimit 0))) ∧
    ∃ chain, PathLogCall changedStore demoCaller.perm belowFilter 1 [] "a".toList none chain ∧
      ∀ empties, ¬ pathCommitLog changedStore demoCaller.perm belowFilter 1 [] "a".toList none 0 =
        .ok ((touchedCommits (seenAt changedStore belowFilter empties (trimChar '/' "a".toList))
          chain).take (walkLimit 0)) := by
  constructor
  · refine ⟨filledStore_call _, ?_⟩
    have hlog : (pathCommitLog filledStore demoCaller.perm allowAllFilter 1 []
        "x.txt".toList none 0).toOption.map (fun log => log.map Commit.id) = some [7] := by
      decide +kernel
    have hbare : ∀ empties, touchedCommits (seenAt filledStore allowAllFilter empties
        (trimChar '/' "x.txt".toList)) filledStore.commits = [] := by
      decide +kernel
    intro empties h
    rw [h, hbare] at hlog
    cases hlog
  · obtain ⟨c, d, hcall⟩ := changedStore_pathLogCall "a".toList (by decide +kernel)
    refine ⟨[d, c], hcall, ?_⟩
    obtain ⟨_, -, hchain⟩ := hcall.starts
    have hmem := hchain.mem_commits
    have hne : d.id ≠ c.id := by
      have hnodup := hchain.nodup changed_dag
      simpa using hnodup
    have hseen : ∀ empties, ∀ e ∈ changedStore.commits,
        seenAt changedStore belowFilter empties (trimChar '/' "a".toList) e ≠ none ∧
          ∀ e' ∈ changedStore.commits, e.id ≠ e'.id →
            seenAt changedStore belowFilter empties (trimChar '/' "a".toList) e ≠
              seenAt changedStore belowFilter empties (trimChar '/' "a".toList) e' := by
      decide +kernel
    have hd := hmem d (by simp)
    have hc := hmem c (by simp)
    have hlog : (pathCommitLog changedStore demoCaller.perm belowFilter 1 [] "a".toList none
        0).toOption.map (fun log => log.map Commit.id) = some [7] := by
      decide +kernel
    intro empties h
    rw [h, touchedCommits_pair (hseen empties c hc).1 ((hseen empties d hd).2 c hc hne)] at hlog
    have hlength := congrArg (fun ids => ids.map List.length) hlog
    cases hlength

end Nipa
