import Nipa.History.EntryHistory
import Nipa.Server.PrefixFree

/-!
# When directory history and path history agree

A listing shows the same thing from the head of a history down to its last change.
The log of the path names the same commit exactly when it reads one thing at all
these commits and another at the commit before.  It does when no file hides
behind the listed directory and the change was not one of empty directories only.
-/

namespace Nipa

open Support

/-! ## Two ways to look at a history -/

section Sequences

variable {α β : Type} [DecidableEq β] {shown listed : α → Option β} {c d : α} {chain older : List α}

/-- The entries of a history at which the same is listed as at its head, down to
the last change. -/
def sinceChange (listed : α → Option β) : List α → List α
  | [] => []
  | c :: older => (c :: older).takeWhile fun d => listed d = listed c

/-- The entry before the last change. -/
def beforeChange (listed : α → Option β) : List α → Option α
  | [] => none
  | c :: older => ((c :: older).dropWhile fun d => listed d = listed c).head?

theorem sinceChange_cons (h : listed c = listed d) :
    sinceChange listed (c :: d :: older) = c :: sinceChange listed (d :: older) := by
  rw [sinceChange, sinceChange, List.takeWhile_cons_of_pos (by simp)]
  simp only [h]

theorem beforeChange_cons (h : listed c = listed d) :
    beforeChange listed (c :: d :: older) = beforeChange listed (d :: older) := by
  rw [beforeChange, beforeChange, List.dropWhile_cons_of_pos (by simp)]
  simp only [h]

theorem mem_sinceChange (h : c ∈ sinceChange listed (d :: older)) : listed c = listed d := by
  have hc := List.mem_takeWhile_imp h
  simpa using hc

theorem head_mem_sinceChange : c ∈ sinceChange listed (c :: older) := by
  rw [sinceChange, List.takeWhile_cons_of_pos (by simp)]
  exact List.mem_cons_self

theorem beforeChange_ne (h : c ∈ beforeChange listed (d :: older)) :
    listed c ≠ listed d ∧ c ∈ d :: older := by
  rw [beforeChange] at h
  refine ⟨?_, List.dropWhile_subset _ (List.mem_of_mem_head? h)⟩
  intro heq
  have hhead := List.head?_dropWhile_not (fun c => decide (listed c = listed d)) (d :: older)
  rw [h] at hhead
  simp [heq] at hhead

theorem touchedCommits_sublist (shown : α → Option β) (chain : List α) :
    (touchedCommits shown chain).Sublist chain := by
  induction chain with
  | nil => exact List.Sublist.refl []
  | cons c older ih =>
      rw [touchedCommits]
      split
      · exact ih.cons c
      · exact ih.cons_cons c

theorem mem_of_head?_log (h : c ∈ (touchedCommits shown chain ++ bareRoot shown chain).head?) :
    c ∈ chain := by
  rcases List.mem_append.mp (List.mem_of_mem_head? h) with h | h
  · exact (touchedCommits_sublist shown chain).subset h
  · rw [bareRoot, Option.mem_toList, Option.filter_eq_some_iff] at h
    exact List.mem_of_mem_getLast? h.1

theorem lastChange_mem (h : c ∈ lastChange listed chain) : c ∈ chain :=
  (touchedCommits_sublist listed chain).subset (List.mem_of_mem_head? h)

/-- The log of a history names the last change of the listing exactly when it shows
one thing since that change and another before it. -/
theorem log_head?_eq_lastChange_iff (hnodup : (c :: older).Nodup) (hlisted : listed c ≠ none) :
    (touchedCommits shown (c :: older) ++ bareRoot shown (c :: older)).head? =
        lastChange listed (c :: older) ↔
      (∀ d ∈ sinceChange listed (c :: older), shown d = shown c) ∧
        ∀ d ∈ beforeChange listed (c :: older), shown d ≠ shown c := by
  induction older generalizing c with
  | nil =>
      have hlast : lastChange listed [c] = some c := by
        rw [lastChange, touchedCommits, if_neg (by simpa using hlisted)]
        rfl
      have hlog : (touchedCommits shown [c] ++ bareRoot shown [c]).head? = some c := by
        by_cases h : shown c = none
        · simp [touchedCommits, bareRoot, Option.filter, h]
        · simp [touchedCommits, h]
      rw [hlast, hlog]
      simp [sinceChange, beforeChange]
  | cons d rest ih =>
      obtain ⟨hnotMem, hrest⟩ := List.nodup_cons.mp hnodup
      have hroot : bareRoot shown (c :: d :: rest) = bareRoot shown (d :: rest) := by
        rw [bareRoot, bareRoot, List.getLast?_cons_cons]
      rw [lastChange_cons, touchedCommits, hroot, List.head?_cons, Option.bind_some,
        Option.bind_some]
      by_cases hsame : listed c = listed d
      · rw [if_pos hsame, Option.none_or, sinceChange_cons hsame, beforeChange_cons hsame]
        by_cases hshown : shown c = shown d
        · rw [if_pos hshown, ih hrest (hsame ▸ hlisted)]
          simp [hshown]
        · rw [if_neg hshown, List.cons_append, List.head?_cons]
          constructor
          · intro heq
            exact absurd (lastChange_mem heq.symm) hnotMem
          · rintro ⟨hall, -⟩
            exact absurd (hall d (List.mem_cons_of_mem c head_mem_sinceChange)).symm hshown
      · have hsince : sinceChange listed (c :: d :: rest) = [c] := by
          rw [sinceChange, List.takeWhile_cons_of_pos (by simp), List.takeWhile_cons_of_neg]
          simpa using fun heq => hsame heq.symm
        have hbefore : beforeChange listed (c :: d :: rest) = some d := by
          rw [beforeChange, List.dropWhile_cons_of_pos (by simp), List.dropWhile_cons_of_neg]
          · rfl
          · simpa using fun heq => hsame heq.symm
        rw [if_neg hsame, Option.some_or, hsince, hbefore]
        by_cases hshown : shown c = shown d
        · rw [if_pos hshown]
          constructor
          · intro heq
            exact absurd (mem_of_head?_log heq) hnotMem
          · rintro ⟨-, hne⟩
            exact absurd hshown.symm (hne d rfl)
        · rw [if_neg hshown, List.cons_append, List.head?_cons]
          simpa using fun heq => hshown heq.symm

end Sequences

/-! ## What the log cannot tell apart -/

section Views

variable {H : Type} [DecidableEq H] [HashScheme H] {db : DB H} {filter : PathFilter}
  {all : Bool}

/-- A readable file at one commit and a directory at another that hashes like it,
such as an empty file and a directory that shows nothing. -/
def FileLike (db : DB H) (filter : PathFilter) (addr : List Str) (c d : Commit H) : Prop :=
  ∃ file ∈ fileRowAt db addr c, filter.allow (pathOf addr) = true ∧ fileRowAt db addr d = none ∧
    ∃ row ∈ dirRowAt db addr d, readableHash db filter row (pathOf addr) = some file.hash

/-- Directories that show the same files, however they differ in directories that
show none; or a file and a directory that hashes like it. -/
def LooksAlike (db : DB H) (filter : PathFilter) (addr : List Str) (c d : Commit H) : Prop :=
  (fileRowAt db addr c = none ∧ fileRowAt db addr d = none ∧
    ∃ row ∈ dirRowAt db addr c, ∃ row' ∈ dirRowAt db addr d, ∀ ks,
      (shown db filter (some row) addr ks).map File.hash =
        (shown db filter (some row') addr ks).map File.hash) ∨
  FileLike db filter addr c d ∨ FileLike db filter addr d c

/-- No file of a directory's name is stored at the commits. -/
def NoFile (db : DB H) (addr : List Str) (commits : List (Commit H)) : Prop :=
  ∀ c ∈ commits, fileRowAt db addr c = none

/-- A readable file of the name is stored at all the commits, or none is at any. -/
def OneKind (db : DB H) (filter : PathFilter) (addr : List Str) (commits : List (Commit H)) :
    Prop :=
  (filter.allow (pathOf addr) = true ∧ ∀ c ∈ commits, (fileRowAt db addr c).isSome) ∨
    NoFile db addr commits

/-- The log of a path names the commit that last changed the listing: it reads what
is listed and can tell the commit before the change from the head; or it reads
something else, and that changed in the same commit. -/
def NamesChange (db : DB H) (filter : PathFilter) (addr : List Str) (reads : Prop)
    (since : List (Commit H)) (before : Option (Commit H)) (head : Commit H) : Prop :=
  (reads ∧ ∀ c ∈ before, ¬ LooksAlike db filter addr head c) ∨
    (¬ reads ∧ (∀ c ∈ since, shownAt db filter (pathOf addr) c =
        shownAt db filter (pathOf addr) head) ∧
      ∀ c ∈ before, shownAt db filter (pathOf addr) c ≠ shownAt db filter (pathOf addr) head)

theorem namesChange_iff {addr : List Str} {reads : Prop} {since : List (Commit H)}
    {before : Option (Commit H)} {head : Commit H}
    (hsince : reads → ∀ c ∈ since, shownAt db filter (pathOf addr) c =
      shownAt db filter (pathOf addr) head)
    (hbefore : reads → ∀ c ∈ before, shownAt db filter (pathOf addr) c =
      shownAt db filter (pathOf addr) head ↔ LooksAlike db filter addr head c) :
    NamesChange db filter addr reads since before head ↔
      (∀ c ∈ since, shownAt db filter (pathOf addr) c =
        shownAt db filter (pathOf addr) head) ∧
      ∀ c ∈ before, shownAt db filter (pathOf addr) c ≠
        shownAt db filter (pathOf addr) head := by
  by_cases h : reads
  · simp only [NamesChange, h, true_and, not_true_eq_false, false_and, or_false]
    constructor
    · intro hapart
      exact ⟨hsince h, fun c hc heq => hapart c hc ((hbefore h c hc).mp heq)⟩
    · rintro ⟨-, hapart⟩
      exact fun c hc hlike => hapart c hc ((hbefore h c hc).mpr hlike)
  · simp [NamesChange, h]

/-- A commit at which the log reads a file that is readable, or a directory. -/
def ReadsAt (db : DB H) (filter : PathFilter) (addr : List Str) (c : Commit H) : Prop :=
  (∃ file ∈ fileRowAt db addr c, filter.allow (pathOf addr) = true) ∨
    (fileRowAt db addr c = none ∧ (dirRowAt db addr c).isSome)

/-- The log reads the same at two commits exactly when they look alike, or have
files of one hash. -/
theorem shownAt_eq_iff (hinv : db.StoreInv) (hcf : CollisionFree H) {addr : List Str}
    (haddr : ∀ m ∈ addr, ValidName m) {head c : Commit H} (hhead : ReadsAt db filter addr head)
    (hfiles : ∀ file ∈ fileRowAt db addr head, ∀ file' ∈ fileRowAt db addr c,
      file.hash ≠ file'.hash) :
    shownAt db filter (pathOf addr) c = shownAt db filter (pathOf addr) head ↔
      LooksAlike db filter addr head c := by
  rw [shownAt_pathOf haddr, shownAt_pathOf haddr]
  rcases hhead with ⟨file, hfile, hallow⟩ | ⟨hnone, hdir⟩
  · -- the head has a file
    rw [Option.mem_def] at hfile
    have hlike : LooksAlike db filter addr head c ↔ FileLike db filter addr head c := by
      constructor
      · rintro (⟨hnone, -⟩ | hlike | ⟨-, -, -, hnone, -⟩)
        · rw [hfile] at hnone
          cases hnone
        · exact hlike
        · rw [hfile] at hnone
          cases hnone
      · exact fun hlike => Or.inr (Or.inl hlike)
    rw [hlike, FileLike, hfile]
    rcases hfile' : fileRowAt db addr c with _ | file'
    · simp only [hallow, if_true, Option.mem_def, Option.some.injEq, exists_eq_left', true_and,
        Option.bind_eq_some_iff]
    · have hne := hfiles file hfile file' hfile'
      simp [hallow, Ne.symm hne]
  · -- the head has a directory
    obtain ⟨row, hrow⟩ := Option.isSome_iff_exists.mp hdir
    have hr := dirRowAt_mem hinv hrow
    rw [hnone, hrow]
    obtain ⟨h, hread⟩ := Option.isSome_iff_exists.mp
      (readableHash_isSome hinv filter hr (pathOf addr))
    have hnoFile : ¬ FileLike db filter addr head c := by
      rintro ⟨file, hfile, -⟩
      rw [hnone] at hfile
      cases hfile
    rcases hfile' : fileRowAt db addr c with _ | file'
    · have hlike : LooksAlike db filter addr head c ↔ ∃ row' ∈ dirRowAt db addr c, ∀ ks,
          (shown db filter (some row) addr ks).map File.hash =
            (shown db filter (some row') addr ks).map File.hash := by
        constructor
        · rintro (⟨-, -, row₀, hrow₀, hsame⟩ | hlike | ⟨file, hfile, -⟩)
          · rw [Option.mem_def, hrow] at hrow₀
            rwa [Option.some.inj hrow₀]
          · exact absurd hlike hnoFile
          · rw [hfile'] at hfile
            cases hfile
        · exact fun hsame => Or.inl ⟨hnone, hfile', row, hrow, hsame⟩
      rw [hlike]
      rcases hdir' : dirRowAt db addr c with _ | row'
      · simp [hread]
      · rw [Option.bind_some, Option.bind_some, eq_comm,
          readableHash_eq_iff hinv hcf hr (dirRowAt_mem hinv hdir') haddr]
        simp
    · have hlike : LooksAlike db filter addr head c ↔
          filter.allow (pathOf addr) = true ∧ some file'.hash = some h := by
        constructor
        · rintro (⟨-, hnone', -⟩ | hlike | ⟨file, hfile, hallow, -, row₀, hrow₀, hhash⟩)
          · rw [hfile'] at hnone'
            cases hnone'
          · exact absurd hlike hnoFile
          · rw [Option.mem_def, hfile'] at hfile
            rw [Option.mem_def, hrow] at hrow₀
            rw [← Option.some.inj hrow₀, hread, ← Option.some.inj hfile] at hhash
            exact ⟨hallow, hhash.symm⟩
        · rintro ⟨hallow, hhash⟩
          exact Or.inr (Or.inr ⟨file', hfile', hallow, hnone, row, hrow, hread.trans hhash.symm⟩)
      rw [hlike, Option.bind_some, hread]
      cases filter.allow (pathOf addr) with
      | true => simp
      | false => simp

/-! ## Since the last change -/

theorem readableHash_eq_of_listedRow (hinv : db.StoreInv) {addr : List Str}
    {row row' : TreeRow H} (hr : row ∈ db.treeNodes) (hr' : row' ∈ db.treeNodes)
    (hsame : listedRow db all filter addr row = listedRow db all filter addr row')
    (hlisted : listedRow db all filter addr row ≠ none) :
    readableHash db filter row (pathOf addr) = readableHash db filter row' (pathOf addr) := by
  cases all with
  | true =>
      exact readableHash_congr hinv hr hr' (Option.some.inj hsame) _
  | false =>
      have hread : ∀ {r : TreeRow H} {h : H}, listedRow db false filter addr r = some h →
          readableHash db filter r (pathOf addr) = some h := by
        intro r h hlisted
        rw [listedRow, if_neg (by simp)] at hlisted
        obtain ⟨t, ht, rfl⟩ := Option.map_eq_some_iff.mp hlisted
        rw [readableHash, (Option.filter_eq_some_iff.mp ht).1]
        rfl
      obtain ⟨h, hh⟩ := Option.ne_none_iff_exists'.mp hlisted
      rw [hread hh, hread (hsame.symm.trans hh)]

variable {ds : List Str} {head c : Commit H}

/-- Where an entry is of one kind, the log reads one thing as long as one thing is
listed. -/
theorem shownAt_eq_of_entry (hinv : db.StoreInv)
    (hfilter : CompiledFilter all filter) (hds : ∀ m ∈ ds, ValidName m) {n : Str}
    (hn : ValidName n) {commits : List (Commit H)}
    (hkind : OneKind db filter (ds ++ [n]) commits) (hc : c ∈ commits) (hhead : head ∈ commits)
    (hsame : childEntryHash (listedDir db all filter ds c) n =
      childEntryHash (listedDir db all filter ds head) n)
    (hlisted : childEntryHash (listedDir db all filter ds head) n ≠ none) :
    shownAt db filter (pathOf (ds ++ [n])) c = shownAt db filter (pathOf (ds ++ [n])) head := by
  rw [shownAt_pathOf (validNames_concat hds hn), shownAt_pathOf (validNames_concat hds hn)]
  rcases hkind with ⟨hallow, hfiles⟩ | hnone
  · obtain ⟨file, hfile⟩ := Option.isSome_iff_exists.mp (hfiles c hc)
    obtain ⟨file', hfile'⟩ := Option.isSome_iff_exists.mp (hfiles head hhead)
    rw [childEntryHash_of_file hinv hfilter hds hn hfile hallow,
      childEntryHash_of_file hinv hfilter hds hn hfile' hallow] at hsame
    rw [hfile, hfile']
    simpa [hallow] using hsame
  · have hlisted' := childEntryHash_of_no_file hinv hfilter hds hn (hnone head hhead)
    rw [childEntryHash_of_no_file hinv hfilter hds hn (hnone c hc), hlisted'] at hsame
    rw [hlisted'] at hlisted
    rw [hnone c hc, hnone head hhead]
    rcases hdir' : dirRowAt db (ds ++ [n]) head with _ | row'
    · rw [hdir'] at hlisted
      exact absurd rfl hlisted
    · rw [hdir', Option.bind_some] at hsame hlisted
      rcases hdir : dirRowAt db (ds ++ [n]) c with _ | row
      · rw [hdir, Option.bind_none] at hsame
        exact absurd hsame.symm hlisted
      · rw [hdir, Option.bind_some] at hsame
        rw [Option.bind_some, Option.bind_some]
        exact readableHash_eq_of_listedRow hinv (dirRowAt_mem hinv hdir)
          (dirRowAt_mem hinv hdir') hsame (hsame ▸ hlisted)

/-- Where no file has a directory's name, the log reads one thing as long as one
thing is listed. -/
theorem shownAt_eq_of_dir (hinv : db.StoreInv) (hds : ∀ m ∈ ds, ValidName m)
    {commits : List (Commit H)} (hnone : NoFile db ds commits) (hc : c ∈ commits)
    (hhead : head ∈ commits)
    (hsame : (listedDir db all filter ds c).map TreeNode.hash =
      (listedDir db all filter ds head).map TreeNode.hash)
    (hlisted : (listedDir db all filter ds head).map TreeNode.hash ≠ none) :
    shownAt db filter (pathOf ds) c = shownAt db filter (pathOf ds) head := by
  rw [listedDir_hash, listedDir_hash] at hsame
  rw [listedDir_hash] at hlisted
  rw [shownAt_pathOf hds, shownAt_pathOf hds, hnone c hc, hnone head hhead]
  rcases hdir' : dirRowAt db ds head with _ | row'
  · rw [hdir'] at hlisted
    exact absurd rfl hlisted
  · rw [hdir', Option.bind_some] at hsame hlisted
    rcases hdir : dirRowAt db ds c with _ | row
    · rw [hdir, Option.bind_none] at hsame
      exact absurd hsame.symm hlisted
    · rw [hdir, Option.bind_some] at hsame
      rw [Option.bind_some, Option.bind_some]
      cases all with
      | true =>
          exact readableHash_congr hinv (dirRowAt_mem hinv hdir) (dirRowAt_mem hinv hdir')
            (Option.some.inj hsame) _
      | false => exact hsame

theorem readsAt_of_entry (hinv : db.StoreInv)
    (hfilter : CompiledFilter all filter) (hds : ∀ m ∈ ds, ValidName m) {n : Str}
    (hn : ValidName n) {commits : List (Commit H)}
    (hkind : OneKind db filter (ds ++ [n]) commits) (hhead : head ∈ commits)
    (hlisted : childEntryHash (listedDir db all filter ds head) n ≠ none) :
    ReadsAt db filter (ds ++ [n]) head := by
  rcases hkind with ⟨hallow, hfiles⟩ | hnone
  · obtain ⟨file, hfile⟩ := Option.isSome_iff_exists.mp (hfiles head hhead)
    exact Or.inl ⟨file, hfile, hallow⟩
  · refine Or.inr ⟨hnone head hhead, ?_⟩
    rw [childEntryHash_of_no_file hinv hfilter hds hn (hnone head hhead)] at hlisted
    rcases hdir : dirRowAt db (ds ++ [n]) head with _ | row
    · rw [hdir] at hlisted
      exact absurd rfl hlisted
    · rfl

theorem file_ne_of_entry (hinv : db.StoreInv)
    (hfilter : CompiledFilter all filter) (hds : ∀ m ∈ ds, ValidName m) {n : Str}
    (hn : ValidName n) {commits : List (Commit H)}
    (hkind : OneKind db filter (ds ++ [n]) commits) (hhead : head ∈ commits)
    (hchanged : childEntryHash (listedDir db all filter ds c) n ≠
      childEntryHash (listedDir db all filter ds head) n) :
    ∀ file ∈ fileRowAt db (ds ++ [n]) head, ∀ file' ∈ fileRowAt db (ds ++ [n]) c,
      file.hash ≠ file'.hash := by
  intro file hfile file' hfile' heq
  rw [Option.mem_def] at hfile hfile'
  rcases hkind with ⟨hallow, -⟩ | hnone
  · apply hchanged
    rw [childEntryHash_of_file hinv hfilter hds hn hfile hallow,
      childEntryHash_of_file hinv hfilter hds hn hfile' hallow, heq]
  · rw [hnone head hhead] at hfile
    cases hfile

end Views

/-! ## The two histories -/

section Agreement

variable {H : Type} [DecidableEq H] [HashScheme H] {db : DB H} {perm : PermissionUsecase}
  {isAdmin : Bool} {set : PermissionSet} {projectID : ID} {rev : Str} {head : Commit H}
  {older : List (Commit H)} {ds : List Str}

/-- A revision whose history the browser shows to its end. -/
structure HistoryCall (db : DB H) (projectID : ID) (rev : Str) (head : Commit H)
    (older : List (Commit H)) : Prop where
  starts : resolveRevision db projectID rev = .ok (some head.id)
  chain : FirstParentChain db head.id (head :: older)
  inProject : ∀ c ∈ head :: older, c.projectID = projectID
  covered : (head :: older).length ≤ maxTreeHistoryCommits

/-- What the listing of a directory shows of an entry. -/
def entryListed (db : DB H) (isAdmin : Bool) (set : PermissionSet) (ds : List Str) (n : Str)
    (c : Commit H) : Option H :=
  childEntryHash (listedDir db (readsAll isAdmin set) (compileFilter isAdmin set permissionRead)
    ds c) n

/-- What the listing shows of the directory itself. -/
def dirListed (db : DB H) (isAdmin : Bool) (set : PermissionSet) (ds : List Str) (c : Commit H) :
    Option H :=
  (listedDir db (readsAll isAdmin set) (compileFilter isAdmin set permissionRead) ds c).map
    TreeNode.hash

/-- The log of an entry's path names the last change of the entry. -/
def EntryAgrees (db : DB H) (isAdmin : Bool) (set : PermissionSet) (ds : List Str) (n : Str)
    (head : Commit H) (older : List (Commit H)) : Prop :=
  let since := sinceChange (entryListed db isAdmin set ds n) (head :: older)
  NamesChange db (compileFilter isAdmin set permissionRead) (ds ++ [n])
    (OneKind db (compileFilter isAdmin set permissionRead) (ds ++ [n]) since) since
    (beforeChange (entryListed db isAdmin set ds n) (head :: older)) head

/-- The log of a directory's path names the last change of the directory. -/
def DirAgrees (db : DB H) (isAdmin : Bool) (set : PermissionSet) (ds : List Str)
    (head : Commit H) (older : List (Commit H)) : Prop :=
  let since := sinceChange (dirListed db isAdmin set ds) (head :: older)
  NamesChange db (compileFilter isAdmin set permissionRead) ds (NoFile db ds since) since
    (beforeChange (dirListed db isAdmin set ds) (head :: older)) head

omit [DecidableEq H] [HashScheme H] in
theorem HistoryCall.nodup (hdag : CommitDAG db) (hcall : HistoryCall db projectID rev head older) :
    (head :: older).Nodup :=
  (hcall.chain.nodup hdag).of_map

theorem log_starts_iff (hinv : db.StoreInv) (hdag : CommitDAG db)
    (hreads : perm.hasProjectAccess .read = true) (hcall : HistoryCall db projectID rev head older)
    {filter : PathFilter} {addr : List Str} (haddr : ∀ m ∈ addr, ValidName m)
    (hvisible : pathOf addr ≠ [] → filter.canDescend (pathOf addr) = true) (limit : ℤ)
    (first : Option (Commit H)) :
    (∃ log, pathCommitLog db perm filter projectID rev (pathOf addr) none limit = .ok log ∧
        log.head? = first) ↔
      (touchedCommits (shownAt db filter (pathOf addr)) (head :: older) ++
        bareRoot (shownAt db filter (pathOf addr)) (head :: older)).head? = first := by
  have hlogCall : PathLogCall db perm filter projectID rev (pathOf addr) none (head :: older) := by
    refine ⟨hreads, ?_, ⟨head.id, hcall.starts, hcall.chain⟩, hcall.inProject,
      hcall.covered.trans (by decide)⟩
    rw [trim_pathOf haddr]
    by_cases hnil : pathOf addr = []
    · exact Or.inl hnil
    · exact Or.inr (hvisible hnil)
  have hhead : ∀ l : List (Commit H), (l.take (walkLimit limit)).head? = l.head? := by
    intro l
    rw [List.head?_take, if_neg (walkLimit_pos limit).ne']
  rw [pathCommitLog_eq hinv hdag hlogCall limit, trim_pathOf haddr]
  constructor
  · rintro ⟨log, hlog, hfirst⟩
    rwa [← Except.ok.inj hlog, hhead] at hfirst
  · intro hfirst
    exact ⟨_, rfl, (hhead _).trans hfirst⟩

theorem entry_agrees_iff (hinv : db.StoreInv) (hcf : CollisionFree H) (hdag : CommitDAG db)
    (hreads : perm.hasProjectAccess .read = true) (hcall : HistoryCall db projectID rev head older)
    (hds : ∀ m ∈ ds, ValidName m) {node : TreeNode H}
    (hnode : listedDir db (readsAll isAdmin set) (compileFilter isAdmin set permissionRead) ds
      head = some node) {n : Str} (hn : n ∈ childNames node) (limit : ℤ) :
    (∃ log, pathCommitLog db perm (compileFilter isAdmin set permissionRead) projectID rev
        (pathOf (ds ++ [n])) none limit = .ok log ∧
        log.head? = lastChange (entryListed db isAdmin set ds n) (head :: older)) ↔
      EntryAgrees db isAdmin set ds n head older := by
  have hfilter := compileFilter_compiled isAdmin set
  have hname := childNames_valid hinv hnode n hn
  have haddr := validNames_concat hds hname
  have hlisted : entryListed db isAdmin set ds n head ≠ none := by
    rw [entryListed, hnode]
    exact childEntryHash_ne_none hn
  rw [log_starts_iff hinv hdag hreads hcall haddr
    (fun _ => canDescend_of_listed hinv hfilter hds hnode hn) limit,
    log_head?_eq_lastChange_iff (hcall.nodup hdag) hlisted]
  refine (namesChange_iff ?_ ?_).symm
  · intro hkind c hc
    exact shownAt_eq_of_entry hinv hfilter hds hname hkind hc head_mem_sinceChange
      (mem_sinceChange hc) hlisted
  · intro hkind c hc
    exact shownAt_eq_iff hinv hcf haddr
      (readsAt_of_entry hinv hfilter hds hname hkind head_mem_sinceChange hlisted)
      (file_ne_of_entry hinv hfilter hds hname hkind head_mem_sinceChange (beforeChange_ne hc).1)

theorem dir_agrees_iff (hinv : db.StoreInv) (hcf : CollisionFree H) (hdag : CommitDAG db)
    (hreads : perm.hasProjectAccess .read = true) (hcall : HistoryCall db projectID rev head older)
    (hds : ∀ m ∈ ds, ValidName m) {node : TreeNode H}
    (hnode : listedDir db (readsAll isAdmin set) (compileFilter isAdmin set permissionRead) ds
      head = some node)
    (hvisible : pathOf ds ≠ [] →
      (compileFilter isAdmin set permissionRead).canDescend (pathOf ds) = true) (limit : ℤ) :
    (∃ log, pathCommitLog db perm (compileFilter isAdmin set permissionRead) projectID rev
        (pathOf ds) none limit = .ok log ∧
        log.head? = lastChange (dirListed db isAdmin set ds) (head :: older)) ↔
      DirAgrees db isAdmin set ds head older := by
  have hlisted : dirListed db isAdmin set ds head ≠ none := by
    rw [dirListed, hnode]
    exact Option.some_ne_none _
  obtain ⟨row, hrow, -⟩ := Option.bind_eq_some_iff.mp hnode
  rw [log_starts_iff hinv hdag hreads hcall hds hvisible limit,
    log_head?_eq_lastChange_iff (hcall.nodup hdag) hlisted]
  refine (namesChange_iff ?_ ?_).symm
  · intro hnone c hc
    have hsame : dirListed db isAdmin set ds c = dirListed db isAdmin set ds head :=
      mem_sinceChange hc
    exact shownAt_eq_of_dir hinv hds hnone hc head_mem_sinceChange hsame hlisted
  · intro hnone c hc
    have hfile := hnone head head_mem_sinceChange
    refine shownAt_eq_iff hinv hcf hds (Or.inr ⟨hfile, by rw [hrow]; rfl⟩) ?_
    intro file hfile'
    rw [hfile] at hfile'
    cases hfile'

/-- The history of a directory and the logs of its entries and of the directory name
the same last commits, each exactly when the log reads what the listing shows and
can tell the last change from no change. -/
theorem treeHistory_agrees_iff (hinv : db.StoreInv) (hcf : CollisionFree H) (hdag : CommitDAG db)
    (hcall : HistoryCall db projectID rev head older) (hds : ∀ m ∈ ds, ValidName m)
    {node : TreeNode H} {history : TreeHistory H}
    (hbrowse : treeAtWithHistory db perm isAdmin set projectID rev (pathOf ds) =
      .ok (some node, some history)) (limit : ℤ) :
    (∀ n ∈ childNames node,
      ((∃ log, pathCommitLog db perm (compileFilter isAdmin set permissionRead) projectID rev
          (joinTreePath (pathOf ds) n) none limit = .ok log ∧
          log.head? = history.byPath.lookup (joinTreePath (pathOf ds) n)) ↔
        EntryAgrees db isAdmin set ds n head older)) ∧
      ((∃ log, pathCommitLog db perm (compileFilter isAdmin set permissionRead) projectID rev
          (pathOf ds) none limit = .ok log ∧ log.head? = history.latest) ↔
        DirAgrees db isAdmin set ds head older) := by
  have hheadMem : head ∈ db.commits := hcall.chain.mem_commits head List.mem_cons_self
  rw [treeAtWithHistory, treeAt, trim_pathOf hds] at hbrowse
  obtain ⟨u, hreads, hbrowse⟩ := bind_eq_ok.mp hbrowse
  rw [refuseIf_eq_ok, Bool.not_eq_false] at hreads
  rw [hcall.starts] at hbrowse
  obtain ⟨revision, hrev, hbrowse⟩ := bind_eq_ok.mp hbrowse
  obtain rfl := Except.ok.inj hrev
  obtain ⟨shownNode, hdir, hbrowse⟩ := bind_eq_ok.mp hbrowse
  rw [if_pos rfl] at hbrowse
  obtain ⟨found, hhistory, hbrowse⟩ := bind_eq_ok.mp hbrowse
  obtain ⟨rfl, hfound⟩ := Prod.mk.inj (Except.ok.inj hbrowse)
  obtain rfl := Option.some.inj hfound
  obtain ⟨hnode, hvisible⟩ := browsedDir_eq hinv hds hheadMem hdir
  obtain ⟨history, hpass, hlatest, hentries⟩ := treeHistory_eq hinv hdag hcall.chain
    hcall.inProject hcall.covered hds (by rw [List.head?_cons, Option.bind_some]; exact hnode)
  obtain rfl := Except.ok.inj (hpass.symm.trans hhistory)
  constructor
  · intro n hn
    rw [joinTreePath_pathOf hds (childNames_valid hinv hnode n hn), hentries n hn]
    exact entry_agrees_iff hinv hcf hdag hreads hcall hds hnode hn limit
  · rw [hlatest]
    exact dir_agrees_iff hinv hcf hdag hreads hcall hds hnode hvisible limit

end Agreement

/-! ## A change of empty directories, and a hidden file -/

/-- The removal of a file that is not there makes its directory. -/
def phantomPush : PushRequest IdealHash :=
  { demoSecond with
    files := []
    removed := ["a/q/r.txt".toList]
    paths_fit := by decide }

def phantomStore : DB IdealHash :=
  (push filledStore demoCaller 8 phantomPush).toOption.getD demoStore

def clashedStore : DB IdealHash :=
  (push demoStore demoCaller 7 clashingPush).toOption.getD demoStore

def belowPush : PushRequest IdealHash :=
  { demoSecond with
    files := [demoFile "a/b.txt" 3]
    removed := []
    paths_fit := by decide }

def changedStore : DB IdealHash :=
  (push clashedStore demoCaller 8 belowPush).toOption.getD demoStore

def belowOnly : PermissionSet :=
  ⟨[⟨"a/b.txt".toList, permissionRead⟩], [], false⟩

theorem exists_historyCall {db : DB IdealHash}
    (hcommits : db.commits.map (fun c => (c.id, c.parent1ID, c.projectID)) =
      [(7, none, 1), (8, some 7, 1)])
    (hstarts : (resolveRevision db 1 []).toOption = some (some 8)) :
    ∃ c d, HistoryCall db 1 [] d [c] := by
  obtain ⟨c, rest, heq, hc, hrest⟩ := List.map_eq_cons_iff.mp hcommits
  obtain ⟨d, last, rfl, hd, hlast⟩ := List.map_eq_cons_iff.mp hrest
  obtain rfl := List.map_eq_nil_iff.mp hlast
  obtain ⟨hcid, hcparent, hcproject⟩ : c.id = 7 ∧ c.parent1ID = none ∧ c.projectID = 1 := by
    simpa using hc
  obtain ⟨hdid, hdparent, hdproject⟩ : d.id = 8 ∧ d.parent1ID = some 7 ∧ d.projectID = 1 := by
    simpa using hd
  have hroot : FirstParentChain db 7 [c] := by
    rw [← hcid]
    exact FirstParentChain.root (by rw [heq]; simp) hcparent
  refine ⟨c, d, ?_, ?_, ?_, by simp [maxTreeHistoryCommits]⟩
  · rw [hdid]
    rcases hrev : resolveRevision db 1 [] with e | revision
    · rw [hrev] at hstarts
      cases hstarts
    · rw [hrev] at hstarts
      exact congrArg Except.ok (Option.some.inj hstarts)
  · exact FirstParentChain.child (by rw [heq]; simp) hdparent hroot
  · simp [hcproject, hdproject]

theorem phantomStore_inv : phantomStore.StoreInv := by
  have hempty : demoStore.Unborn := ⟨rfl, rfl, rfl⟩
  have hfirst : PushRun demoStore filledStore :=
    .push (.refl demoStore) (eq_ok_of_toOption demoStore (by decide +kernel))
  have hrun : PushRun demoStore phantomStore :=
    .push hfirst (eq_ok_of_toOption demoStore (by decide +kernel))
  exact (hrun.grows hempty.storeInv IdealHash.collisionFree).inv'

theorem phantom_dag : CommitDAG phantomStore :=
  ⟨by decide +kernel, by decide +kernel, id, by decide +kernel⟩

example : phantomStore.commits.map Commit.id = [7, 8] := by decide +kernel

theorem phantomStore_call : ∃ c d, HistoryCall phantomStore 1 [] d [c] :=
  exists_historyCall (by decide +kernel) (by decide +kernel)

theorem changedStore_call : ∃ c d, HistoryCall changedStore 1 [] d [c] :=
  exists_historyCall (by decide +kernel) (by decide +kernel)

example : changedStore.commits.map Commit.id = [7, 8] := by decide +kernel

theorem treeHistory_agrees_demo :
    ∃ c d node history, HistoryCall phantomStore 1 [] d [c] ∧
      treeAtWithHistory phantomStore demoCaller.perm true belowOnly 1 [] (pathOf ["a".toList]) =
        .ok (some node, some history) ∧
      (∀ n ∈ childNames node,
        ((∃ log, pathCommitLog phantomStore demoCaller.perm
            (compileFilter true belowOnly permissionRead) 1 []
            (joinTreePath (pathOf ["a".toList]) n) none 0 = .ok log ∧
            log.head? = history.byPath.lookup (joinTreePath (pathOf ["a".toList]) n)) ↔
          EntryAgrees phantomStore true belowOnly ["a".toList] n d [c])) ∧
        ((∃ log, pathCommitLog phantomStore demoCaller.perm
            (compileFilter true belowOnly permissionRead) 1 [] (pathOf ["a".toList]) none 0 =
              .ok log ∧ log.head? = history.latest) ↔
          DirAgrees phantomStore true belowOnly ["a".toList] d [c]) := by
  obtain ⟨c, d, hcall⟩ := phantomStore_call
  have hok : ((treeAtWithHistory phantomStore demoCaller.perm true belowOnly 1 []
      (pathOf ["a".toList])).toOption.any fun r => r.1.isSome && r.2.isSome) = true := by
    decide +kernel
  rcases hbrowse : treeAtWithHistory phantomStore demoCaller.perm true belowOnly 1 []
      (pathOf ["a".toList]) with e | r
  · rw [hbrowse] at hok
    cases hok
  · obtain ⟨node, history⟩ := r
    rw [hbrowse] at hok
    rcases node with _ | node
    · cases hok
    · rcases history with _ | history
      · cases hok
      · exact ⟨c, d, node, history, hcall, rfl, treeHistory_agrees_iff phantomStore_inv
          IdealHash.collisionFree phantom_dag hcall (by simp [ValidName]) hbrowse 0⟩

/-- The listing of the root names commit 8 for `a` where the log of `a` starts with
commit 7: the push only made an empty directory, or the log reads a hidden file. -/
theorem histories_name_two_commits :
    (∃ c d, HistoryCall phantomStore 1 [] d [c]) ∧
    (treeAtWithHistory phantomStore demoCaller.perm true belowOnly 1 [] []).toOption.bind
        (fun r => r.2.bind fun h => (h.byPath.lookup "a".toList).map Commit.id) = some 8 ∧
      (pathCommitLog phantomStore demoCaller.perm (compileFilter true belowOnly permissionRead) 1
        [] "a".toList none 0).toOption.bind (fun log => log.head?.map Commit.id) = some 7 ∧
    (∃ c d, HistoryCall changedStore 1 [] d [c]) ∧
    (treeAtWithHistory changedStore demoCaller.perm false belowOnly 1 [] []).toOption.bind
        (fun r => r.2.bind fun h => (h.byPath.lookup "a".toList).map Commit.id) = some 8 ∧
      (pathCommitLog changedStore demoCaller.perm (compileFilter false belowOnly permissionRead) 1
        [] "a".toList none 0).toOption.bind (fun log => log.head?.map Commit.id) = some 7 := by
  exact ⟨phantomStore_call, by decide +kernel, by decide +kernel, changedStore_call,
    by decide +kernel, by decide +kernel⟩

end Nipa
