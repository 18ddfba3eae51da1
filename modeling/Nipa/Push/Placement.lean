import Nipa.Push.Run

/-!
# Where accepted paths end up

Validation strips one leading slash from a path, the builder does not.  A path
spelled with a leading slash is therefore filed only at the top level, where
the slash is cut off with the directory part, and below it under a directory
no rebuilt directory leads to.  The builder also lists files and
subdirectories of a directory independently of each other.  The exact
condition under which a change set is placed as its paths say is `PathsSettle`.
-/

namespace Nipa

open Support TreeBuilder

/-! ## The address of an accepted path -/

/-- The names of a path, without one leading slash. -/
def addressOf (p : Str) : List Str :=
  (trimPrefix p ['/']).splitOn '/'

/-- The spellings the builder files at an address: the joined names, and at
the top level the name after a slash as well. -/
def FiledAt (p : Str) (addr : List Str) : Prop :=
  p = pathOf addr ∨ addr.length = 1 ∧ p = '/' :: pathOf addr

instance (p : Str) (addr : List Str) : Decidable (FiledAt p addr) :=
  inferInstanceAs (Decidable (_ ∨ _))

variable {p : Str}

theorem spelled_of_pathOK (h : PathOK p) : Spelled p := by
  obtain ⟨segs, hne, hall, hp⟩ := h
  exact ⟨segs, ⟨hne, fun n hn => (hall n hn).1⟩, hp⟩

theorem addressOf_pathOf {segs : List Str} (h : ValidSegs segs) :
    addressOf (pathOf segs) = segs := by
  have hpre : ¬ ['/'].isPrefixOf (pathOf segs) := by
    rw [List.isPrefixOf_iff_prefix]
    rintro ⟨t, ht⟩
    apply pathOf_head?_ne h.2
    rw [← ht]
    rfl
  rw [addressOf, trimPrefix, if_neg hpre, splitOn_pathOf h]

theorem addressOf_slash_pathOf {segs : List Str} (h : ValidSegs segs) :
    addressOf ('/' :: pathOf segs) = segs := by
  have htrim : trimPrefix ('/' :: pathOf segs) ['/'] = pathOf segs := by
    simp [trimPrefix]
  rw [addressOf, htrim, splitOn_pathOf h]

theorem addressOf_spelled (h : Spelled p) :
    ValidSegs (addressOf p) ∧
      (p = pathOf (addressOf p) ∨ p = '/' :: pathOf (addressOf p)) := by
  obtain ⟨segs, hsegs, rfl | rfl⟩ := h
  · rw [addressOf_pathOf hsegs]
    exact ⟨hsegs, Or.inl rfl⟩
  · rw [addressOf_slash_pathOf hsegs]
    exact ⟨hsegs, Or.inr rfl⟩

theorem landsAt_iff_filedAt (h : Spelled p) {addr : List Str} (ha : ValidSegs addr) :
    LandsAt p addr ↔ FiledAt p addr := by
  obtain ⟨segs, hsegs, rfl | rfl⟩ := h
  · rw [landsAt_pathOf hsegs ha, FiledAt]
    constructor
    · rintro rfl
      exact Or.inl rfl
    · rintro (heq | ⟨-, heq⟩)
      · exact pathOf_injective hsegs ha heq
      · exact absurd (by rw [heq]; rfl) (pathOf_head?_ne hsegs.2)
  · obtain ⟨ds, m, rfl⟩ := (List.eq_nil_or_concat' addr).resolve_left ha.1
    obtain ⟨ss, n, rfl⟩ := (List.eq_nil_or_concat' segs).resolve_left hsegs.1
    have hn := hsegs.2 n (by simp)
    have hfiled : FiledAt ('/' :: pathOf (ss ++ [n])) (ds ++ [m]) ↔
        ds = [] ∧ ss ++ [n] = ds ++ [m] := by
      rw [FiledAt]
      constructor
      · rintro (heq | ⟨hlen, heq⟩)
        · exact absurd (by rw [← heq]; rfl) (pathOf_head?_ne ha.2)
        · have hsame := pathOf_injective hsegs ha (List.cons.inj heq).2
          simp only [List.length_append, List.length_singleton] at hlen
          exact ⟨List.length_eq_zero_iff.mp (by omega), hsame⟩
      · rintro ⟨rfl, hsame⟩
        exact Or.inr ⟨rfl, by rw [hsame]⟩
    rw [landsAt_concat, hfiled]
    by_cases hss : ss = []
    · subst hss
      have hsplit : ('/' :: pathOf ([] ++ [n])) = [] ++ '/' :: n := by simp
      rw [hsplit, dirOf, baseOf, beforeLast_append_cons hn.2, afterLast_append_cons hn.2]
      constructor
      · rintro ⟨hd, rfl⟩
        have hds : ds = [] := (pathOf_eq_nil_iff fun x hx => ha.2 x (by simp [hx])).mp hd.symm
        exact ⟨hds, by rw [hds]⟩
      · rintro ⟨rfl, hsame⟩
        exact ⟨rfl, by simpa using hsame⟩
    · -- the directory part keeps the slash, and no address is spelled that way
      have hsplit : '/' :: pathOf (ss ++ [n]) = ('/' :: pathOf ss) ++ '/' :: n := by
        rw [pathOf_concat hss]
        rfl
      rw [hsplit, dirOf, beforeLast_append_cons hn.2]
      constructor
      · rintro ⟨hd, -⟩
        exact absurd (by rw [← hd]; rfl)
          (pathOf_head?_ne fun x hx => ha.2 x (by simp [hx] : x ∈ ds ++ [m]))
      · rintro ⟨rfl, hsame⟩
        have hlen := congrArg List.length hsame
        simp only [List.length_append, List.length_singleton, List.length_nil] at hlen
        exact absurd (List.length_eq_zero_iff.mp (by omega)) hss

theorem FiledAt.addressOf_eq {addr : List Str} (h : FiledAt p addr) (ha : ValidSegs addr) :
    addressOf p = addr := by
  rcases h with rfl | ⟨-, rfl⟩
  · exact addressOf_pathOf ha
  · exact addressOf_slash_pathOf ha

theorem baseOf_valid (h : Spelled p) : ValidName (baseOf p) := by
  obtain ⟨segs, hsegs, hp⟩ := h
  obtain ⟨ss, n, rfl⟩ := (List.eq_nil_or_concat' segs).resolve_left hsegs.1
  have hn := hsegs.2 n (by simp)
  rw [baseOf_spelled hn.2 hp]
  exact hn

theorem pathOf_mem_rebuildDirs {H : Type} {files : List (PushFile H)} {removed : List Str}
    {addr : List Str} (ha : ValidSegs addr) :
    pathOf addr ∈ (ofRequest files removed).rebuildDirs ↔
      ∃ p, (p ∈ files.map PushFile.path ∨ p ∈ removed) ∧ pathOf addr ++ ['/'] <+: p := by
  have hne : pathOf addr ≠ [] := fun h => ha.1 ((pathOf_eq_nil_iff ha.2).mp h)
  rw [mem_rebuildDirs, or_iff_right hne]
  refine exists_congr fun p => and_congr_right fun _ => ?_
  rw [mem_addAncestors]
  rcases notMem_or_eq_append_cons '/' p with hno | ⟨d, n, hn, rfl⟩
  · rw [dirOf, beforeLast_of_notMem hno]
    constructor
    · rintro (heq | ⟨r, heq⟩)
      · exact absurd heq hne
      · simp at heq
    · rintro ⟨t, rfl⟩
      exact absurd (by simp) hno
  · rw [dirOf, beforeLast_append_cons hn]
    constructor
    · rintro (heq | ⟨r, heq⟩)
      · exact ⟨n, by rw [heq]; simp⟩
      · exact ⟨r ++ '/' :: n, by rw [heq]; simp⟩
    · rintro ⟨t, ht⟩
      rw [List.append_assoc, List.singleton_append] at ht
      -- the last slash is at or after the one that ends the directory
      rcases List.append_eq_append_iff.mp ht with ⟨a, rfl, ha'⟩ | ⟨b, hb, hb'⟩
      · rcases a with _ | ⟨c, a⟩
        · exact Or.inl (by simp)
        · obtain ⟨rfl, -⟩ := List.cons.inj ha'
          exact Or.inr ⟨a, rfl⟩
      · rcases b with _ | ⟨c, b⟩
        · exact Or.inl (by simpa using hb)
        · obtain ⟨rfl, rfl⟩ := List.cons.inj hb'
          exact absurd (by simp) hn

/-! ## The directories of a built tree -/

section Directories

variable {H : Type} [DecidableEq H] {db : DB H} {files : List (PushFile H)}
  {removed : List Str}

/-- The names listed in a directory of a built tree, files and subdirectories
alike. -/
def entryNames (db : DB H) (d : PushTreeNode H ⊕ H) : List Str :=
  ((builtTree db).files d).map Prod.fst ++ ((builtTree db).subs d).map Prod.fst

/-- A directory of the tree built for a request: rebuilt at some address on top
of rows of the store, or stored. -/
def Placed (db : DB H) (files : List (PushFile H)) (removed : List Str) :
    PushTreeNode H ⊕ H → Prop
  | .inl t => ∃ depth ds base, (∀ m ∈ ds, ValidName m) ∧
      (∀ row ∈ base, row ∈ db.treeNodes) ∧
      (ofRequest files removed).BuiltFrom db depth (pathOf ds) base t
  | .inr _ => True

theorem placed_root {headCommit : Option (Commit H)} {root : PushTreeNode H}
    (h : buildNewTree db headCommit files removed = .ok root) :
    Placed db files removed (.inl root) :=
  ⟨_, [], _, by simp, fun _ hrow => headRow_mem hrow, buildNewTree_builtFrom h⟩

variable [HashScheme H]

variable {d : PushTreeNode H ⊕ H}

theorem Placed.sub (hs : db.StoreShape) {d' : PushTreeNode H ⊕ H} {k : Str}
    (h : Placed db files removed d) (hmem : (k, d') ∈ (builtTree db).subs d) :
    Placed db files removed d' := by
  rcases d with t | h'
  · obtain ⟨depth, ds, base, hds, hbase, hb⟩ := h
    rcases List.mem_append.mp hmem with hmem | hmem
    · obtain ⟨_, _, heq⟩ := List.mem_map.mp hmem
      obtain ⟨-, rfl⟩ := Prod.mk.inj heq
      trivial
    · obtain ⟨c, hc, heq⟩ := List.mem_map.mp hmem
      obtain ⟨-, rfl⟩ := Prod.mk.inj heq
      rcases depth with _ | depth
      · exact hb.elim
      · obtain ⟨-, -, -, hperm, hchildren⟩ := hb
        have hname := (mem_immediateSubdirs.mp
          (hperm.mem_iff.mp (List.mem_map_of_mem hc))).1
        have hbc := hchildren c hc
        rw [joinPath_pathOf hds] at hbc
        exact ⟨depth, ds ++ [c.name], _, validNames_concat hds hname,
          childByName_mem hs hbase, hbc⟩
  · obtain ⟨_, _, heq⟩ := List.mem_map.mp hmem
    obtain ⟨-, rfl⟩ := Prod.mk.inj heq
    trivial

theorem Placed.reaches (hs : db.StoreShape) {d' : PushTreeNode H ⊕ H}
    (h : Placed db files removed d) (hr : (builtTree db).Reaches d d') :
    Placed db files removed d' := by
  induction hr with
  | refl => exact h
  | tail _ hstep ih =>
      obtain ⟨k, hk⟩ := hstep
      exact ih.sub hs hk

theorem Placed.names_nodup (hs : db.StoreShape) (h : Placed db files removed d) :
    (((builtTree db).files d).map Prod.fst).Nodup ∧
      (((builtTree db).subs d).map Prod.fst).Nodup := by
  rcases d with t | h'
  · obtain ⟨depth, ds, base, hds, hbase, hb⟩ := h
    refine ⟨?_, BuiltFrom.subs_nodup hs hbase hb⟩
    rcases depth with _ | depth
    · exact hb.elim
    · have hmap : ((builtTree db).files (.inl t)).map Prod.fst =
          t.files.map NodeFile.name := by
        simp only [builtTree, List.map_map]
        rfl
      rw [hmap, hb.2.1]
      exact nodeFiles_names_nodup _ _ _
  · have hd := hs.storeTree_distinct h'
    have hfiles : ((builtTree db).files (.inr h')).map Prod.fst =
        (db.storeTree.files h').map Prod.fst := by
      simp only [builtTree, DB.storeTree, List.map_map]
      rfl
    have hsubs : ((builtTree db).subs (.inr h')).map Prod.fst =
        (db.storeTree.subs h').map Prod.fst := by
      simp only [builtTree, DB.storeTree, List.map_map]
      rfl
    rw [hfiles, hsubs]
    exact hd

theorem Placed.valid_of_mem (hs : db.StoreShape) (hpath : ∀ f ∈ files, Spelled f.path)
    (h : Placed db files removed d) {n : Str} (hn : n ∈ entryNames db d) : ValidName n := by
  rcases d with t | h'
  · obtain ⟨depth, ds, base, hds, hbase, hb⟩ := h
    rcases depth with _ | depth
    · exact hb.elim
    · obtain ⟨-, hfiles, hkept, hperm, -⟩ := hb
      rcases List.mem_append.mp hn with hn | hn
      · simp only [builtTree, List.map_map] at hn
        obtain ⟨f, hf, rfl⟩ := List.mem_map.mp hn
        rw [hfiles] at hf
        rcases mem_nodeFiles hf with ⟨g, hg, rfl⟩ | ⟨g, hg, rfl⟩
        · exact baseOf_valid (hpath g (List.mem_filter.mp hg).1)
        · obtain ⟨row, hrow, rfl⟩ := baseFilesOf_mem hs hbase hg
          exact (hs.fileName row hrow).1
      · simp only [builtTree, List.map_append, List.map_map] at hn
        rcases List.mem_append.mp hn with hn | hn
        · obtain ⟨k, hk, rfl⟩ := List.mem_map.mp hn
          have hpair : (k.name, k.hash) ∈ (ofRequest files removed).keptOf (pathOf ds)
              (baseChildrenOf db base) := by
            rw [← hkept]
            exact List.mem_map.mpr ⟨k, hk, rfl⟩
          obtain ⟨c, hc, heq⟩ := List.mem_map.mp hpair
          obtain ⟨hname, -⟩ := Prod.mk.inj heq
          have hrow := (baseChildrenOf_ok hs hbase).1 c (List.mem_filter.mp hc).1
          have hvalid := (hs.treeName c hrow).1
          rwa [hname] at hvalid
        · obtain ⟨c, hc, rfl⟩ := List.mem_map.mp hn
          exact (mem_immediateSubdirs.mp (hperm.mem_iff.mp (List.mem_map_of_mem hc))).1
  · rcases List.mem_append.mp hn with hn | hn
    · simp only [builtTree, List.map_map] at hn
      obtain ⟨f, hf, rfl⟩ := List.mem_map.mp hn
      exact hs.filesByHash_valid hf
    · simp only [builtTree, List.map_map] at hn
      obtain ⟨c, hc, rfl⟩ := List.mem_map.mp hn
      exact (hs.childrenByHash_mem hc).2

end Directories

/-! ## When every path is placed -/

section Placement

variable {H : Type} {files : List (PushFile H)} {removed : List Str}

variable {addr : List Str}

theorem filedAt_of_length_ne {p : Str} (h : addr.length ≠ 1) :
    FiledAt p addr ↔ p = pathOf addr := by
  rw [FiledAt]
  constructor
  · rintro (heq | ⟨hlen, -⟩)
    · exact heq
    · exact absurd hlen h
  · exact Or.inl

theorem find?_reverse_map_eq {α β : Type} {l : List α} {p : α → Bool} {v : α → β} {x : α}
    (hx : x ∈ l) (hpx : p x) (h : ∀ y ∈ l, p y → v y = v x) :
    (l.reverse.find? p).map v = some (v x) := by
  have hsome : (l.reverse.find? p).isSome := by
    rw [List.find?_isSome]
    exact ⟨x, List.mem_reverse.mpr hx, hpx⟩
  obtain ⟨y, hy⟩ := Option.isSome_iff_exists.mp hsome
  rw [hy, Option.map_some,
    h y (List.mem_reverse.mp (List.mem_of_find?_eq_some hy)) (List.find?_some hy)]

theorem updated_of_filedAt (hpath : ∀ p, p ∈ files.map PushFile.path ∨ p ∈ removed →
    Spelled p) (ha : ValidSegs addr) (old : Option (NodeFile H)) :
    updated files removed addr old =
      ((files.reverse.find? fun f => FiledAt f.path addr).map nodeFileOfPush).or
        (if ∃ r ∈ removed, FiledAt r addr then none else old) := by
  have hfind : files.reverse.find? (fun f => LandsAt f.path addr) =
      files.reverse.find? fun f => FiledAt f.path addr := by
    apply find?_congr_mem
    intro f hf
    have hiff := landsAt_iff_filedAt
      (hpath f.path (Or.inl (List.mem_map_of_mem (List.mem_reverse.mp hf)))) ha
    simp [hiff]
  have hrem : (∃ r ∈ removed, LandsAt r addr) ↔ ∃ r ∈ removed, FiledAt r addr := by
    refine exists_congr fun r => and_congr_right fun hr => ?_
    exact landsAt_iff_filedAt (hpath r (Or.inr hr)) ha
  rw [updated, hfind]
  simp only [hrem]

theorem find?_filedAt_deep (hnodup : (files.map PushFile.path).Nodup) (hlen : addr.length ≠ 1)
    {g : PushFile H} (hg : g ∈ files) (hgp : g.path = pathOf addr) :
    files.reverse.find? (fun f => FiledAt f.path addr) = some g := by
  have hrev : (files.reverse.map PushFile.path).Nodup := by
    rw [List.map_reverse]
    exact List.nodup_reverse.mpr hnodup
  have hcongr : files.reverse.find? (fun f => FiledAt f.path addr) =
      files.reverse.find? fun f => f.path = pathOf addr := by
    apply find?_congr_mem
    intro f _
    simp [filedAt_of_length_ne hlen]
  rw [hcongr, find?_key_eq_some_iff hrev]
  exact ⟨List.mem_reverse.mpr hg, hgp⟩

/-- A file spelled with a leading slash below the top level is not filed; its
address holds it only if something else puts it there. -/
theorem updated_slashed_iff (hpath : ∀ p, p ∈ files.map PushFile.path ∨ p ∈ removed →
    Spelled p) (hnodup : (files.map PushFile.path).Nodup) (ha : ValidSegs addr)
    (hlen : addr.length ≠ 1) (old : Option (NodeFile H)) (v : NodeFile H) :
    updated files removed addr old = some v ↔
      (∃ g ∈ files, g.path = pathOf addr ∧ nodeFileOfPush g = v) ∨
      (∀ g ∈ files, g.path ≠ pathOf addr) ∧ pathOf addr ∉ removed ∧ old = some v := by
  rw [updated_of_filedAt hpath ha]
  by_cases hex : ∃ g ∈ files, g.path = pathOf addr
  · obtain ⟨g, hg, hgp⟩ := hex
    rw [find?_filedAt_deep hnodup hlen hg hgp, Option.map_some, Option.some_or,
      Option.some.injEq]
    constructor
    · intro hv
      exact Or.inl ⟨g, hg, hgp, hv⟩
    · rintro (⟨g', hg', hgp', hv⟩ | ⟨hnone, -⟩)
      · have hsame := find?_filedAt_deep hnodup hlen hg' hgp'
        rw [find?_filedAt_deep hnodup hlen hg hgp] at hsame
        rw [Option.some.inj hsame]
        exact hv
      · exact absurd hgp (hnone g hg)
  · have hnone : files.reverse.find? (fun f => FiledAt f.path addr) = none := by
      rw [List.find?_eq_none]
      intro g hg hfiled
      rw [decide_eq_true_eq, filedAt_of_length_ne hlen] at hfiled
      exact hex ⟨g, List.mem_reverse.mp hg, hfiled⟩
    have hrem : (∃ r ∈ removed, FiledAt r addr) ↔ pathOf addr ∈ removed := by
      simp only [filedAt_of_length_ne hlen, exists_eq_right]
    rw [hnone, Option.map_none, Option.none_or]
    simp only [hrem]
    constructor
    · intro h
      by_cases hr : pathOf addr ∈ removed
      · rw [if_pos hr] at h
        simp at h
      · rw [if_neg hr] at h
        exact Or.inr ⟨fun g hg hgp => hex ⟨g, hg, hgp⟩, hr, h⟩
    · rintro (⟨g, hg, hgp, -⟩ | ⟨-, hr, hold⟩)
      · exact absurd ⟨g, hg, hgp⟩ hex
      · rw [if_neg hr]
        exact hold

theorem updated_of_agree (hpath : ∀ p, p ∈ files.map PushFile.path ∨ p ∈ removed →
    Spelled p) (ha : ValidSegs addr) (old : Option (NodeFile H)) {f : PushFile H} (hf : f ∈ files)
    (hfiled : FiledAt f.path addr)
    (hagree : ∀ g ∈ files, FiledAt g.path addr → nodeFileOfPush g = nodeFileOfPush f) :
    updated files removed addr old = some (nodeFileOfPush f) := by
  rw [updated_of_filedAt hpath ha, find?_reverse_map_eq hf (by simpa using hfiled) ?_,
    Option.some_or]
  intro g hg hgf
  exact hagree g hg (by simpa using hgf)

theorem agree_top (hnodup : (files.map PushFile.path).Nodup)
    (hagree : ∀ f ∈ files, ∀ g ∈ files, '/' ∉ f.path → g.path = '/' :: f.path →
      nodeFileOfPush g = nodeFileOfPush f) (ha : ValidSegs addr) (hlen : addr.length = 1)
    {f g : PushFile H} (hf : f ∈ files) (hg : g ∈ files) (hff : FiledAt f.path addr)
    (hgf : FiledAt g.path addr) : nodeFileOfPush g = nodeFileOfPush f := by
  obtain ⟨n, rfl⟩ := List.length_eq_one_iff.mp hlen
  have hn := (ha.2 n (by simp)).2
  have hsame : ∀ f' ∈ files, ∀ g' ∈ files, f'.path = g'.path → f' = g' := fun f' hf' g' hg' h =>
    List.inj_on_of_nodup_map hnodup hf' hg' h
  simp only [FiledAt, pathOf_singleton, List.length_singleton, true_and] at hff hgf
  rcases hff with hff | hff <;> rcases hgf with hgf | hgf
  · rw [hsame f hf g hg (hff.trans hgf.symm)]
  · exact hagree f hf g hg (by rwa [hff]) (by rw [hgf, hff])
  · exact (hagree g hg f hf (by rwa [hgf]) (by rw [hff, hgf])).symm
  · rw [hsame f hf g hg (hff.trans hgf.symm)]

variable [DecidableEq H] {db : DB H}

/-- Every pushed file is at its address, and no directory lists a name twice or
an empty one. -/
structure KeepsAllPaths (db : DB H) (files : List (PushFile H)) (root : PushTreeNode H) :
    Prop where
  present : ∀ f ∈ files,
    (builtTree db).find (.inl root) (addressOf f.path) = some (nodeFileOfPush f)
  named : ∀ d, (builtTree db).Reaches (.inl root) d →
    (entryNames db d).Nodup ∧ [] ∉ entryNames db d

/-- An address that holds a file after the request: one is filed there, or the
head tree has one and no removal is filed there. -/
def FileLeft (db : DB H) (head : Option (TreeRow H)) (files : List (PushFile H))
    (removed : List Str) (addr : List Str) : Prop :=
  (∃ f ∈ files, FiledAt f.path addr) ∨
    (baseFind db head addr).isSome ∧ ∀ r ∈ removed, ¬ FiledAt r addr

/-- An address that is a directory after the request: it is one in the head
tree, or a touched path is spelled below it. -/
def DirLeft (db : DB H) (head : Option (TreeRow H)) (files : List (PushFile H))
    (removed : List Str) (addr : List Str) : Prop :=
  (baseDir db head addr).isSome ∨
    ∃ p, (p ∈ files.map PushFile.path ∨ p ∈ removed) ∧ pathOf addr ++ ['/'] <+: p

/-- The spellings of a change set leave every pushed file at its address. -/
structure PathsFiled (db : DB H) (head : Option (TreeRow H)) (files : List (PushFile H))
    (removed : List Str) : Prop where
  /-- Below the top level a leading slash only repeats what is there anyway. -/
  slashed : ∀ f ∈ files, ∀ addr, ValidSegs addr → addr.length ≠ 1 →
    f.path = '/' :: pathOf addr →
      (∃ g ∈ files, g.path = pathOf addr ∧ nodeFileOfPush g = nodeFileOfPush f) ∨
      (∀ g ∈ files, g.path ≠ pathOf addr) ∧ pathOf addr ∉ removed ∧
        baseFind db head addr = some (nodeFileOfPush f)
  /-- The two spellings of a top-level path carry the same file. -/
  agree : ∀ f ∈ files, ∀ g ∈ files, '/' ∉ f.path → g.path = '/' :: f.path →
    nodeFileOfPush g = nodeFileOfPush f

/-- The condition on a head tree and a change set under which the new tree is
what the paths say. -/
structure PathsSettle (db : DB H) (head : Option (TreeRow H)) (files : List (PushFile H))
    (removed : List Str) : Prop extends PathsFiled db head files removed where
  /-- No address is left as a file and as a directory. -/
  disjoint : ∀ addr, ValidSegs addr → FileLeft db head files removed addr →
    ¬ DirLeft db head files removed addr

theorem PathsFiled.updated_eq {head : Option (TreeRow H)}
    (h : PathsFiled db head files removed)
    (hpath : ∀ p, p ∈ files.map PushFile.path ∨ p ∈ removed → Spelled p)
    (hnodup : (files.map PushFile.path).Nodup) {f : PushFile H} (hf : f ∈ files) :
    updated files removed (addressOf f.path) (baseFind db head (addressOf f.path)) =
      some (nodeFileOfPush f) := by
  obtain ⟨ha, hspell⟩ := addressOf_spelled (hpath f.path (Or.inl (List.mem_map_of_mem hf)))
  by_cases hlen : (addressOf f.path).length = 1
  · have hfiled : FiledAt f.path (addressOf f.path) :=
      hspell.imp id fun h => ⟨hlen, h⟩
    refine updated_of_agree hpath ha _ hf hfiled fun g hg hgf => ?_
    exact agree_top hnodup h.agree ha hlen hf hg hfiled hgf
  · rw [updated_slashed_iff hpath hnodup ha hlen]
    rcases hspell with hplain | hslash
    · exact Or.inl ⟨f, hf, hplain, rfl⟩
    · exact h.slashed f hf _ ha hlen hslash

theorem updated_isSome_iff (hpath : ∀ p, p ∈ files.map PushFile.path ∨ p ∈ removed →
    Spelled p) (head : Option (TreeRow H)) (ha : ValidSegs addr) :
    (updated files removed addr (baseFind db head addr)).isSome ↔
      FileLeft db head files removed addr := by
  rw [updated_of_filedAt hpath ha, Option.isSome_or, Bool.or_eq_true, Option.isSome_map,
    List.find?_isSome, FileLeft]
  simp only [List.mem_reverse, decide_eq_true_eq]
  refine or_congr Iff.rfl ?_
  by_cases hr : ∃ r ∈ removed, FiledAt r addr
  · rw [if_pos hr]
    constructor
    · intro h
      simp at h
    · rintro ⟨-, hnot⟩
      obtain ⟨r, hrm, hrf⟩ := hr
      exact absurd hrf (hnot r hrm)
  · rw [if_neg hr]
    constructor
    · intro h
      exact ⟨h, fun r hrm hrf => hr ⟨r, hrm, hrf⟩⟩
    · exact And.left

variable [HashScheme H] {headCommit : Option (Commit H)} {root : PushTreeNode H}

theorem find_root_isSome_iff (hs : db.StoreShape)
    (hpath : ∀ p, p ∈ files.map PushFile.path ∨ p ∈ removed → Spelled p)
    (hbuild : buildNewTree db headCommit files removed = .ok root) (ha : ValidSegs addr) :
    ((builtTree db).find (.inl root) addr).isSome ↔
      FileLeft db (headRow db headCommit) files removed addr := by
  rw [find_builtFrom hs (fun _ hrow => headRow_mem hrow) (buildNewTree_builtFrom hbuild)
    (by simp) ha, List.nil_append]
  exact updated_isSome_iff hpath _ ha

theorem dirAt_root_isSome_iff (hs : db.StoreShape)
    (hbuild : buildNewTree db headCommit files removed = .ok root) (ha : ValidSegs addr) :
    ((builtTree db).dirAt (.inl root) addr).isSome ↔
      DirLeft db (headRow db headCommit) files removed addr := by
  rw [dirAt_builtFrom hs (fun _ hrow => headRow_mem hrow) (buildNewTree_builtFrom hbuild)
    (by simp) (mem_rebuildDirs.mpr (Or.inl rfl)) ha.2, List.nil_append,
    pathOf_mem_rebuildDirs ha, or_comm]
  rfl

theorem valid_of_dirAt (hs : db.StoreShape)
    (hpath : ∀ f ∈ files, Spelled f.path) {d d' : PushTreeNode H ⊕ H}
    (hd : Placed db files removed d) {ks : List Str}
    (h : (builtTree db).dirAt d ks = some d') : ∀ k ∈ ks, ValidName k := by
  induction ks generalizing d with
  | nil => simp
  | cons k ks ih =>
      rw [Hierarchy.dirAt_cons] at h
      obtain ⟨m, hm, h⟩ := Option.bind_eq_some_iff.mp h
      have hmem := mem_of_listed hm
      intro k' hk'
      rcases List.mem_cons.mp hk' with rfl | hk'
      · exact hd.valid_of_mem hs hpath
          (List.mem_append_right _ (List.mem_map_of_mem hmem))
      · exact ih (hd.sub hs hmem) h k' hk'

/-- No directory lists a name twice exactly when no address is left as a file
and as a directory. -/
theorem named_iff_disjoint (hs : db.StoreShape)
    (hpath : ∀ p, p ∈ files.map PushFile.path ∨ p ∈ removed → Spelled p)
    (hbuild : buildNewTree db headCommit files removed = .ok root) :
    (∀ d, (builtTree db).Reaches (.inl root) d →
      (entryNames db d).Nodup ∧ [] ∉ entryNames db d) ↔
    ∀ addr, ValidSegs addr → FileLeft db (headRow db headCommit) files removed addr →
      ¬ DirLeft db (headRow db headCommit) files removed addr := by
  have hroot := placed_root hbuild
  have hfpath : ∀ f ∈ files, Spelled f.path := fun f hf =>
    hpath f.path (Or.inl (List.mem_map_of_mem hf))
  constructor
  · intro hnamed addr ha hfile hdir
    rw [← find_root_isSome_iff hs hpath hbuild ha] at hfile
    rw [← dirAt_root_isSome_iff hs hbuild ha] at hdir
    obtain ⟨ds, n, rfl⟩ := (List.eq_nil_or_concat' addr).resolve_left ha.1
    rw [Hierarchy.find_concat] at hfile
    rw [Hierarchy.dirAt_concat] at hdir
    rcases hd : (builtTree db).dirAt (.inl root) ds with _ | d
    · rw [hd] at hdir
      simp at hdir
    · rw [hd, Option.bind_some, Hierarchy.fileOf, listed_isSome_iff] at hfile
      rw [hd, Option.bind_some, Hierarchy.subOf, listed_isSome_iff] at hdir
      have hnodup := (hnamed d (Hierarchy.reaches_of_dirAt hd)).1
      exact (List.nodup_append.mp hnodup).2.2 n hfile n hdir rfl
  · intro hdisj d hd
    have hplaced := hroot.reaches hs hd
    refine ⟨?_, fun hnil => (hplaced.valid_of_mem hs hfpath hnil).1 rfl⟩
    refine List.nodup_append.mpr ⟨(hplaced.names_nodup hs).1, (hplaced.names_nodup hs).2, ?_⟩
    rintro n hfile _ hdir rfl
    obtain ⟨ks, hks⟩ := Hierarchy.exists_dirAt_of_reaches hd
      fun m hm => ((hroot.reaches hs hm).names_nodup hs).2
    have ha : ValidSegs (ks ++ [n]) :=
      ⟨by simp, validNames_concat (valid_of_dirAt hs hfpath hroot hks)
        (hplaced.valid_of_mem hs hfpath (List.mem_append_left _ hfile))⟩
    refine hdisj _ ha ?_ ?_
    · rw [← find_root_isSome_iff hs hpath hbuild ha, Hierarchy.find_concat, hks,
        Option.bind_some, Hierarchy.fileOf, listed_isSome_iff]
      exact hfile
    · rw [← dirAt_root_isSome_iff hs hbuild ha, Hierarchy.dirAt_concat, hks,
        Option.bind_some, Hierarchy.subOf, listed_isSome_iff]
      exact hdir

/-- Every accepted path is placed as it says exactly when the paths settle. -/
theorem keepsAllPaths_iff (hs : db.StoreShape) {sent : List (PushFile H)}
    (hfiles : validatePushFiles sent = .ok files)
    (hremoved : validateRemovedFiles removed files = .ok ())
    (hbuild : buildNewTree db headCommit files removed = .ok root) :
    KeepsAllPaths db files root ↔
      PathsSettle db (headRow db headCommit) files removed := by
  obtain ⟨hout, hacc, hsent⟩ := validatePushFiles_ok hfiles
  have hnodup : (files.map PushFile.path).Nodup := by
    rw [hout, List.map_map]
    exact hsent
  have hpath : ∀ p, p ∈ files.map PushFile.path ∨ p ∈ removed →
      Spelled p := by
    rintro p (hp | hp)
    · rw [hout, List.map_map] at hp
      obtain ⟨f, hf, rfl⟩ := List.mem_map.mp hp
      exact spelled_of_validateRepoPath (hacc f hf).path_ok
    · exact spelled_of_validateRepoPath ((validateRemovedFiles_ok hremoved).1 p hp).1
  have hfind : ∀ f ∈ files, (builtTree db).find (.inl root) (addressOf f.path) =
      updated files removed (addressOf f.path)
        (baseFind db (headRow db headCommit) (addressOf f.path)) := by
    intro f hf
    have hvalid := (addressOf_spelled (hpath f.path (Or.inl (List.mem_map_of_mem hf)))).1
    rw [find_builtFrom hs (fun _ hrow => headRow_mem hrow) (buildNewTree_builtFrom hbuild)
      (by simp) hvalid, List.nil_append]
  constructor
  · rintro ⟨hpresent, hnamed⟩
    refine ⟨⟨?_, ?_⟩, (named_iff_disjoint hs hpath hbuild).mp hnamed⟩
    · intro f hf addr ha hlen hfp
      have hat := hpresent f hf
      rw [hfind f hf, hfp, addressOf_slash_pathOf ha] at hat
      exact (updated_slashed_iff hpath hnodup ha hlen _ _).mp hat
    · intro f hf g hg hslash hgp
      have ha : ValidSegs [f.path] := by
        have hv := (addressOf_spelled (hpath f.path (Or.inl (List.mem_map_of_mem hf))))
        refine ⟨by simp, fun n hn => ?_⟩
        rw [List.mem_singleton.mp hn]
        refine ⟨?_, hslash⟩
        intro hnil
        rcases hv.2 with heq | heq
        · exact hv.1.1 ((pathOf_eq_nil_iff hv.1.2).mp (heq.symm.trans hnil))
        · rw [hnil] at heq
          simp at heq
      have hatf := hpresent f hf
      have hatg := hpresent g hg
      have haddrf : addressOf f.path = [f.path] := by
        have := addressOf_pathOf ha
        rwa [pathOf_singleton] at this
      have haddrg : addressOf g.path = [f.path] := by
        have := addressOf_slash_pathOf ha
        rwa [pathOf_singleton, ← hgp] at this
      rw [haddrf] at hatf
      rw [haddrg, hatf] at hatg
      exact (Option.some.inj hatg).symm
  · rintro ⟨hpaths, hdisj⟩
    refine ⟨?_, (named_iff_disjoint hs hpath hbuild).mpr hdisj⟩
    intro f hf
    rw [hfind f hf]
    exact hpaths.updated_eq hpath hnodup hf

end Placement

/-! ## A path that is placed and one that is dropped -/

def nestedFiles : List (PushFile IdealHash) := [demoFile "a/b.txt" 1, demoFile "a/c/d.txt" 2]

theorem keepsAllPaths_demo :
    ∃ files root, validatePushFiles nestedFiles = .ok files ∧
      validateRemovedFiles [] files = .ok () ∧
      buildNewTree demoStore none files [] = .ok root ∧ KeepsAllPaths demoStore files root := by
  have hempty : demoStore.Unborn := ⟨rfl, rfl, rfl⟩
  obtain ⟨files, root, hfiles, hbuild, hpaths⟩ : ∃ files root,
      validatePushFiles nestedFiles = .ok files ∧ buildNewTree demoStore none files [] = .ok root ∧
      files.map PushFile.path = ["a/b.txt".toList, "a/c/d.txt".toList] := ⟨_, _, rfl, rfl, rfl⟩
  have hmem : ∀ f ∈ files, f.path ∈ ["a/b.txt".toList, "a/c/d.txt".toList] := fun f hf =>
    hpaths ▸ List.mem_map_of_mem hf
  have hplain : ∀ p ∈ ["a/b.txt".toList, "a/c/d.txt".toList], p.head? ≠ some '/' := by decide
  have hapart : ∀ p ∈ ["a/b.txt".toList, "a/c/d.txt".toList],
      ∀ q ∈ ["a/b.txt".toList, "a/c/d.txt".toList], ¬ p ++ ['/'] <+: q := by decide
  refine ⟨files, root, hfiles, rfl, hbuild, (keepsAllPaths_iff hempty.storeInv.toStoreShape hfiles
    rfl hbuild).mpr ⟨⟨?_, ?_⟩, ?_⟩⟩
  · intro f hf addr _ _ hfp
    exact absurd (congrArg List.head? hfp) (hplain _ (hmem f hf))
  · intro f hf g hg _ hgp
    exact absurd (congrArg List.head? hgp) (hplain _ (hmem g hg))
  · rintro addr _ (⟨f, hf, hfiled⟩ | ⟨hold, -⟩) (hdir | ⟨p, hp | hp, hpre⟩)
    · simp [baseDir, headRow] at hdir
    · rcases hfiled with heq | ⟨-, heq⟩
      · exact hapart _ (hmem f hf) p (hpaths ▸ hp) (heq ▸ hpre)
      · exact absurd (congrArg List.head? heq) (hplain _ (hmem f hf))
    · simp at hp
    all_goals simp [baseFind, headRow] at hold

/-- A path with a leading slash is accepted, and the new tree does not have it. -/
theorem slashed_path_dropped :
    ∃ files root, validatePushFiles [demoFile "/a/b.txt" 1] = .ok files ∧
      validateRemovedFiles [] files = .ok () ∧
      buildNewTree demoStore none files [] = .ok root ∧
      ¬ KeepsAllPaths demoStore files root := by
  refine ⟨_, _, rfl, rfl, rfl, ?_⟩
  intro hkeep
  have hpresent := hkeep.present _ (List.mem_singleton_self _)
  revert hpresent
  decide

end Nipa
