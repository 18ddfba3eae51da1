import Nipa.Push.StoreStep

/-!
# The meaning of a built tree

A built tree is read like a stored one: rebuilt directories list their own
files and children, kept directories continue in the store.  Read that way it
holds, at every address, the last pushed file that lands there, and otherwise
what the head tree holds unless a removal lands there.
-/

namespace Nipa

open Support

/-- A path lands at an address when the builder files it there: its directory
part is the joined address of the directory and its last part is the name. -/
def LandsAt (p : Str) (addr : List Str) : Prop :=
  ∃ ds n, addr = ds ++ [n] ∧ dirOf p = pathOf ds ∧ baseOf p = n

theorem landsAt_concat {p : Str} {ds : List Str} {n : Str} :
    LandsAt p (ds ++ [n]) ↔ dirOf p = pathOf ds ∧ baseOf p = n := by
  constructor
  · rintro ⟨ds', n', heq, hd, hb⟩
    obtain ⟨rfl, h⟩ := List.append_inj' heq rfl
    obtain rfl := List.singleton_inj.mp h
    exact ⟨hd, hb⟩
  · rintro ⟨hd, hb⟩
    exact ⟨ds, n, rfl, hd, hb⟩

theorem not_landsAt_nil (p : Str) : ¬ LandsAt p [] := by
  rintro ⟨ds, n, heq, -⟩
  exact absurd heq.symm (by simp)

instance (p : Str) (addr : List Str) : Decidable (LandsAt p addr) :=
  if h : addr = [] then
    .isFalse (h ▸ not_landsAt_nil p)
  else
    decidable_of_iff (dirOf p = pathOf addr.dropLast ∧ baseOf p = addr.getLast h) (by
      rw [← landsAt_concat, List.dropLast_append_getLast h])

theorem landsAt_pathOf {segs addr : List Str} (hs : ValidSegs segs) (ha : ValidSegs addr) :
    LandsAt (pathOf segs) addr ↔ segs = addr := by
  obtain ⟨ss, m, rfl⟩ := (List.eq_nil_or_concat' segs).resolve_left hs.1
  obtain ⟨ds, n, rfl⟩ := (List.eq_nil_or_concat' addr).resolve_left ha.1
  have hm := hs.2 m (by simp)
  rw [landsAt_concat, dirOf_pathOf_concat hm.2, baseOf_pathOf_concat hm.2]
  constructor
  · rintro ⟨hd, rfl⟩
    rw [pathOf_inj (fun x hx => hs.2 x (by simp [hx])) (fun x hx => ha.2 x (by simp [hx]))
      hd]
  · intro heq
    obtain ⟨rfl, h⟩ := List.append_inj' heq rfl
    exact ⟨rfl, List.singleton_inj.mp h⟩

namespace TreeBuilder

section Files

variable {H : Type}

theorem byName_foldl_lookup (removed : List Str) (baseFiles : List (File H))
    (m : GoMap (NodeFile H)) (n : Str) :
    (baseFiles.foldl (fun m f =>
      if f.name ∈ removed ∨ (m.lookup f.name).isSome then m
      else m.insert f.name (nodeFileOfBase f)) m).lookup n =
      (m.lookup n).or (if n ∈ removed then none
        else (baseFiles.find? fun f => f.name = n).map nodeFileOfBase) := by
  induction baseFiles generalizing m with
  | nil => simp
  | cons f fs ih =>
      rw [List.foldl_cons, ih]
      by_cases hskip : f.name ∈ removed ∨ (m.lookup f.name).isSome
      · rw [if_pos hskip]
        by_cases hn : f.name = n
        · subst hn
          rcases hskip with hrem | hsome
          · rw [if_pos hrem, if_pos hrem]
          · obtain ⟨v, hv⟩ := Option.isSome_iff_exists.mp hsome
            rw [hv, Option.some_or, Option.some_or]
        · rw [List.find?_cons_of_neg (by simpa using hn)]
      · rw [if_neg hskip, GoMap.lookup_insert_eq]
        rw [not_or] at hskip
        by_cases hn : f.name = n
        · subst hn
          have hnone : m.lookup f.name = none := by simpa using hskip.2
          rw [if_pos rfl, hnone, Option.some_or, Option.none_or, if_neg hskip.1,
            List.find?_cons_of_pos (by simp)]
          rfl
        · rw [if_neg (Ne.symm hn), List.find?_cons_of_neg (by simpa using hn)]

theorem byName_lookup (b : TreeBuilder H) (d : Str) (baseFiles : List (File H)) (n : Str) :
    (b.byName d baseFiles).lookup n =
      (((b.changed d).reverse.find? fun f => baseOf f.path = n).map nodeFileOfPush).or
        (if n ∈ b.removed d then none
          else (baseFiles.find? fun f => f.name = n).map nodeFileOfBase) := by
  rw [byName, byName_foldl_lookup, GoMap.lookup_insertAll, AList.lookup_empty, Option.or_none]

theorem byName_name {b : TreeBuilder H} {d : Str} {baseFiles : List (File H)} {n : Str}
    {f : NodeFile H} (h : (b.byName d baseFiles).lookup n = some f) : f.name = n := by
  rw [byName_lookup] at h
  rcases Option.or_eq_some_iff.mp h with hpush | ⟨-, hbase⟩
  · obtain ⟨g, hg, rfl⟩ := Option.map_eq_some_iff.mp hpush
    have hn := List.find?_some hg
    rw [decide_eq_true_eq] at hn
    exact hn
  · split at hbase
    · simp at hbase
    · obtain ⟨g, hg, rfl⟩ := Option.map_eq_some_iff.mp hbase
      have hn := List.find?_some hg
      rw [decide_eq_true_eq] at hn
      exact hn

theorem nodeFiles_perm (b : TreeBuilder H) (d : Str) (baseFiles : List (File H)) :
    (b.nodeFiles d baseFiles).Perm (b.byName d baseFiles).values :=
  List.perm_insertionSort _ _

theorem nodeFiles_names_nodup (b : TreeBuilder H) (d : Str) (baseFiles : List (File H)) :
    ((b.nodeFiles d baseFiles).map NodeFile.name).Nodup :=
  (((b.nodeFiles_perm d baseFiles).map NodeFile.name).nodup_iff).mpr
    (GoMap.names_nodup fun _ _ h => byName_name h)

theorem listed_nodeFiles (b : TreeBuilder H) (d : Str) (baseFiles : List (File H))
    (n : Str) :
    listed ((b.nodeFiles d baseFiles).map fun f => (f.name, f)) n =
      (b.byName d baseFiles).lookup n :=
  GoMap.listed_of_perm (fun _ _ h => byName_name h) (b.nodeFiles_perm d baseFiles) n

theorem mem_nodeFiles {b : TreeBuilder H} {d : Str} {baseFiles : List (File H)}
    {f : NodeFile H} (h : f ∈ b.nodeFiles d baseFiles) :
    (∃ g ∈ b.changed d, f = nodeFileOfPush g) ∨ ∃ g ∈ baseFiles, f = nodeFileOfBase g := by
  obtain ⟨k, hk⟩ := GoMap.mem_values.mp ((b.nodeFiles_perm d baseFiles).mem_iff.mp h)
  rw [byName_lookup] at hk
  rcases Option.or_eq_some_iff.mp hk with hpush | ⟨-, hbase⟩
  · obtain ⟨g, hg, rfl⟩ := Option.map_eq_some_iff.mp hpush
    exact Or.inl ⟨g, List.mem_reverse.mp (List.mem_of_find?_eq_some hg), rfl⟩
  · split at hbase
    · simp at hbase
    · obtain ⟨g, hg, rfl⟩ := Option.map_eq_some_iff.mp hbase
      exact Or.inr ⟨g, List.mem_of_find?_eq_some hg, rfl⟩

theorem childByName_lookup {cs : List (TreeRow H)} (hnodup : (cs.map TreeRow.name).Nodup)
    {n : Str} {c : TreeRow H} :
    (childByName cs).lookup n = some c ↔ c ∈ cs ∧ c.name = n := by
  have hrev : (cs.reverse.map TreeRow.name).Nodup := by
    rw [List.map_reverse]
    exact List.nodup_reverse.mpr hnodup
  rw [childByName, GoMap.lookup_insertAll, AList.lookup_empty, Option.or_none, Option.map_id',
    find?_key_eq_some_iff hrev, List.mem_reverse]

end Files

section Rebuilt

variable {H : Type} {files : List (PushFile H)} {removed : List Str}

theorem mem_rebuildDirs {d : Str} :
    d ∈ (ofRequest files removed).rebuildDirs ↔ d = [] ∨
      ∃ p, (p ∈ files.map PushFile.path ∨ p ∈ removed) ∧ d ∈ addAncestors (dirOf p) := by
  simp only [ofRequest, List.mem_cons, List.mem_append, List.mem_flatMap, List.mem_map]
  constructor
  · rintro (rfl | ⟨f, hf, hd⟩ | ⟨r, hr, hd⟩)
    · exact Or.inl rfl
    · exact Or.inr ⟨f.path, Or.inl ⟨f, hf, rfl⟩, hd⟩
    · exact Or.inr ⟨r, Or.inr hr, hd⟩
  · rintro (rfl | ⟨p, ⟨f, hf, rfl⟩ | hr, hd⟩)
    · exact Or.inl rfl
    · exact Or.inr (Or.inl ⟨f, hf, hd⟩)
    · exact Or.inr (Or.inr ⟨p, hr, hd⟩)

theorem mem_rebuildDirs_of_landsAt {p : Str} (hp : p ∈ files.map PushFile.path ∨ p ∈ removed)
    {ds rest : List Str} (hds : ds ≠ []) (hrest : rest ≠ []) (h : LandsAt p (ds ++ rest)) :
    pathOf ds ∈ (ofRequest files removed).rebuildDirs := by
  obtain ⟨ss, n, rfl⟩ := (List.eq_nil_or_concat' rest).resolve_left hrest
  rw [← List.append_assoc, landsAt_concat] at h
  refine mem_rebuildDirs.mpr (Or.inr ⟨p, hp, mem_addAncestors.mpr ?_⟩)
  by_cases hss : ss = []
  · subst hss
    exact Or.inl (by rw [h.1, List.append_nil])
  · refine Or.inr ⟨pathOf ss, ?_⟩
    rw [h.1]
    exact joinWith_append hds hss

theorem mem_rebuildDirs_of_append {ds rest : List Str} (hds : ds ≠ [])
    (h : pathOf (ds ++ rest) ∈ (ofRequest files removed).rebuildDirs)
    (hvalid : ∀ m ∈ ds ++ rest, ValidName m) :
    pathOf ds ∈ (ofRequest files removed).rebuildDirs := by
  by_cases hrest : rest = []
  · subst hrest
    rwa [List.append_nil] at h
  · rcases mem_rebuildDirs.mp h with hnil | ⟨p, hp, hanc⟩
    · rw [pathOf_eq_nil_iff hvalid] at hnil
      exact absurd (List.append_eq_nil_iff.mp hnil).1 hds
    · refine mem_rebuildDirs.mpr (Or.inr ⟨p, hp, mem_addAncestors.mpr (Or.inr ?_)⟩)
      have hjoin : pathOf (ds ++ rest) = pathOf ds ++ '/' :: pathOf rest :=
        joinWith_append hds hrest
      rcases mem_addAncestors.mp hanc with heq | ⟨r, heq⟩
      · exact ⟨pathOf rest, by rw [← heq, hjoin]⟩
      · exact ⟨pathOf rest ++ '/' :: r, by rw [heq, hjoin]; simp⟩

end Rebuilt

end TreeBuilder

/-! ## The effect of a request -/

section Effect

variable {H : Type} {files : List (PushFile H)} {removed : List Str}

open TreeBuilder

/-- The effect of a request at an address that used to hold `old`. -/
def updated (files : List (PushFile H)) (removed : List Str) (addr : List Str)
    (old : Option (NodeFile H)) : Option (NodeFile H) :=
  ((files.reverse.find? fun f => LandsAt f.path addr).map nodeFileOfPush).or
    (if ∃ r ∈ removed, LandsAt r addr then none else old)

theorem updated_of_not_lands {addr : List Str} (old : Option (NodeFile H))
    (h : ∀ p, p ∈ files.map PushFile.path ∨ p ∈ removed → ¬ LandsAt p addr) :
    updated files removed addr old = old := by
  have hfind : files.reverse.find? (fun f => LandsAt f.path addr) = none := by
    rw [List.find?_eq_none]
    intro f hf
    have hnot := h f.path (Or.inl (List.mem_map_of_mem (List.mem_reverse.mp hf)))
    simpa using hnot
  have hrem : ¬ ∃ r ∈ removed, LandsAt r addr := by
    rintro ⟨r, hr, hl⟩
    exact h r (Or.inr hr) hl
  rw [updated, hfind, if_neg hrem, Option.map_none, Option.none_or]

end Effect

/-! ## Reading a built tree -/

section Reading

variable {H : Type} [DecidableEq H]

open TreeBuilder

/-- Rebuilt directories continue in the store at their kept directories. -/
def builtTree (db : DB H) : Hierarchy Str (PushTreeNode H ⊕ H) (NodeFile H) where
  files
    | .inl t => t.files.map fun f => (f.name, f)
    | .inr h => (db.filesByHash h).map fun f => (f.name, nodeFileOfBase f)
  subs
    | .inl t => t.keepDirs.map (fun k => (k.name, .inr k.hash)) ++
        t.children.map fun c => (c.name, .inl c)
    | .inr h => (db.childrenByHash h).map fun c => (c.name, .inr c.hash)

/-- What the head tree holds below a directory; a new directory has nothing. -/
def baseFind (db : DB H) (base : Option (TreeRow H)) (segs : List Str) :
    Option (NodeFile H) :=
  base.bind fun row => (db.storeTree.find row.hash segs).map nodeFileOfBase

/-- The directory of the head tree at an address. -/
def baseDir (db : DB H) (base : Option (TreeRow H)) (segs : List Str) : Option H :=
  base.bind fun row => db.storeTree.dirAt row.hash segs

theorem subOf_inr (db : DB H) (h : H) (k : Str) :
    (builtTree db).subOf (.inr h) k = (db.storeTree.subOf h k).map .inr := by
  rw [Hierarchy.subOf, Hierarchy.subOf, ← listed_map_snd]
  simp only [builtTree, DB.storeTree, List.map_map]
  rfl

theorem subOf_inr_rel (db : DB H) (h : H) (k : Str) :
    Option.Rel (fun n h => n = .inr h) ((builtTree db).subOf (.inr h) k)
      (db.storeTree.subOf h k) := by
  rw [subOf_inr]
  rcases db.storeTree.subOf h k with _ | h'
  · exact Option.Rel.none
  · exact Option.Rel.some rfl

theorem find_inr (db : DB H) (h : H) (segs : List Str) :
    (builtTree db).find (.inr h) segs = (db.storeTree.find h segs).map nodeFileOfBase := by
  have hsim := Hierarchy.find_eq_of_sim (builtTree db) db.storeTree (fun f => f)
    nodeFileOfBase (fun n h => n = .inr h) ?_ ?_
    (rfl : (Sum.inr h : PushTreeNode H ⊕ H) = .inr h) segs
  · simpa using hsim
  · rintro _ h rfl k
    rw [Option.map_id', Hierarchy.fileOf, Hierarchy.fileOf, ← listed_map_snd]
    simp only [builtTree, DB.storeTree, List.map_map]
    rfl
  · rintro _ h rfl k
    exact subOf_inr_rel db h k

theorem dirAt_inr_isSome (db : DB H) (h : H) (segs : List Str) :
    ((builtTree db).dirAt (.inr h) segs).isSome ↔ (db.storeTree.dirAt h segs).isSome := by
  have hrel := Hierarchy.dirAt_rel_of_sim (builtTree db) db.storeTree
    (fun n h => n = .inr h) (by rintro _ h rfl k; exact subOf_inr_rel db h k)
    (rfl : (Sum.inr h : PushTreeNode H ⊕ H) = .inr h) segs
  generalize (builtTree db).dirAt (.inr h) segs = x at hrel
  generalize db.storeTree.dirAt h segs = y at hrel
  rcases hrel with _ | _
  · simp
  · simp

variable [HashScheme H] {db : DB H}

theorem baseFilesOf_some (hs : db.StoreShape) {row : TreeRow H} (hr : row ∈ db.treeNodes) :
    baseFilesOf db (some row) = db.filesByHash row.hash := by
  rw [baseFilesOf, DB.listFilesByTree, hs.treeNodeGet_eq hr]

theorem baseChildrenOf_some (hs : db.StoreShape) {row : TreeRow H}
    (hr : row ∈ db.treeNodes) :
    baseChildrenOf db (some row) = db.childrenByHash row.hash := by
  rw [baseChildrenOf, DB.listTreeChildren, hs.treeNodeGet_eq hr]

variable {base : Option (TreeRow H)}

theorem baseChildrenOf_ok (hs : db.StoreShape) (hbase : ∀ row ∈ base, row ∈ db.treeNodes) :
    (∀ c ∈ baseChildrenOf db base, c ∈ db.treeNodes) ∧
      ((baseChildrenOf db base).map TreeRow.name).Nodup := by
  rcases base with _ | row
  · simp [baseChildrenOf]
  · have hr := hbase row rfl
    rw [baseChildrenOf_some hs hr]
    constructor
    · intro c hc
      obtain ⟨_, _, _, hown⟩ := DB.mem_childrenByHash hc
      exact (DB.mem_ownChildren.mp hown).1
    · have hnodup := (hs.storeTree_distinct row.hash).2
      rw [DB.storeTree, List.map_map] at hnodup
      exact hnodup

theorem subOf_headRow (hs : db.StoreShape) {row : TreeRow H} (hr : row ∈ db.treeNodes)
    (n : Str) :
    db.storeTree.subOf row.hash n =
      ((childByName (baseChildrenOf db (some row))).lookup n).map TreeRow.hash := by
  have hbase : ∀ r ∈ some row, r ∈ db.treeNodes := by
    rintro _ ⟨⟩
    exact hr
  obtain ⟨-, hnodup⟩ := baseChildrenOf_ok hs hbase
  rw [baseChildrenOf_some hs hr] at hnodup ⊢
  ext h
  rw [Hierarchy.subOf_eq_some_iff hs.storeTree_distinct, Option.map_eq_some_iff]
  constructor
  · intro hmem
    obtain ⟨c, hc, heq⟩ := List.mem_map.mp hmem
    obtain ⟨rfl, rfl⟩ := Prod.mk.inj heq
    exact ⟨c, (childByName_lookup hnodup).mpr ⟨hc, rfl⟩, rfl⟩
  · rintro ⟨c, hc, rfl⟩
    obtain ⟨hmem, rfl⟩ := (childByName_lookup hnodup).mp hc
    exact List.mem_map.mpr ⟨c, hmem, rfl⟩

variable {segs : List Str}

theorem baseFind_cons (hs : db.StoreShape) (hbase : ∀ row ∈ base, row ∈ db.treeNodes) (n : Str)
    (hsegs : segs ≠ []) :
    baseFind db base (n :: segs) =
      baseFind db ((childByName (baseChildrenOf db base)).lookup n) segs := by
  rcases base with _ | row
  · rfl
  · rw [baseFind, Option.bind_some, Hierarchy.find_cons _ _ _ hsegs,
      subOf_headRow hs (hbase row rfl)]
    rcases (childByName (baseChildrenOf db (some row))).lookup n with _ | c
    · rfl
    · rfl

theorem baseFind_singleton (hs : db.StoreShape) (hbase : ∀ row ∈ base, row ∈ db.treeNodes)
    (n : Str) :
    baseFind db base [n] =
      ((baseFilesOf db base).find? fun f => f.name = n).map nodeFileOfBase := by
  rcases base with _ | row
  · rfl
  · rw [baseFind, Option.bind_some, baseFilesOf_some hs (hbase row rfl),
      Hierarchy.find_singleton, Hierarchy.fileOf]
    simp only [DB.storeTree]
    rw [listed_map_key]

/-! ## The builder's effect at an address -/

variable {files : List (PushFile H)} {removed : List Str}

variable {depth : ℕ}

theorem BuiltFrom.subs_nodup (hs : db.StoreShape) {b : TreeBuilder H} {d : Str}
    (hbase : ∀ row ∈ base, row ∈ db.treeNodes) {node : PushTreeNode H}
    (hb : b.BuiltFrom db depth d base node) :
    (((builtTree db).subs (.inl node)).map Prod.fst).Nodup := by
  rcases depth with _ | depth
  · exact hb.elim
  · obtain ⟨-, -, hkept, hperm, -⟩ := hb
    have hnames : node.keepDirs.map KeptDir.name =
        ((baseChildrenOf db base).filter fun c => joinPath d c.name ∉ b.rebuildDirs).map
          TreeRow.name := by
      have := congrArg (List.map Prod.fst) hkept
      rw [List.map_map, keptOf, List.map_map] at this
      exact this
    have hmap : ((builtTree db).subs (.inl node)).map Prod.fst =
        node.keepDirs.map KeptDir.name ++ node.children.map PushTreeNode.name := by
      simp only [builtTree, List.map_append, List.map_map]
      rfl
    rw [hmap, List.nodup_append]
    refine ⟨?_, hperm.nodup_iff.mpr (immediateSubdirs_nodup _ _), ?_⟩
    · rw [hnames]
      exact (baseChildrenOf_ok hs hbase).2.sublist (List.filter_sublist.map _)
    · intro n hn m hm hnm
      subst hnm
      rw [hnames] at hn
      obtain ⟨c, hc, rfl⟩ := List.mem_map.mp hn
      have hnot : joinPath d c.name ∉ b.rebuildDirs := by
        simpa using (List.mem_filter.mp hc).2
      exact hnot (mem_immediateSubdirs.mp (hperm.mem_iff.mp hm)).2

variable {ds : List Str}

theorem fileOf_builtFrom (hs : db.StoreShape) (hbase : ∀ row ∈ base, row ∈ db.treeNodes)
    {node : PushTreeNode H}
    (hb : (ofRequest files removed).BuiltFrom db depth (pathOf ds) base node) (n : Str) :
    (builtTree db).fileOf (.inl node) n =
      updated files removed (ds ++ [n]) (baseFind db base [n]) := by
  rcases depth with _ | depth
  · exact hb.elim
  · obtain ⟨-, hfiles, -⟩ := hb
    rw [Hierarchy.fileOf]
    simp only [builtTree]
    rw [hfiles, listed_nodeFiles, byName_lookup, updated, baseFind_singleton hs hbase]
    have hpushed : ((ofRequest files removed).changed (pathOf ds)).reverse.find?
        (fun f => baseOf f.path = n) =
        files.reverse.find? fun f => LandsAt f.path (ds ++ [n]) := by
      rw [ofRequest, ← List.filter_reverse, List.find?_filter]
      congr 1
      funext f
      simp [landsAt_concat]
    have hremoved : n ∈ (ofRequest files removed).removed (pathOf ds) ↔
        ∃ r ∈ removed, LandsAt r (ds ++ [n]) := by
      simp only [ofRequest, List.mem_map, List.mem_filter, decide_eq_true_eq,
        landsAt_concat, and_assoc]
    rw [hpushed]
    simp only [hremoved]

theorem subOf_kept (hs : db.StoreShape) (hbase : ∀ row ∈ base, row ∈ db.treeNodes)
    {node : PushTreeNode H}
    (hb : (ofRequest files removed).BuiltFrom db depth (pathOf ds) base node)
    (hds : ∀ m ∈ ds, ValidName m) {n : Str}
    (hnot : pathOf (ds ++ [n]) ∉ (ofRequest files removed).rebuildDirs) :
    (builtTree db).subOf (.inl node) n =
      ((childByName (baseChildrenOf db base)).lookup n).map fun c => .inr c.hash := by
  have hnodup := BuiltFrom.subs_nodup hs hbase hb
  obtain ⟨-, hbnodup⟩ := baseChildrenOf_ok hs hbase
  rcases depth with _ | depth
  · exact hb.elim
  · obtain ⟨-, -, hkept, hperm, -⟩ := hb
    ext x
    rw [Hierarchy.subOf, listed_eq_some_iff hnodup, Option.map_eq_some_iff]
    simp only [builtTree, List.mem_append]
    constructor
    · rintro (hmem | hmem)
      · obtain ⟨k, hk, heq⟩ := List.mem_map.mp hmem
        obtain ⟨rfl, rfl⟩ := Prod.mk.inj heq
        have hpair : (k.name, k.hash) ∈ (ofRequest files removed).keptOf (pathOf ds)
            (baseChildrenOf db base) := by
          rw [← hkept]
          exact List.mem_map.mpr ⟨k, hk, rfl⟩
        obtain ⟨c, hc, heq⟩ := List.mem_map.mp hpair
        obtain ⟨hname, hhash⟩ := Prod.mk.inj heq
        exact ⟨c, (childByName_lookup hbnodup).mpr ⟨(List.mem_filter.mp hc).1, hname⟩,
          congrArg _ hhash⟩
      · obtain ⟨c, hc, heq⟩ := List.mem_map.mp hmem
        obtain ⟨rfl, -⟩ := Prod.mk.inj heq
        have hin := (mem_immediateSubdirs.mp
          (hperm.mem_iff.mp (List.mem_map_of_mem hc))).2
        rw [joinPath_pathOf hds] at hin
        exact absurd hin hnot
    · rintro ⟨c, hc, rfl⟩
      obtain ⟨hmem, rfl⟩ := (childByName_lookup hbnodup).mp hc
      have hpair : (c.name, c.hash) ∈ node.keepDirs.map fun k => (k.name, k.hash) := by
        rw [hkept]
        refine List.mem_map.mpr ⟨c, List.mem_filter.mpr ⟨hmem, ?_⟩, rfl⟩
        rw [joinPath_pathOf hds]
        simpa using hnot
      obtain ⟨k, hk, heq⟩ := List.mem_map.mp hpair
      obtain ⟨hname, hhash⟩ := Prod.mk.inj heq
      exact Or.inl (List.mem_map.mpr ⟨k, hk, by rw [hname, hhash]⟩)

theorem find_kept (hs : db.StoreShape) (hbase : ∀ row ∈ base, row ∈ db.treeNodes)
    {node : PushTreeNode H}
    (hb : (ofRequest files removed).BuiltFrom db depth (pathOf ds) base node)
    (hds : ∀ m ∈ ds, ValidName m) {n : Str}
    (hnot : pathOf (ds ++ [n]) ∉ (ofRequest files removed).rebuildDirs) (hsegs : segs ≠ []) :
    (builtTree db).find (.inl node) (n :: segs) = baseFind db base (n :: segs) := by
  rw [Hierarchy.find_cons _ _ _ hsegs, subOf_kept hs hbase hb hds hnot,
    baseFind_cons hs hbase n hsegs]
  rcases (childByName (baseChildrenOf db base)).lookup n with _ | c
  · rfl
  · rw [Option.map_some, Option.bind_some, find_inr]
    rfl

theorem subOf_rebuilt (hs : db.StoreShape) (hbase : ∀ row ∈ base, row ∈ db.treeNodes)
    {node : PushTreeNode H}
    (hb : (ofRequest files removed).BuiltFrom db (depth + 1) (pathOf ds) base node)
    (hds : ∀ m ∈ ds, ValidName m) {n : Str} (hn : ValidName n)
    (hin : pathOf (ds ++ [n]) ∈ (ofRequest files removed).rebuildDirs) :
    ∃ c, (builtTree db).subOf (.inl node) n = some (.inl c) ∧
      (ofRequest files removed).BuiltFrom db depth (pathOf (ds ++ [n]))
        ((childByName (baseChildrenOf db base)).lookup n) c := by
  have hnodup := BuiltFrom.subs_nodup hs hbase hb
  obtain ⟨-, -, -, hperm, hchildren⟩ := hb
  have hmem : n ∈ node.children.map PushTreeNode.name := by
    rw [hperm.mem_iff, mem_immediateSubdirs, joinPath_pathOf hds]
    exact ⟨hn, hin⟩
  obtain ⟨c, hc, rfl⟩ := List.mem_map.mp hmem
  refine ⟨c, ?_, ?_⟩
  · rw [Hierarchy.subOf, listed_eq_some_iff hnodup]
    exact List.mem_append_right _ (List.mem_map.mpr ⟨c, hc, rfl⟩)
  · have hbuilt := hchildren c hc
    rwa [joinPath_pathOf hds] at hbuilt

theorem childByName_mem (hs : db.StoreShape) (hbase : ∀ row ∈ base, row ∈ db.treeNodes) {n : Str} :
    ∀ row ∈ (childByName (baseChildrenOf db base)).lookup n, row ∈ db.treeNodes := by
  intro row hrow
  obtain ⟨hall, hnodup⟩ := baseChildrenOf_ok hs hbase
  exact hall row ((childByName_lookup hnodup).mp hrow).1

theorem find_builtFrom (hs : db.StoreShape) (hbase : ∀ row ∈ base, row ∈ db.treeNodes)
    {node : PushTreeNode H}
    (hb : (ofRequest files removed).BuiltFrom db depth (pathOf ds) base node)
    (hds : ∀ m ∈ ds, ValidName m) (hsegs : ValidSegs segs) :
    (builtTree db).find (.inl node) segs =
      updated files removed (ds ++ segs) (baseFind db base segs) := by
  induction segs generalizing depth ds base node with
  | nil => exact absurd rfl hsegs.1
  | cons n rest ih =>
      have hn := hsegs.2 n (by simp)
      by_cases hrest : rest = []
      · subst hrest
        rw [Hierarchy.find_singleton]
        exact fileOf_builtFrom hs hbase hb n
      · have hvalid : ValidSegs rest := ⟨hrest, fun m hm => hsegs.2 m (by simp [hm])⟩
        by_cases hin : pathOf (ds ++ [n]) ∈ (ofRequest files removed).rebuildDirs
        · rcases depth with _ | depth
          · exact hb.elim
          · obtain ⟨c, hsub, hbc⟩ := subOf_rebuilt hs hbase hb hds hn hin
            rw [Hierarchy.find_cons _ _ _ hrest, hsub, Option.bind_some,
              ih (childByName_mem hs hbase) hbc (validNames_concat hds hn) hvalid,
              baseFind_cons hs hbase n hrest, List.append_assoc, List.singleton_append]
        · rw [find_kept hs hbase hb hds hin hrest]
          refine (updated_of_not_lands _ ?_).symm
          intro p hp hl
          have hsplit : ds ++ n :: rest = (ds ++ [n]) ++ rest := by simp
          rw [hsplit] at hl
          exact hin (mem_rebuildDirs_of_landsAt hp (by simp) hrest hl)

/-! ## The directories of a built tree -/

theorem baseDir_cons (hs : db.StoreShape) (hbase : ∀ row ∈ base, row ∈ db.treeNodes) (n : Str)
    (segs : List Str) :
    baseDir db base (n :: segs) =
      baseDir db ((childByName (baseChildrenOf db base)).lookup n) segs := by
  rcases base with _ | row
  · rfl
  · rw [baseDir, Option.bind_some, Hierarchy.dirAt_cons, subOf_headRow hs (hbase row rfl)]
    rcases (childByName (baseChildrenOf db (some row))).lookup n with _ | c
    · rfl
    · rfl

theorem dirAt_builtFrom (hs : db.StoreShape) (hbase : ∀ row ∈ base, row ∈ db.treeNodes)
    {node : PushTreeNode H}
    (hb : (ofRequest files removed).BuiltFrom db depth (pathOf ds) base node)
    (hds : ∀ m ∈ ds, ValidName m) (hin : pathOf ds ∈ (ofRequest files removed).rebuildDirs)
    (hsegs : ∀ m ∈ segs, ValidName m) :
    ((builtTree db).dirAt (.inl node) segs).isSome ↔
      pathOf (ds ++ segs) ∈ (ofRequest files removed).rebuildDirs ∨
        (baseDir db base segs).isSome := by
  induction segs generalizing depth ds base node with
  | nil => simpa using Or.inl hin
  | cons n rest ih =>
      have hn := hsegs n (by simp)
      have hrest : ∀ m ∈ rest, ValidName m := fun m hm => hsegs m (by simp [hm])
      have hds' := validNames_concat hds hn
      have hsplit : ds ++ n :: rest = (ds ++ [n]) ++ rest := by simp
      rw [baseDir_cons hs hbase, Hierarchy.dirAt_cons, hsplit]
      by_cases hnext : pathOf (ds ++ [n]) ∈ (ofRequest files removed).rebuildDirs
      · rcases depth with _ | depth
        · exact hb.elim
        · obtain ⟨c, hsub, hbc⟩ := subOf_rebuilt hs hbase hb hds hn hnext
          rw [hsub, Option.bind_some]
          exact ih (childByName_mem hs hbase) hbc hds' hnext hrest
      · rw [subOf_kept hs hbase hb hds hnext]
        have hnot : pathOf ((ds ++ [n]) ++ rest) ∉
            (ofRequest files removed).rebuildDirs := by
          intro hmem
          refine hnext (mem_rebuildDirs_of_append (by simp) hmem ?_)
          intro m hm
          rcases List.mem_append.mp hm with hm | hm
          · exact hds' m hm
          · exact hrest m hm
        rw [or_iff_right hnot]
        rcases (childByName (baseChildrenOf db base)).lookup n with _ | c
        · simp [baseDir]
        · exact dirAt_inr_isSome db c.hash rest

end Reading

end Nipa
