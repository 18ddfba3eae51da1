import Nipa.Push.Placement
import Nipa.Store.Rehash

/-!
# The root hash of a built tree

The hash the builder computes for the root of a new tree is that of a stored tree
exactly when the stored tree has the files and the directories that the request
leaves.
-/

namespace Nipa

open Support TreeBuilder

section Built

variable {H : Type} [HashScheme H]

/-- The hash of a directory of a built tree. -/
def builtHash : PushTreeNode H ⊕ H → H
  | .inl t => finalize t
  | .inr h => h

variable [DecidableEq H] {db : DB H} {files : List (PushFile H)} {removed : List Str}

/-- A directory of a built tree: rebuilt for the request, or stored. -/
def FromRequest (db : DB H) (files : List (PushFile H)) (removed : List Str) :
    PushTreeNode H ⊕ H → Prop
  | .inl t => Rebuilt db (ofRequest files removed) t
  | .inr h => ∃ r ∈ db.treeNodes, r.hash = h

theorem FromRequest.sub (hs : db.StoreShape) (hreq : RequestOK files removed)
    {n m : PushTreeNode H ⊕ H} {k : Str} (h : FromRequest db files removed n)
    (hm : (builtTree db).subOf n k = some m) : FromRequest db files removed m := by
  have hmem := mem_of_listed hm
  rcases n with t | x
  · rcases List.mem_append.mp hmem with hkept | hchild
    · obtain ⟨kept, hk, heq⟩ := List.mem_map.mp hkept
      obtain ⟨-, rfl⟩ := Prod.mk.inj heq
      exact ((h.nodeOK hs hreq).kept_ok kept hk).2
    · obtain ⟨c, hc, heq⟩ := List.mem_map.mp hchild
      obtain ⟨-, rfl⟩ := Prod.mk.inj heq
      exact h.child hs hreq hc
  · obtain ⟨c, hc, heq⟩ := List.mem_map.mp hmem
    obtain ⟨-, rfl⟩ := Prod.mk.inj heq
    exact ⟨c, (hs.childrenByHash_mem hc).1, rfl⟩

theorem FromRequest.hashOf (hs : db.StoreShape) (hh : db.HashesContent)
    (hcf : CollisionFree H) (hreq : RequestOK files removed) {n : PushTreeNode H ⊕ H}
    (h : FromRequest db files removed n) :
    HashOf (builtHash n) (((builtTree db).files n).map fun e => (e.1, e.2.hash))
      (((builtTree db).subs n).map fun e => (e.1, builtHash e.2)) := by
  rcases n with t | x
  · have hok := h.nodeOK hs hreq
    refine ⟨⟨_, _, finalize_eq t, ?_, ?_⟩, ?_, ?_, ?_, ?_⟩
    · simp only [builtTree, List.map_map]
      rfl
    · simp only [builtTree, List.map_append, List.map_map]
      rfl
    · have hnodup := h.files_nodup
      rwa [List.map_map]
    · have hnodup := h.subs_nodup hs
      rwa [List.map_map]
    · simp only [builtTree, List.map_map, List.mem_map]
      rintro _ ⟨f, hf, rfl⟩
      exact (hok.files_ok f hf).1.2
    · simp only [builtTree, List.map_append, List.map_map, List.mem_append, List.mem_map]
      rintro _ (⟨k, hk, rfl⟩ | ⟨c, hc, rfl⟩)
      · exact (hok.kept_ok k hk).1.2
      · exact ((h.child hs hreq hc).nodeOK hs hreq).name_ok.2
  · obtain ⟨r, hr, rfl⟩ := h
    have hof := hh.hashOf hs hcf hr
    simp only [builtTree, DB.storeTree, List.map_map] at hof ⊢
    exact hof

theorem builtTree_find_of_not_valid (hs : db.StoreShape) (hpath : ∀ f ∈ files, Spelled f.path)
    {d : PushTreeNode H ⊕ H} (hd : Placed db files removed d) {ks : List Str}
    (hks : ¬ ValidSegs ks) : (builtTree db).find d ks = none := by
  rcases List.eq_nil_or_concat' ks with rfl | ⟨ds, n, rfl⟩
  · rfl
  · rw [Hierarchy.find_concat, Option.bind_eq_none_iff]
    intro m hm
    rcases hf : (builtTree db).fileOf m n with _ | f
    · rfl
    · have hn : ValidName n :=
        (hd.reaches hs (Hierarchy.reaches_of_dirAt hm)).valid_of_mem hs hpath
          (List.mem_append_left _ (List.mem_map_of_mem (mem_of_listed hf)))
      refine absurd ⟨by simp, ?_⟩ hks
      intro k hk
      rcases List.mem_append.mp hk with hk | hk
      · exact valid_of_dirAt hs hpath hd hm k hk
      · rwa [List.mem_singleton.mp hk]

variable {headCommit : Option (Commit H)} {root : PushTreeNode H}

/-- The stored tree is the one that the request leaves. -/
def TreeLeft (db : DB H) (head : Option (TreeRow H)) (files : List (PushFile H))
    (removed : List Str) (h : H) : Prop :=
  ∀ addr, ValidSegs addr →
    (db.storeTree.find h addr).map File.hash =
      (updated files removed addr (baseFind db head addr)).map NodeFile.hash ∧
    ((db.storeTree.dirAt h addr).isSome ↔ DirLeft db head files removed addr)

/-- A built root has the hash of a stored row exactly when the row's tree is the one
that the request leaves. -/
theorem finalize_eq_iff (hinv : db.StoreInv) (hh : db.HashesContent) (hcf : CollisionFree H)
    (hreq : RequestOK files removed)
    (hbuild : buildNewTree db headCommit files removed = .ok root) {row : TreeRow H}
    (hr : row ∈ db.treeNodes) :
    row.hash = finalize root ↔
      TreeLeft db (headRow db headCommit) files removed row.hash := by
  have hs := hinv.toStoreShape
  have hroot : FromRequest db files removed (.inl root) := buildNewTree_rebuilt hbuild
  have hpath : ∀ f ∈ files, Spelled f.path := fun f hf =>
    spelled_of_pathOK (hreq.path_ok _ (Or.inl (List.mem_map_of_mem hf)))
  have hplaced := placed_root hbuild
  have hfind : ∀ {addr : List Str}, ValidSegs addr → (builtTree db).find (.inl root) addr =
      updated files removed addr (baseFind db (headRow db headCommit) addr) := by
    intro addr ha
    rw [find_builtFrom hs (fun _ hrow => headRow_mem hrow) (buildNewTree_builtFrom hbuild)
      (by simp) ha, List.nil_append]
  have hobs := Hierarchy.rel_iff_observe db.storeTree (builtTree db) File.hash NodeFile.hash
    (fun h n => h = builtHash n) (fun h => ∃ t ∈ db.treeNodes, t.hash = h)
    (FromRequest db files removed) ?_ (fun _ _ _ hn hm => hn.sub hs hreq hm) ?_
    (hinv.bounded_length hr) ⟨row, hr, rfl⟩ hroot
  · refine hobs.trans ⟨fun h addr ha => ?_, fun h => ⟨fun ks => ?_, fun ks => ?_⟩⟩
    · rw [h.1, h.2, dirAt_root_isSome_iff hs hbuild ha, hfind ha]
      exact ⟨rfl, Iff.rfl⟩
    · by_cases hks : ValidSegs ks
      · rw [(h ks hks).1, hfind hks]
      · rw [find_of_not_valid hs hks, builtTree_find_of_not_valid hs hpath hplaced hks]
        rfl
    · by_cases hks : ValidSegs ks
      · rw [(h ks hks).2, dirAt_root_isSome_iff hs hbuild hks]
      · by_cases hnil : ks = []
        · subst hnil
          simp
        · -- no directory is at an address with another name
          have hnot : ∀ {α : Type} {x : Option α},
              (∀ m, x = some m → ∀ k ∈ ks, ValidName k) → x.isSome = false := by
            intro α x hx
            rcases x with _ | m
            · rfl
            · exact absurd ⟨hnil, hx m rfl⟩ hks
          rw [hnot fun m hm => storeTree_dirAt_valid hs hm,
            hnot fun m hm => valid_of_dirAt hs hpath hplaced hm]
  · intro h k m _ hm
    obtain ⟨c, hc, -, rfl⟩ := hs.subOf_iff.mp hm
    exact ⟨c, (hs.childrenByHash_mem hc).1, rfl⟩
  · rintro _ n ⟨t, ht, rfl⟩ hn
    rw [(hh.hashOf hs hcf ht).eq_iff hcf (hn.hashOf hs hh hcf hreq)]
    simp only [listed_map_snd, option_rel_map (f := fun x : H => x), Option.map_id']
    rfl

end Built

end Nipa
