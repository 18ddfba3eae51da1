import Nipa.Push.Apply

/-!
# What the tree builder produces

`BuiltFrom` describes a rebuilt directory by its files, its kept directories
and its rebuilt children, with row numbers left out; the builder satisfies it.
Row numbers are all different, so a directory can be recovered from its row.
-/

namespace Nipa

open Support

namespace TreeBuilder

variable {H : Type}

/-- The head directories of a rebuilt directory that are taken over. -/
def keptOf (b : TreeBuilder H) (dirPath : Str) (baseChildren : List (TreeRow H)) :
    List (Str × H) :=
  (baseChildren.filter fun c => joinPath dirPath c.name ∉ b.rebuildDirs).map
    fun c => (c.name, c.hash)

theorem keepChildren_pairs (b : TreeBuilder H) (dirPath : Str) (cs : List (TreeRow H))
    (next : ID) :
    (b.keepChildren dirPath cs next).1.map (fun k => (k.name, k.hash)) =
      b.keptOf dirPath cs := by
  induction cs generalizing next with
  | nil => rfl
  | cons c cs ih =>
      rw [keepChildren, keptOf]
      by_cases h : joinPath dirPath c.name ∈ b.rebuildDirs
      · rw [if_pos h, List.filter_cons_of_neg (by simpa using h)]
        exact ih next
      · rw [if_neg h, List.filter_cons_of_pos (by simpa using h), List.map_cons,
          List.map_cons]
        exact congrArg _ (ih (next + 1))

theorem buildChildren_forall₂ (f : Str → Option (TreeRow H) → ID → PushTreeNode H × ID)
    (dirPath : Str) (m : GoMap (TreeRow H)) (subs : List Str) (next : ID) :
    List.Forall₂ (fun sub c => ∃ n, c = (f (joinPath dirPath sub) (m.lookup sub) n).1)
      subs (buildChildren f dirPath m subs next).1 := by
  induction subs generalizing next with
  | nil => exact List.Forall₂.nil
  | cons sub subs ih =>
      rw [buildChildren]
      exact List.Forall₂.cons ⟨next, rfl⟩ (ih _)

theorem le_depthBound {b : TreeBuilder H} {d : Str} (h : d ∈ b.rebuildDirs) :
    d.length < b.depthBound := by
  have hmax : ∀ l : List Str, d ∈ l →
      d.length ≤ l.foldr (fun d n => max d.length n) 0 := by
    intro l hl
    induction l with
    | nil => simp at hl
    | cons x xs ih =>
        rw [List.foldr_cons]
        rcases List.mem_cons.mp hl with rfl | hl
        · exact le_max_left _ _
        · exact le_trans (ih hl) (le_max_right _ _)
  rw [depthBound]
  exact Nat.lt_succ_of_le (hmax _ h)

section Shape

variable [DecidableEq H]

/-- The shape of the directory built at `dirPath` on top of `base`. -/
def BuiltFrom (b : TreeBuilder H) (db : DB H) :
    ℕ → Str → Option (TreeRow H) → PushTreeNode H → Prop
  | 0, _, _, _ => False
  | depth + 1, dirPath, base, node =>
      node.name = nodeName dirPath ∧
      node.files = b.nodeFiles dirPath (baseFilesOf db base) ∧
      node.keepDirs.map (fun k => (k.name, k.hash)) =
        b.keptOf dirPath (baseChildrenOf db base) ∧
      (node.children.map PushTreeNode.name).Perm
        (immediateSubdirs b.rebuildDirs dirPath) ∧
      ∀ c ∈ node.children, b.BuiltFrom db depth (joinPath dirPath c.name)
        ((childByName (baseChildrenOf db base)).lookup c.name) c

theorem BuiltFrom.name_eq {b : TreeBuilder H} {db : DB H} {depth : ℕ} {dirPath : Str}
    {base : Option (TreeRow H)} {node : PushTreeNode H}
    (h : b.BuiltFrom db depth dirPath base node) : node.name = nodeName dirPath := by
  rcases depth with _ | depth
  · exact h.elim
  · exact h.1

/-- The builder meets its description as long as the remaining depth covers
the paths still to come. -/
theorem build_builtFrom (b : TreeBuilder H) (db : DB H) {depth : ℕ} {dirPath : Str}
    (base : Option (TreeRow H)) (next : ID)
    (hdepth : b.depthBound ≤ depth + dirPath.length)
    (hpos : dirPath.length < b.depthBound) :
    b.BuiltFrom db depth dirPath base (b.build db depth dirPath base next).1 := by
  induction depth generalizing dirPath base next with
  | zero => omega
  | succ depth ih =>
      rw [build]
      have hchildren := buildChildren_forall₂ (b.build db depth) dirPath
        (childByName (baseChildrenOf db base)) (immediateSubdirs b.rebuildDirs dirPath)
        (next + 1)
      generalize buildChildren (b.build db depth) dirPath
        (childByName (baseChildrenOf db base)) (immediateSubdirs b.rebuildDirs dirPath)
        (next + 1) = built at hchildren
      -- each subdirectory is deeper, so the induction hypothesis applies to it
      have hbuilt : ∀ sub ∈ immediateSubdirs b.rebuildDirs dirPath, ∀ n,
          b.BuiltFrom db depth (joinPath dirPath sub)
            ((childByName (baseChildrenOf db base)).lookup sub)
            (b.build db depth (joinPath dirPath sub)
              ((childByName (baseChildrenOf db base)).lookup sub) n).1 := by
        intro sub hsub n
        obtain ⟨hvalid, hmem⟩ := mem_immediateSubdirs.mp hsub
        have hlonger : dirPath.length < (joinPath dirPath sub).length :=
          length_lt_joinPath hvalid.1
        exact ih _ n (by omega) (le_depthBound hmem)
      have hnamed : List.Forall₂ (fun sub c => c.name = sub ∧
          b.BuiltFrom db depth (joinPath dirPath sub)
            ((childByName (baseChildrenOf db base)).lookup sub) c)
          (immediateSubdirs b.rebuildDirs dirPath) built.1 := by
        refine forall₂_imp_of_mem hchildren ?_
        rintro sub hsub c ⟨n, rfl⟩
        have hb := hbuilt sub hsub n
        exact ⟨(hb.name_eq).trans (nodeName_joinPath (mem_immediateSubdirs.mp hsub).1), hb⟩
      have hperm := List.perm_insertionSort (fun c c' : PushTreeNode H => c.name ≤ c'.name)
        built.1
      refine ⟨rfl, rfl, keepChildren_pairs b dirPath _ _, ?_, ?_⟩
      · refine (hperm.map PushTreeNode.name).trans ?_
        rw [map_eq_of_forall₂ (hnamed.imp fun _ _ h => h.1)]
      · intro c hc
        obtain ⟨sub, -, rfl, hb⟩ := forall₂_mem_right hnamed (hperm.mem_iff.mp hc)
        exact hb

end Shape

/-! ## Row numbers -/

/-- The row numbers a directory takes: its own and those of its kept
directories. -/
def nodeIDsOf (t : PushTreeNode H) : List ID :=
  t.id :: t.keepDirs.map KeptDir.id

theorem keepChildren_numbered (b : TreeBuilder H) (dirPath : Str)
    (cs : List (TreeRow H)) (next : ID) :
    NumberedIn next (b.keepChildren dirPath cs next).2
      ((b.keepChildren dirPath cs next).1.map KeptDir.id) := by
  induction cs generalizing next with
  | nil => exact NumberedIn.nil next
  | cons c cs ih =>
      rw [keepChildren]
      by_cases h : joinPath dirPath c.name ∈ b.rebuildDirs
      · rw [if_pos h]
        exact ih next
      · rw [if_neg h]
        exact (NumberedIn.single next).append (ih (next + 1))

theorem buildChildren_numbered {f : Str → Option (TreeRow H) → ID → PushTreeNode H × ID}
    (hf : ∀ d base n, NumberedIn n (f d base n).2 (gather nodeIDsOf (f d base n).1))
    (dirPath : Str) (m : GoMap (TreeRow H)) (subs : List Str) (next : ID) :
    NumberedIn next (buildChildren f dirPath m subs next).2
      ((buildChildren f dirPath m subs next).1.flatMap (gather nodeIDsOf)) := by
  induction subs generalizing next with
  | nil => exact NumberedIn.nil next
  | cons sub subs ih =>
      rw [buildChildren]
      exact (hf _ _ next).append (ih _)

theorem build_numbered [DecidableEq H] (b : TreeBuilder H) (db : DB H) (depth : ℕ)
    (dirPath : Str) (base : Option (TreeRow H)) (next : ID) :
    NumberedIn next (b.build db depth dirPath base next).2
      (gather nodeIDsOf (b.build db depth dirPath base next).1) := by
  induction depth generalizing dirPath base next with
  | zero =>
      rw [build, gather_eq]
      exact NumberedIn.single next
  | succ depth ih =>
      rw [build, gather_eq]
      have hc := buildChildren_numbered (fun d base n => ih d base n) dirPath
        (childByName (baseChildrenOf db base)) (immediateSubdirs b.rebuildDirs dirPath)
        (next + 1)
      generalize buildChildren (b.build db depth) dirPath
        (childByName (baseChildrenOf db base)) (immediateSubdirs b.rebuildDirs dirPath)
        (next + 1) = built at hc
      have hk := keepChildren_numbered b dirPath (baseChildrenOf db base) built.2
      have hall := ((NumberedIn.single next).append hc).append hk
      have hsort := (List.perm_insertionSort
        (fun c c' : PushTreeNode H => c.name ≤ c'.name) built.1).flatMap_right
        (gather nodeIDsOf)
      -- the kept directories are numbered last but listed before the children
      have hswap : ((next + 1) :: (built.1.flatMap (gather nodeIDsOf) ++
          (b.keepChildren dirPath (baseChildrenOf db base) built.2).1.map KeptDir.id)).Perm
          ((next + 1) :: ((b.keepChildren dirPath (baseChildrenOf db base) built.2).1.map
              KeptDir.id ++
            (built.1.insertionSort fun c c' => c.name ≤ c'.name).flatMap
              (gather nodeIDsOf))) := by
        apply List.Perm.cons
        exact List.perm_append_comm.trans (List.Perm.append_left _ hsort.symm)
      exact hall.perm hswap

end TreeBuilder

end Nipa
