import Nipa.TreeHash

/-!
# What the hashes are taken of

The byte strings that are hashed for a directory and for a commit determine what
they were built from, whatever digest is used.  Names, hashes and messages can hold
any bytes: a name is preceded by its length, and a hash has a fixed width.
-/

namespace Nipa

open Support

section Preimages

variable {H : Type} [HashScheme H]

/-- The bytes whose digest is the hash of a directory. -/
def treePreimage (files : List (FileEntry H)) (trees : List (TreeEntry H)) : List UInt8 :=
  hashFiles files ++ hashTrees trees

/-- The bytes whose digest is the hash of a commit. -/
def commitPreimage (tree : H) (parentHashes : List H) (message : List UInt8) : List UInt8 :=
  HashScheme.bytes tree ++ be32 parentHashes.length ++
    parentHashes.flatMap HashScheme.bytes ++ be32 message.length ++ message

theorem treeHash_eq_sum (files : List (FileEntry H)) (trees : List (TreeEntry H)) :
    treeHash files trees = HashScheme.sum (treePreimage files trees) := rfl

theorem commitHash_eq_sum (tree : H) (parentHashes : List H) (message : Str) :
    commitHash tree parentHashes message =
      HashScheme.sum (commitPreimage tree parentHashes (utf8 message)) := rfl

/-! ## Directories -/

inductive ChildKind where
  | file
  | tree

/-- The children of a directory: name, kind and hash. -/
def children (files : List (FileEntry H)) (trees : List (TreeEntry H)) :
    Set (List UInt8 × ChildKind × H) :=
  {c | (∃ f ∈ files, c = (f.name, .file, f.hash)) ∨ ∃ t ∈ trees, c = (t.name, .tree, t.hash)}

/-- Names are distinct in each of the two lists, and their lengths fit in 32 bits. -/
structure Listing (files : List (FileEntry H)) (trees : List (TreeEntry H)) : Prop where
  file_names : (files.map FileEntry.name).Nodup
  tree_names : (trees.map TreeEntry.name).Nodup
  file_lengths : ∀ f ∈ files, f.name.length < 2 ^ 32
  tree_lengths : ∀ t ∈ trees, t.name.length < 2 ^ 32

omit [HashScheme H] in
theorem mem_children_file {files : List (FileEntry H)} {trees : List (TreeEntry H)}
    {name : List UInt8} {h : H} :
    (name, ChildKind.file, h) ∈ children files trees ↔
      (name, h) ∈ files.map fun f => (f.name, f.hash) := by
  rw [List.mem_map]
  constructor
  · rintro (⟨f, hf, heq⟩ | ⟨t, -, heq⟩)
    · cases heq
      exact ⟨f, hf, rfl⟩
    · cases heq
  · rintro ⟨f, hf, heq⟩
    cases heq
    exact Or.inl ⟨f, hf, rfl⟩

omit [HashScheme H] in
theorem mem_children_tree {files : List (FileEntry H)} {trees : List (TreeEntry H)}
    {name : List UInt8} {h : H} :
    (name, ChildKind.tree, h) ∈ children files trees ↔
      (name, h) ∈ trees.map fun t => (t.name, t.hash) := by
  rw [List.mem_map]
  constructor
  · rintro (⟨f, -, heq⟩ | ⟨t, ht, heq⟩)
    · cases heq
    · cases heq
      exact ⟨t, ht, rfl⟩
  · rintro ⟨t, ht, heq⟩
    cases heq
    exact Or.inr ⟨t, ht, rfl⟩

omit [HashScheme H] in
theorem children_eq_iff {files files' : List (FileEntry H)} {trees trees' : List (TreeEntry H)} :
    children files trees = children files' trees' ↔
      (∀ e, e ∈ files.map (fun f => (f.name, f.hash)) ↔
        e ∈ files'.map fun f => (f.name, f.hash)) ∧
      ∀ e, e ∈ trees.map (fun t => (t.name, t.hash)) ↔
        e ∈ trees'.map fun t => (t.name, t.hash) := by
  constructor
  · intro h
    constructor
    · intro e
      have hmem := @mem_children_file H files trees e.1 e.2
      rw [h, mem_children_file] at hmem
      exact hmem.symm
    · intro e
      have hmem := @mem_children_tree H files trees e.1 e.2
      rw [h, mem_children_tree] at hmem
      exact hmem.symm
  · rintro ⟨hfiles, htrees⟩
    ext ⟨name, kind, h⟩
    cases kind with
    | file => rw [mem_children_file, mem_children_file, hfiles]
    | tree => rw [mem_children_tree, mem_children_tree, htrees]

theorem treePreimage_eq_iff {files files' : List (FileEntry H)}
    {trees trees' : List (TreeEntry H)} (h : Listing files trees) (h' : Listing files' trees') :
    treePreimage files trees = treePreimage files' trees' ↔
      children files trees = children files' trees' := by
  rw [children_eq_iff]
  constructor
  · intro heq
    exact entries_of_bytes_eq h.file_lengths h'.file_lengths h.tree_lengths h'.tree_lengths heq
  · rintro ⟨hfiles, htrees⟩
    have hf : hashFiles files = hashFiles files' :=
      hashEntries_congr _ (by rw [List.map_map]; exact h.file_names)
        (by rw [List.map_map]; exact h'.file_names) hfiles
    have ht : hashTrees trees = hashTrees trees' :=
      hashEntries_congr _ (by rw [List.map_map]; exact h.tree_names)
        (by rw [List.map_map]; exact h'.tree_names) htrees
    rw [treePreimage, treePreimage, hf, ht]

omit [HashScheme H] in
theorem Listing.perm {files files' : List (FileEntry H)} {trees trees' : List (TreeEntry H)}
    (h : Listing files trees) (hfiles : files.Perm files') (htrees : trees.Perm trees') :
    Listing files' trees' where
  file_names := (hfiles.map _).nodup_iff.mp h.file_names
  tree_names := (htrees.map _).nodup_iff.mp h.tree_names
  file_lengths f hf := h.file_lengths f (hfiles.mem_iff.mpr hf)
  tree_lengths t ht := h.tree_lengths t (htrees.mem_iff.mpr ht)

theorem treePreimage_perm {files files' : List (FileEntry H)} {trees trees' : List (TreeEntry H)}
    (h : Listing files trees) (hfiles : files.Perm files') (htrees : trees.Perm trees') :
    treePreimage files trees = treePreimage files' trees' := by
  rw [treePreimage_eq_iff h (h.perm hfiles htrees), children_eq_iff]
  exact ⟨fun e => (hfiles.map _).mem_iff, fun e => (htrees.map _).mem_iff⟩

end Preimages

/-- The bytes that are hashed for a directory determine its children and do not depend on
the order they are given in; those that are hashed for a commit determine the tree, the
parents in order and the message. -/
theorem preimages_determine (H : Type) [HashScheme H] :
    (∀ (files files' : List (FileEntry H)) (trees trees' : List (TreeEntry H)),
      Listing files trees → Listing files' trees' →
        treePreimage files trees = treePreimage files' trees' →
          children files trees = children files' trees') ∧
    (∀ (files files' : List (FileEntry H)) (trees trees' : List (TreeEntry H)),
      Listing files trees → files.Perm files' → trees.Perm trees' →
        treePreimage files trees = treePreimage files' trees') ∧
    ∀ (tree tree' : H) (parents parents' : List H) (message message' : List UInt8),
      parents.length < 2 ^ 32 → parents'.length < 2 ^ 32 →
        commitPreimage tree parents message = commitPreimage tree' parents' message' →
          tree = tree' ∧ parents = parents' ∧ message = message' := by
  refine ⟨?_, ?_, ?_⟩
  · intro files files' trees trees' h h' heq
    exact (treePreimage_eq_iff h h').mp heq
  · intro files files' trees trees' h hfiles htrees
    exact treePreimage_perm h hfiles htrees
  · intro tree tree' parents parents' message message' h h' heq
    exact commit_of_bytes_eq h h' heq

/-! ## Hashes of 32 bytes -/

/-- The hashes of the program. -/
abbrev Digest : Type := {bytes : List UInt8 // bytes.length = 32}

/-- Whatever the digest function, hashes of 32 bytes delimit themselves. -/
@[reducible]
def digestScheme (sum : List UInt8 → Digest) : HashScheme Digest where
  sum := sum
  bytes := Subtype.val
  zero := ⟨List.replicate 32 0, rfl⟩
  bytes_ne_nil := by
    rintro ⟨bytes, hlength⟩ rfl
    cases hlength
  bytes_delimited := by
    intro h h' r r' heq
    obtain ⟨hbytes, hrest⟩ := List.append_inj heq (h.property.trans h'.property.symm)
    exact ⟨Subtype.ext hbytes, hrest⟩

/-- Whatever is hashed, the digest is zero. -/
@[reducible]
def zeroScheme : HashScheme Digest := digestScheme fun _ => ⟨List.replicate 32 0, rfl⟩

theorem preimages_determine_digest :
    (∀ f f' t t' : Digest, @treePreimage Digest zeroScheme [⟨[97], f, 1⟩] [⟨[98], t⟩] =
        @treePreimage Digest zeroScheme [⟨[97], f', 3⟩] [⟨[98], t'⟩] →
      children [⟨[97], f, 1⟩] [⟨[98], t⟩] = children [⟨[97], f', 3⟩] [⟨[98], t'⟩]) ∧
    ∀ (tree tree' p p' q q' : Digest) (message message' : List UInt8),
      @commitPreimage Digest zeroScheme tree [p, q] message =
        @commitPreimage Digest zeroScheme tree' [p', q'] message' →
      tree = tree' ∧ [p, q] = [p', q'] ∧ message = message' := by
  have hlisting : ∀ (f t : Digest) (mode : ℕ), Listing [⟨[97], f, mode⟩] [⟨[98], t⟩] :=
    fun f t mode => ⟨List.nodup_singleton _, List.nodup_singleton _, by simp, by simp⟩
  obtain ⟨htree, -, hcommit⟩ := @preimages_determine Digest zeroScheme
  constructor
  · intro f f' t t'
    exact htree _ _ _ _ (hlisting f t 1) (hlisting f' t' 3)
  · intro tree tree' p p' q q' message message'
    exact hcommit tree tree' [p, q] [p', q'] message message' (by simp) (by simp)

end Nipa
