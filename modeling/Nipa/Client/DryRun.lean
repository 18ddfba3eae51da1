import Nipa.Client.ObjectCache

/-!
# Dry runs of a merge in the working copy

A merge or a revert runs dry on request: the same function decides every path,
and where the real run writes files, stages and saves, the dry run only caches
chunks.  Both read content from the cache, so a dry run that starts from the
same files comes to the same conflicts and the same file map, whatever else the
real run has cached or written.
-/

namespace Nipa.Client

open Support Merge

section DryRun

variable {H S : Type} [HashScheme H] [DecidableEq H]

/-! ## Applying a merge, dry or not -/

variable {m : Machine H S} {o o' : Objects H} {p : Str} {e : Decided H}
  {planned : EntryEffect H × List (List UInt8)}

/-- Two results agree on the files and on the conflicts. -/
structure SameResult (out out' : ThreeWayResult H) : Prop where
  files : out'.files = out.files
  conflicted : out'.conflicted = out.conflicted
  kinds : out'.kinds = out.kinds
  binary : out'.binary = out.binary

omit [HashScheme H] [DecidableEq H] in
theorem SameResult.add {out out' : ThreeWayResult H} (h : SameResult out out') (p : Str)
    (eff : EntryEffect H) : SameResult (out.add p eff) (out'.add p eff) := by
  refine ⟨?_, ?_, ?_, ?_⟩
  all_goals simp [ThreeWayResult.add, h.files, h.conflicted, h.kinds, h.binary]

omit [HashScheme H] [DecidableEq H] in
theorem SameResult.delete {out out' : ThreeWayResult H} (h : SameResult out out') (p : Str)
    (removed removed' : Bool) :
    SameResult (out.delete p removed) (out'.delete p removed') := by
  refine ⟨?_, h.conflicted, h.kinds, h.binary⟩
  simp [ThreeWayResult.delete, h.files]

section Entries

variable {l : List (Sigma fun _ : Str => Decided H)} {acc acc' : ThreeWayResult H × GoMap S}
  {s s' t : LocalState H S}

end Entries

section Deletions

variable {snapshot : Snapshot H} {out out' : ThreeWayResult H} {s : LocalState H S}

end Deletions

/-! ## The whole merge -/

section Whole

variable {snapshot : Snapshot H} {ours : GoMap (Entry H)} {res : Result H} {scope : List Str}
  {out : ThreeWayResult H} {s s' t t' : LocalState H S}

end Whole

/-! ## The chunks a dry run has at hand -/

/-- Every chunk of a file map is one of `P` or cached. -/
def Held (P : H → Prop) (o : Objects H) (files : GoMap (Entry H)) : Prop :=
  ∀ p f, files.lookup p = some f → ∀ x ∈ f.chunkHashes, P x ∨ (o.load x).isSome

section Held

variable {P : H → Prop} {t t' : LocalState H S}

omit [DecidableEq H] in
theorem Held.mono {files : GoMap (Entry H)} (h : Held P o files) (hext : o.Extends o') :
    Held P o' files :=
  fun p f hf x hx => (h p f hf x hx).imp_right hext.isSome

variable {base ours theirs : GoMap (Entry H)} {scope : List Str} {dry : Snapshot H}
  {out : ThreeWayResult H}

end Held

end DryRun

end Nipa.Client
