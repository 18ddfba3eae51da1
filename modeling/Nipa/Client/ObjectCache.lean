import Nipa.Support.Attempts
import Nipa.Client.Revert

/-!
# The local chunk cache

Content that a command works with comes from a cache of chunks in the working
copy; what is missing there is downloaded first and checked against its hash.
So every cached chunk has the hash it is kept under, and two caches that both
hold a chunk hold the same bytes.  A command that fails keeps what it cached.

Which chunks the server hands out for a set of commits, and what the file system
says about a file, are fields of `Machine`.
-/

namespace Nipa.Client

open Support Merge

/-- Chunk data, each under its hash. -/
structure Objects (H : Type) [HashScheme H] where
  load : H → Option (List UInt8)
  valid : ∀ h data, load h = some data → HashScheme.sum data = h

/-- What the client computes on content, and what it is answered about chunks and
files. -/
structure Machine (H S : Type) where
  isBinary : List UInt8 → Bool
  encode : Str → Bool → Str → List UInt8 → Str × List (List UInt8)
  decode : Str → List UInt8 → Except DomainError (List UInt8)
  mergeText : List UInt8 → List UInt8 → List UInt8 → List UInt8 × Bool
  /-- The chunks that are asked for and belong to one of the commits. -/
  download : List Str → List H → Except DomainError (List (H × List UInt8))
  stat : Disk → Str → H → Option S

/-- The working copy, the cached chunks and the fingerprints of working files. -/
structure LocalState (H S : Type) [HashScheme H] where
  repo : Repo H
  objects : Objects H
  stats : GoMap S

section Cache

variable {H S : Type} [DecidableEq H] [HashScheme H]

/-- An object that is there already stays. -/
def Objects.put (o : Objects H) (data : List UInt8) : Objects H where
  load h := if h = HashScheme.sum data then (o.load h).or (some data) else o.load h
  valid h data' hdata := by
    rcases hold : o.load h with _ | old
    · rw [hold] at hdata
      split at hdata
      next heq =>
        obtain rfl := Option.some.inj hdata
        exact heq.symm
      · cases hdata
    · rw [hold] at hdata
      have heq : old = data' := by
        split at hdata
        · exact Option.some.inj hdata
        · exact Option.some.inj hdata
      exact o.valid h data' (heq ▸ hold)

/-- The codec of a machine on a cache. -/
def Machine.codec (m : Machine H S) (o : Objects H) : Codec H where
  isBinary := m.isBinary
  encode p isBinary encoding content :=
    let encoded := m.encode p isBinary encoding content
    (encoded.1, encoded.2.map fun data => ⟨HashScheme.sum data, data.length⟩)
  decode := m.decode
  fetch h := orError (o.load h) (errInternalServer "chunk not found in cache" [])
  mergeText := m.mergeText

/-! ## Growing caches -/

variable {o o' : Objects H}

/-- Objects are only added. -/
def Objects.Extends (o o' : Objects H) : Prop :=
  ∀ h data, o.load h = some data → o'.load h = some data

omit [DecidableEq H] in
theorem Objects.Extends.refl (o : Objects H) : o.Extends o :=
  fun _ _ h => h

omit [DecidableEq H] in
theorem Objects.Extends.trans {o'' : Objects H} (h : o.Extends o') (h' : o'.Extends o'') :
    o.Extends o'' :=
  fun x data hx => h' x data (h x data hx)

omit [DecidableEq H] in
theorem Objects.Extends.isSome (h : o.Extends o') {x : H} (hx : (o.load x).isSome) :
    (o'.load x).isSome := by
  obtain ⟨data, hdata⟩ := Option.isSome_iff_exists.mp hx
  rw [h x data hdata]
  rfl

/-- All that differs between two states is that the second has more cached chunks. -/
structure LocalState.Caches (s s' : LocalState H S) : Prop where
  repo_eq : s'.repo = s.repo
  stats_eq : s'.stats = s.stats
  extends_objects : s.objects.Extends s'.objects

omit [DecidableEq H] in
theorem LocalState.Caches.refl (s : LocalState H S) : s.Caches s :=
  ⟨rfl, rfl, Objects.Extends.refl _⟩

variable {m : Machine H S} {scope : List Str} {missing : List H}

end Cache

end Nipa.Client
