import Nipa.Chunker.RoundTrip
import Nipa.Client.Push
import Nipa.Support.Runs
import Nipa.Support.TableSync

/-!
# The stat cache

Status hashes the tracked files and remembers, with each hash, the size and the
modification time it saw and a stamp.  A file whose size and time are still
those of its fingerprint is not hashed again when the time lies before the
stamp.

Fingerprints are made by status, by a refresh, by a push that scans the staged
files and by every command that materializes files.  A clock that only moves
forward gives the times of writes and stamps.  What a command looks at, reads,
stamps and saves are steps of their own, so that files change between any two of
them; what it has loaded before is arbitrary, since it was loaded earlier.  A
command that fails takes no further steps.

The ghost field `encoding` of a fingerprint is the encoding its hash was made
with.
-/

namespace Nipa.Client.Stat

open Support Chunker

/-! ## Files and fingerprints -/

/-- A regular file with the time of its last write. -/
structure TimedFile where
  content : List UInt8
  perm : ℕ
  mtime : ℤ
  deriving DecidableEq

structure FileInfo where
  size : ℕ
  mtime : ℤ
  perm : ℕ
  deriving DecidableEq

def TimedFile.info (f : TimedFile) : FileInfo := ⟨f.content.length, f.mtime, f.perm⟩

def serverModeFromPerm (perm : ℕ) : ℕ :=
  if perm &&& 0o111 ≠ 0 then 3 else if perm &&& 0o222 = 0 then 1 else 2

/-- The unspecified mode stands for read-write. -/
def normalizedMode (mode : ℕ) : ℕ := if mode = 0 then 2 else mode

structure StatEntry (H : Type) where
  sizeBytes : ℕ
  mtimeNS : ℤ
  mode : ℕ
  hash : H
  cachedAt : ℤ
  encoding : Str

/-- The cached fingerprint still describes the file. -/
def statMatches {H : Type} (entry : StatEntry H) (info : FileInfo) : Bool :=
  entry.sizeBytes = info.size && entry.mtimeNS = info.mtime && info.mtime < entry.cachedAt

def binaryProbeSize : ℕ := 8000

def isBinary (data : List UInt8) : Bool := (data.take binaryProbeSize).contains 0

/-- The encoding that `Encode` ends up using. -/
def usedEncoding (isBinary : Bool) (encoding : Str) : Str :=
  if (if encoding = [] then defaultEncoding isBinary else encoding) ≠ encodingZstd ∨ isBinary
  then encodingRaw else encodingZstd

section Hashing

variable {H : Type} [HashScheme H] (z : Zstd)

/-- The file hash and the encoding used. -/
def chunkReader (content : List UInt8) (path : Str) (isBinary : Bool) (encoding : Str) :
    Except String (H × Str) := do
  let (used, chunks) ← encodeBytes z content path isBinary encoding
  return (fileHash (chunks.map EncodedChunk.hash), used)

def workingFileHash (content : List UInt8) (path encoding : Str) : Except String H := do
  let (hash, _) ← chunkReader z content path (isBinary content) (storedEncoding encoding)
  return hash

/-- Hash a staged file for a push, with the flag probed before. -/
def scanPushFile (content : List UInt8) (path : Str) (isBinary : Bool) (info : FileInfo) :
    Except String (H × Str) := do
  let (used, chunks) ← encodeBytes z content path isBinary []
  if (chunks.map (EncodedChunk.rawSize (H := H))).sum ≠ info.size then
    throw "file changed while reading"
  return (fileHash (chunks.map EncodedChunk.hash), used)

end Hashing

/-! ## Commands under way -/

/-- A fingerprint in the making: what has been looked up, read and stamped. -/
structure Scan (H : Type) where
  path : Str
  asked : Str
  info : Option FileInfo
  isBinary : Option Bool
  hashed : Option (H × Str)
  stamp : Option ℤ

/-- A temporary file that is to become the file at `path`, and what it is to be
recorded as. -/
structure Temp (H : Type) where
  path : Str
  file : TimedFile
  hash : H
  encoding : Str

/-- A status or refresh hashes tracked files, a push the staged ones, and other
commands write files. -/
inductive Command (H : Type) where
  | hashing (snapshot : Snapshot H) (staged : List Str) (statCache : GoMap (StatEntry H))
      (observedAt : ℤ)
  | push
  | materialize

structure Task (H : Type) where
  command : Command H
  todo : List Str
  temps : List (Temp H)
  scans : List (Scan H)

structure World (H : Type) where
  now : ℤ
  disk : GoMap TimedFile
  snapshot : Snapshot H
  staged : List Str
  statCache : GoMap (StatEntry H)
  tasks : List (Task H)

inductive Action (H : Type) where
  | tick (time : ℤ)
  | write (p : Str) (content : List UInt8) (perm : ℕ)
  | remove (p : Str)
  | chmod (p : Str) (perm : ℕ)
  | saveTree (snapshot : Snapshot H)
  | stage (staged : List Str)
  | hash (snapshot : Snapshot H) (staged : List Str) (statCache : GoMap (StatEntry H))
      (paths : List Str)
  | push (paths : List Str)
  | materialize
  | stat (i : ℕ)
  | probe (i k : ℕ)
  | read (i k : ℕ)
  | create (i : ℕ) (p : Str) (content : List UInt8) (mode : ℕ) (hash : H) (encoding : Str)
  | rename (i : ℕ)
  | statEntryFor (i k : ℕ)
  | stamp (i k : ℕ)
  | saveStatEntries (i : ℕ)

namespace World

variable {H : Type}

/-! ## Steps -/

def setTask (w : World H) (i : ℕ) (t : Task H) : World H :=
  { w with tasks := w.tasks.set i t }

def setScan (w : World H) (i k : ℕ) (t : Task H) (j : Scan H) : World H :=
  w.setTask i { t with scans := t.scans.set k j }

def start (w : World H) (command : Command H) (todo : List Str) : World H :=
  { w with tasks := w.tasks ++ [⟨command, todo, [], []⟩] }

/-- A status or refresh looks at a path: it is hashed when it is tracked, not
staged, and no loaded fingerprint describes it. -/
def examine (snapshot : Snapshot H) (staged : List Str) (statCache : GoMap (StatEntry H))
    (observedAt : ℤ) (disk : GoMap TimedFile) (p : Str) : Option (Scan H) :=
  if p ∈ staged then none
  else do
    let base ← snapshot.files.lookup p
    let f ← disk.lookup p
    if (statCache.lookup p).any fun entry => statMatches entry f.info then none
    else
      some
        { path := p, asked := storedEncoding base.encoding, info := some f.info
          isBinary := none, hashed := none, stamp := some observedAt }

/-- A push looks at a staged path; one without a file is not scanned. -/
def classifyStaged (disk : GoMap TimedFile) (p : Str) : Option (Scan H) :=
  (disk.lookup p).map fun f =>
    { path := p, asked := [], info := some f.info, isBinary := none, hashed := none
      stamp := none }

def stat (w : World H) (i : ℕ) : Option (World H) := do
  let t ← w.tasks[i]?
  match t.todo with
  | [] => none
  | p :: rest =>
      let scan : Option (Scan H) :=
        match t.command with
        | .hashing snapshot staged statCache observedAt =>
            examine snapshot staged statCache observedAt w.disk p
        | .push => classifyStaged w.disk p
        | .materialize => none
      some (w.setTask i { t with todo := rest, scans := t.scans ++ scan.toList })

/-- Probe a file that has been looked up. -/
def probe (w : World H) (i k : ℕ) : Option (World H) := do
  let t ← w.tasks[i]?
  let j ← t.scans[k]?
  let f ← w.disk.lookup j.path
  if j.info.isSome && j.isBinary.isNone && j.hashed.isNone then
    some (w.setScan i k t { j with isBinary := some (isBinary f.content) })
  else none

/-- Hash a file that has been probed. -/
def read [HashScheme H] (z : Zstd) (w : World H) (i k : ℕ) : Option (World H) := do
  let t ← w.tasks[i]?
  let j ← t.scans[k]?
  let f ← w.disk.lookup j.path
  let binary ← j.isBinary
  let info ← j.info
  if j.hashed.isNone then
    let result : Except String (H × Str) :=
      match t.command with
      | .push => scanPushFile z f.content j.path binary info
      | _ => chunkReader z f.content j.path binary j.asked
    let hashed ← result.toOption
    some (w.setScan i k t { j with hashed := some hashed })
  else none

/-- Write the temporary file of a materialization. -/
def create (w : World H) (i : ℕ) (p : Str) (content : List UInt8) (mode : ℕ) (hash : H)
    (encoding : Str) : Option (World H) := do
  let t ← w.tasks[i]?
  match t.command with
  | .materialize =>
      some (w.setTask i
        { t with temps := ⟨p, ⟨content, materializedMode mode, w.now⟩, hash, encoding⟩ ::
            t.temps })
  | _ => none

/-- The temporary file takes its place; its content counts as hashed. -/
def rename (w : World H) (i : ℕ) : Option (World H) := do
  let t ← w.tasks[i]?
  match t.temps with
  | [] => none
  | temp :: rest =>
      some (({ w with disk := w.disk.insert temp.path temp.file } : World H).setTask i
        { t with
          temps := rest
          scans := t.scans ++
            [{ path := temp.path, asked := temp.encoding, info := none, isBinary := none
               hashed := some (temp.hash,
                 usedEncoding (isBinary temp.file.content) (storedEncoding temp.encoding))
               stamp := none }] })

/-- Look up the file that was materialized. -/
def statEntryFor (w : World H) (i k : ℕ) : Option (World H) := do
  let t ← w.tasks[i]?
  let j ← t.scans[k]?
  let f ← w.disk.lookup j.path
  if j.info.isNone then some (w.setScan i k t { j with info := some f.info }) else none

/-- `statEntryFromInfo` takes the time for its stamp. -/
def stamp (w : World H) (i k : ℕ) : Option (World H) := do
  let t ← w.tasks[i]?
  let j ← t.scans[k]?
  if j.info.isSome && j.hashed.isSome && j.stamp.isNone then
    some (w.setScan i k t { j with stamp := some w.now })
  else none

end World

/-- The row of a finished fingerprint. -/
def Scan.entry {H : Type} (j : Scan H) : Option (StatEntry H) := do
  let info ← j.info
  let (hash, encoding) ← j.hashed
  let cachedAt ← j.stamp
  some
    { sizeBytes := info.size, mtimeNS := info.mtime, mode := serverModeFromPerm info.perm
      hash, cachedAt, encoding }

namespace World

variable {H : Type}

/-- Store the finished fingerprints of a command. -/
def saveStatEntries (w : World H) (i : ℕ) : Option (World H) := do
  let t ← w.tasks[i]?
  let updates := t.scans.filterMap fun j => j.entry.map (j.path, ·)
  some (({ w with
      statCache := GoMap.insertAll Prod.fst Prod.snd w.statCache updates } : World H).setTask i
    { t with scans := [] })

def step [HashScheme H] (z : Zstd) (w : World H) : Action H → Option (World H)
  | .tick time => if w.now < time then some { w with now := time } else none
  | .write p content perm =>
      some { w with disk := w.disk.insert p ⟨content, perm, w.now⟩ }
  | .remove p => some { w with disk := w.disk.erase p }
  | .chmod p perm =>
      (w.disk.lookup p).map fun f => { w with disk := w.disk.insert p { f with perm } }
  | .saveTree snapshot => some { w with snapshot }
  | .stage staged => some { w with staged }
  | .hash snapshot staged statCache paths =>
      some (w.start (.hashing snapshot staged statCache w.now) paths)
  | .push paths => some (w.start .push paths)
  | .materialize => some (w.start .materialize [])
  | .stat i => w.stat i
  | .probe i k => w.probe i k
  | .read i k => w.read z i k
  | .create i p content mode hash encoding => w.create i p content mode hash encoding
  | .rename i => w.rename i
  | .statEntryFor i k => w.statEntryFor i k
  | .stamp i k => w.stamp i k
  | .saveStatEntries i => w.saveStatEntries i

def Step [HashScheme H] (z : Zstd) (w : World H) (a : Action H) (w' : World H) : Prop :=
  w.step z a = some w'

/-- A working copy whose cache is empty, with no command under way. -/
def initial (now : ℤ) (disk : GoMap TimedFile) (snapshot : Snapshot H) (staged : List Str) :
    World H where
  now := now
  disk := disk
  snapshot := snapshot
  staged := staged
  statCache := ∅
  tasks := []

end World

/-! ## Status -/

/-- What status lists; the branch, the head and a pending merge or revert are copied
from the configuration. -/
structure Status where
  staged : List Str
  added : List Str
  deleted : List Str
  untracked : List Str
  modified : List Str
  missing : List Str
  deriving DecidableEq

section Status

variable {H : Type} [DecidableEq H]

/-- Differs from its snapshot entry, given its hash. -/
def differs (base : SnapshotFile H) (f : TimedFile) (hash : H) : Bool :=
  hash ≠ base.hash || serverModeFromPerm f.perm ≠ normalizedMode base.mode

/-- The fingerprint that is trusted for a file. -/
def trusted (noCache : Bool) (w : World H) (p : Str) (f : TimedFile) : Option (StatEntry H) :=
  if noCache then none
  else (w.statCache.lookup p).filter fun entry => statMatches entry f.info

/-- The unstaged tracked files of a walk, with their snapshot entries. -/
def compared (w : World H) (working : List (Str × TimedFile)) :
    List (Str × TimedFile × SnapshotFile H) :=
  working.filterMap fun (p, f) =>
    if p ∈ w.staged then none else (w.snapshot.files.lookup p).map (p, f, ·)

variable [HashScheme H] (z : Zstd)

def rehash (job : Str × TimedFile × SnapshotFile H) : Except String (Option Str) := do
  let (p, f, base) := job
  let hash ← workingFileHash z f.content p base.encoding
  return if differs base f hash then some p else none

/-- Status of a working copy that nothing else touches, with the answers of the
ignore rules. -/
def status (noCache : Bool) (skips : Str → Bool) (w : World H) : Except String Status := do
  let working := w.disk.sorted.filter fun (p, _) => !isNipaPath p && !skips p
  let files := compared w working
  let decided := files.filterMap fun (p, f, base) =>
    (trusted noCache w p f).bind fun entry =>
      if differs base f entry.hash then some p else none
  let rehashed ← (files.filter fun (p, f, _) => (trusted noCache w p f).isNone).mapM (rehash z)
  return {
    staged := w.staged.filter fun p => (w.disk.lookup p).isSome
    added := w.staged.filter fun p =>
      (w.disk.lookup p).isSome && (w.snapshot.files.lookup p).isNone
    deleted := w.staged.filter fun p => (w.disk.lookup p).isNone
    untracked := (working.map Prod.fst).filter fun p =>
      p ∉ w.staged ∧ w.snapshot.files.lookup p = none
    modified := (decided ++ rehashed.reduceOption).insertionSort (· ≤ ·)
    missing := w.snapshot.files.keys.filter fun p =>
      p ∉ working.map Prod.fst ∧ p ∉ w.staged }

end Status

end Nipa.Client.Stat
