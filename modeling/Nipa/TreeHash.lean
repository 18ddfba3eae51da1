import Nipa.Support.Strings
import Mathlib.Data.List.Sort
import Mathlib.Order.Lex
import Mathlib.Algebra.Group.Nat.Defs
import Mathlib.Data.List.Lex

/-!
# Content hashes of files, trees and commits

The byte strings that are hashed are built here exactly as the hashing package
builds them.  The digest function itself is a parameter: `HashScheme` fixes
what the code uses of it, and `CollisionFree` is the ideal-hash assumption
under which equal tree hashes determine the directory listing.
-/

namespace Nipa

open Support

/-- What the program uses of its digest: the digest of a byte string, the
bytes of a digest, and the all-zero digest of an unset hash field.  A digest
has a fixed nonzero width, so its bytes delimit themselves inside a longer
byte string. -/
class HashScheme (H : Type) where
  sum : List UInt8 → H
  bytes : H → List UInt8
  zero : H
  bytes_ne_nil : ∀ h, bytes h ≠ []
  bytes_delimited : ∀ {h h' : H} {r r' : List UInt8},
    bytes h ++ r = bytes h' ++ r' → h = h' ∧ r = r'

/-- No two byte strings have the same digest. -/
def CollisionFree (H : Type) [HashScheme H] : Prop :=
  Function.Injective (HashScheme.sum : List UInt8 → H)

section Scheme

variable {H : Type} [HashScheme H]

/-- Two lower-case hexadecimal digits for one byte. -/
def hexByte (b : UInt8) : Str :=
  [Nat.digitChar (b.toNat / 16), Nat.digitChar (b.toNat % 16)]

/-- The textual form of a hash, used for the optimistic base check. -/
def hashString (h : H) : Str :=
  (HashScheme.bytes h).flatMap hexByte

/-- Hash of a file given its ordered chunk hashes. -/
def fileHash (chunkHashes : List H) : H :=
  HashScheme.sum (chunkHashes.flatMap HashScheme.bytes)

/-- Big-endian encoding of a length cast to 32 bits. -/
def be32 (n : ℕ) : List UInt8 :=
  [UInt8.ofNat (n / 2 ^ 24), UInt8.ofNat (n / 2 ^ 16),
    UInt8.ofNat (n / 2 ^ 8), UInt8.ofNat n]

def fileKind : UInt8 := 0

def treeKind : UInt8 := 1

/-- A file child of a directory.  The mode is part of the entry but not of the
serialised form. -/
structure FileEntry (H : Type) where
  name : List UInt8
  hash : H
  mode : ℕ

/-- A subdirectory child of a directory. -/
structure TreeEntry (H : Type) where
  name : List UInt8
  hash : H

/-- Byte order on entry names. -/
def entryLE (e e' : List UInt8 × H) : Prop :=
  e.1.map UInt8.toNat ≤ e'.1.map UInt8.toNat

instance : DecidableRel (entryLE (H := H)) := fun e e' =>
  inferInstanceAs (Decidable (e.1.map UInt8.toNat ≤ e'.1.map UInt8.toNat))

/-- One serialised child: kind, name length, name, child hash. -/
def hashEntry (kind : UInt8) (e : List UInt8 × H) : List UInt8 :=
  kind :: (be32 e.1.length ++ (e.1 ++ HashScheme.bytes e.2))

/-- The serialised children of one kind, sorted by name. -/
def hashEntries (kind : UInt8) (es : List (List UInt8 × H)) : List UInt8 :=
  (es.insertionSort entryLE).flatMap (hashEntry kind)

def hashFiles (files : List (FileEntry H)) : List UInt8 :=
  hashEntries fileKind (files.map fun f => (f.name, f.hash))

def hashTrees (trees : List (TreeEntry H)) : List UInt8 :=
  hashEntries treeKind (trees.map fun t => (t.name, t.hash))

/-- Hash of a directory. -/
def treeHash (files : List (FileEntry H)) (trees : List (TreeEntry H)) : H :=
  HashScheme.sum (hashFiles files ++ hashTrees trees)

/-- Hash of a commit: tree, parents in order, message. -/
def commitHash (tree : H) (parentHashes : List H) (message : Str) : H :=
  HashScheme.sum
    (HashScheme.bytes tree ++ be32 parentHashes.length ++
      parentHashes.flatMap HashScheme.bytes ++
      be32 (utf8 message).length ++ utf8 message)

/-! ## Reading the serialised form back -/

theorem be32_injective_of_lt {m n : ℕ} (hm : m < 2 ^ 32) (hn : n < 2 ^ 32)
    (h : be32 m = be32 n) : m = n := by
  simp only [be32, List.cons.injEq, and_true] at h
  obtain ⟨h3, h2, h1, h0⟩ := h
  have e3 := congrArg UInt8.toNat h3
  have e2 := congrArg UInt8.toNat h2
  have e1 := congrArg UInt8.toNat h1
  have e0 := congrArg UInt8.toNat h0
  simp only [UInt8.toNat_ofNat'] at e3 e2 e1 e0
  omega

theorem flatMap_bytes_injective :
    Function.Injective fun hs : List H => hs.flatMap HashScheme.bytes := by
  intro hs
  induction hs with
  | nil =>
      intro hs' heq
      cases hs' with
      | nil => rfl
      | cons h' rest' =>
          have hnil : HashScheme.bytes h' = [] := by
            have := heq.symm
            simp only [List.flatMap_cons, List.flatMap_nil,
              List.append_eq_nil_iff] at this
            exact this.1
          exact absurd hnil (HashScheme.bytes_ne_nil h')
  | cons h rest ih =>
      intro hs' heq
      cases hs' with
      | nil =>
          have hnil : HashScheme.bytes h = [] := by
            simp only [List.flatMap_cons, List.flatMap_nil,
              List.append_eq_nil_iff] at heq
            exact heq.1
          exact absurd hnil (HashScheme.bytes_ne_nil h)
      | cons h' rest' =>
          simp only [List.flatMap_cons] at heq
          obtain ⟨rfl, hrest⟩ := HashScheme.bytes_delimited heq
          rw [ih hrest]

theorem fileHash_injective (hcf : CollisionFree H) :
    Function.Injective (fileHash : List H → H) :=
  fun _ _ h => flatMap_bytes_injective (hcf h)

theorem content_ext (hcf : CollisionFree H) {a b : Option (H × List H)}
    (ha : ∀ x ∈ a, x.1 = fileHash x.2) (hb : ∀ x ∈ b, x.1 = fileHash x.2)
    (h : a.map Prod.fst = b.map Prod.fst) : a = b := by
  rcases a with _ | ⟨x, cs⟩
  · rcases b with _ | ⟨y, cs'⟩
    · rfl
    · simp at h
  · rcases b with _ | ⟨y, cs'⟩
    · simp at h
    · have hx : x = fileHash cs := ha _ rfl
      have hy : y = fileHash cs' := hb _ rfl
      have hxy : x = y := by simpa using h
      have hcs : cs = cs' := fileHash_injective hcf (by rw [← hx, ← hy, hxy])
      rw [hxy, hcs]

theorem hashEntry_append_inj {kind : UInt8} {e e' : List UInt8 × H}
    {r r' : List UInt8} (he : e.1.length < 2 ^ 32) (he' : e'.1.length < 2 ^ 32)
    (h : hashEntry kind e ++ r = hashEntry kind e' ++ r') :
    e = e' ∧ r = r' := by
  simp only [hashEntry, List.cons_append, List.append_assoc, List.cons.injEq,
    true_and] at h
  have hlen : (be32 e.1.length).length = (be32 e'.1.length).length := rfl
  obtain ⟨hbe, hrest⟩ := List.append_inj h hlen
  have hname : e.1.length = e'.1.length := be32_injective_of_lt he he' hbe
  obtain ⟨hn, hhash⟩ := List.append_inj hrest hname
  obtain ⟨hh, hr⟩ := HashScheme.bytes_delimited hhash
  exact ⟨Prod.ext hn hh, hr⟩

/-- Serialised entries of one kind followed by entries of another kind
determine both lists. -/
theorem flatMap_hashEntry_inj {k k' : UInt8} (hk : k ≠ k')
    {fs fs' ts ts' : List (List UInt8 × H)}
    (hfs : ∀ e ∈ fs, e.1.length < 2 ^ 32) (hfs' : ∀ e ∈ fs', e.1.length < 2 ^ 32)
    (hts : ∀ e ∈ ts, e.1.length < 2 ^ 32) (hts' : ∀ e ∈ ts', e.1.length < 2 ^ 32)
    (h : fs.flatMap (hashEntry k) ++ ts.flatMap (hashEntry k') =
      fs'.flatMap (hashEntry k) ++ ts'.flatMap (hashEntry k')) :
    fs = fs' ∧ ts = ts' := by
  induction fs generalizing fs' with
  | nil =>
      cases fs' with
      | cons e' rest' =>
          cases ts with
          | nil => simp [hashEntry] at h
          | cons t ts => simp [hashEntry, hk.symm] at h
      | nil =>
          refine ⟨rfl, ?_⟩
          simp only [List.flatMap_nil, List.nil_append] at h
          induction ts generalizing ts' with
          | nil =>
              cases ts' with
              | nil => rfl
              | cons t' ts' => simp [hashEntry] at h
          | cons t ts ih =>
              cases ts' with
              | nil => simp [hashEntry] at h
              | cons t' ts' =>
                  simp only [List.flatMap_cons] at h
                  obtain ⟨rfl, hrest⟩ := hashEntry_append_inj
                    (hts t (by simp)) (hts' t' (by simp)) h
                  rw [ih (fun e he => hts e (by simp [he]))
                    (fun e he => hts' e (by simp [he])) hrest]
  | cons e rest ih =>
      cases fs' with
      | nil =>
          cases ts' with
          | nil => simp [hashEntry] at h
          | cons t' ts' => simp [hashEntry, hk] at h
      | cons e' rest' =>
          simp only [List.flatMap_cons, List.append_assoc] at h
          obtain ⟨rfl, hrest⟩ := hashEntry_append_inj
            (hfs e (by simp)) (hfs' e' (by simp)) h
          obtain ⟨rfl, hts⟩ := ih (fun x hx => hfs x (by simp [hx]))
            (fun x hx => hfs' x (by simp [hx])) hrest
          exact ⟨rfl, hts⟩

variable {fs fs' : List (FileEntry H)} {ts ts' : List (TreeEntry H)}

/-- The bytes of a directory determine its named file hashes and its named subtree
hashes. -/
theorem entries_of_bytes_eq (hfs : ∀ f ∈ fs, f.name.length < 2 ^ 32)
    (hfs' : ∀ f ∈ fs', f.name.length < 2 ^ 32) (hts : ∀ t ∈ ts, t.name.length < 2 ^ 32)
    (hts' : ∀ t ∈ ts', t.name.length < 2 ^ 32)
    (h : hashFiles fs ++ hashTrees ts = hashFiles fs' ++ hashTrees ts') :
    (∀ e, e ∈ fs.map (fun f => (f.name, f.hash)) ↔
      e ∈ fs'.map (fun f => (f.name, f.hash))) ∧
    (∀ e, e ∈ ts.map (fun t => (t.name, t.hash)) ↔
      e ∈ ts'.map (fun t => (t.name, t.hash))) := by
  simp only [hashFiles, hashTrees, hashEntries] at h
  obtain ⟨hf, ht⟩ := flatMap_hashEntry_inj (by decide)
    (by simpa using hfs) (by simpa using hfs') (by simpa using hts)
    (by simpa using hts') h
  constructor
  · intro e
    rw [← List.mem_insertionSort (r := entryLE), hf, List.mem_insertionSort]
  · intro e
    rw [← List.mem_insertionSort (r := entryLE), ht, List.mem_insertionSort]

/-- Under an ideal hash, equal tree hashes have the same named file hashes and
the same named subtree hashes. -/
theorem treeHash_inj (hcf : CollisionFree H) (hfs : ∀ f ∈ fs, f.name.length < 2 ^ 32)
    (hfs' : ∀ f ∈ fs', f.name.length < 2 ^ 32) (hts : ∀ t ∈ ts, t.name.length < 2 ^ 32)
    (hts' : ∀ t ∈ ts', t.name.length < 2 ^ 32) (h : treeHash fs ts = treeHash fs' ts') :
    (∀ e, e ∈ fs.map (fun f => (f.name, f.hash)) ↔
      e ∈ fs'.map (fun f => (f.name, f.hash))) ∧
    (∀ e, e ∈ ts.map (fun t => (t.name, t.hash)) ↔
      e ∈ ts'.map (fun t => (t.name, t.hash))) :=
  entries_of_bytes_eq hfs hfs' hts hts' (hcf h)

theorem flatMap_bytes_append_inj {hs hs' : List H} {r r' : List UInt8}
    (hlen : hs.length = hs'.length)
    (h : hs.flatMap HashScheme.bytes ++ r = hs'.flatMap HashScheme.bytes ++ r') :
    hs = hs' ∧ r = r' := by
  induction hs generalizing hs' with
  | nil =>
      obtain rfl := List.eq_nil_of_length_eq_zero hlen.symm
      exact ⟨rfl, h⟩
  | cons x hs ih =>
      cases hs' with
      | nil => simp at hlen
      | cons x' hs' =>
          rw [List.flatMap_cons, List.flatMap_cons, List.append_assoc, List.append_assoc] at h
          obtain ⟨rfl, hrest⟩ := HashScheme.bytes_delimited h
          obtain ⟨rfl, rfl⟩ := ih (by simpa using hlen) hrest
          exact ⟨rfl, rfl⟩

theorem commit_of_bytes_eq {t t' : H} {ps ps' : List H} {m m' : List UInt8}
    (hps : ps.length < 2 ^ 32) (hps' : ps'.length < 2 ^ 32)
    (h : HashScheme.bytes t ++ be32 ps.length ++ ps.flatMap HashScheme.bytes ++
        be32 m.length ++ m =
      HashScheme.bytes t' ++ be32 ps'.length ++ ps'.flatMap HashScheme.bytes ++
        be32 m'.length ++ m') : t = t' ∧ ps = ps' ∧ m = m' := by
  simp only [List.append_assoc] at h
  obtain ⟨rfl, hrest⟩ := HashScheme.bytes_delimited h
  obtain ⟨hcount, hrest⟩ := List.append_inj hrest
    (rfl : (be32 ps.length).length = (be32 ps'.length).length)
  obtain ⟨rfl, hrest⟩ :=
    flatMap_bytes_append_inj (be32_injective_of_lt hps hps' hcount) hrest
  obtain ⟨-, hmessage⟩ := List.append_inj (List.append_cancel_left hrest)
    (rfl : (be32 m.length).length = (be32 m'.length).length)
  exact ⟨rfl, rfl, hmessage⟩

theorem commitHash_inj (hcf : CollisionFree H) {t t' : H} {ps ps' : List H} {m m' : Str}
    (hps : ps.length < 2 ^ 32) (hps' : ps'.length < 2 ^ 32)
    (h : commitHash t ps m = commitHash t' ps' m') : t = t' ∧ ps = ps' ∧ m = m' := by
  obtain ⟨htree, hparents, hmessage⟩ := commit_of_bytes_eq hps hps' (hcf h)
  exact ⟨htree, hparents, utf8_injective hmessage⟩

/-! ## The order of the entries -/

theorem hashEntries_congr (kind : UInt8) {es es' : List (List UInt8 × H)}
    (hes : (es.map Prod.fst).Nodup) (hes' : (es'.map Prod.fst).Nodup)
    (h : ∀ e, e ∈ es ↔ e ∈ es') : hashEntries kind es = hashEntries kind es' := by
  have hperm : es.Perm es' :=
    (List.perm_ext_iff_of_nodup (List.Nodup.of_map _ hes) (List.Nodup.of_map _ hes')).mpr h
  have htotal : Std.Total (entryLE (H := H)) := ⟨fun _ _ => le_total _ _⟩
  have htrans : IsTrans (List UInt8 × H) entryLE := ⟨fun _ _ _ => le_trans⟩
  have hsorted : es.insertionSort entryLE = es'.insertionSort entryLE := by
    refine List.Perm.eq_of_pairwise ?_ (List.pairwise_insertionSort entryLE es)
      (List.pairwise_insertionSort entryLE es')
      ((List.perm_insertionSort _ _).trans (hperm.trans (List.perm_insertionSort _ _).symm))
    -- entries below each other have the same name, so they are the same entry
    intro e e' he he' hle hle'
    have hname : e.1 = e'.1 :=
      (List.map_injective_iff.mpr fun _ _ => UInt8.toNat_inj.mp) (le_antisymm hle hle')
    refine List.inj_on_of_nodup_map hes ((List.mem_insertionSort _).mp he) ?_ hname
    exact (h e').mpr ((List.mem_insertionSort _).mp he')
  rw [hashEntries, hashEntries, hsorted]

theorem treeHash_congr (hfs : (fs.map FileEntry.name).Nodup) (hfs' : (fs'.map FileEntry.name).Nodup)
    (hts : (ts.map TreeEntry.name).Nodup) (hts' : (ts'.map TreeEntry.name).Nodup)
    (hF : ∀ e, e ∈ fs.map (fun f => (f.name, f.hash)) ↔
      e ∈ fs'.map (fun f => (f.name, f.hash))) (hT : ∀ e, e ∈ ts.map (fun t => (t.name, t.hash)) ↔
      e ∈ ts'.map (fun t => (t.name, t.hash))) : treeHash fs ts = treeHash fs' ts' := by
  have hf : hashFiles fs = hashFiles fs' :=
    hashEntries_congr _ (by rw [List.map_map]; exact hfs) (by rw [List.map_map]; exact hfs') hF
  have ht : hashTrees ts = hashTrees ts' :=
    hashEntries_congr _ (by rw [List.map_map]; exact hts) (by rw [List.map_map]; exact hts') hT
  rw [treeHash, treeHash, hf, ht]

end Scheme

/-! ## An ideal hash -/

/-- Digests that remember the byte string they were taken of. -/
inductive IdealHash where
  | zero
  | digest (bytes : List UInt8)
  deriving DecidableEq

namespace IdealHash

/-- Each byte is preceded by a continuation mark, and a different mark ends
the string. -/
def frame : List UInt8 → List UInt8
  | [] => [0]
  | b :: bs => 1 :: b :: frame bs

theorem frame_append_inj {l l' r r' : List UInt8}
    (h : frame l ++ r = frame l' ++ r') : l = l' ∧ r = r' := by
  induction l generalizing l' with
  | nil =>
      cases l' with
      | nil => simpa [frame] using h
      | cons b' bs' => simp [frame] at h
  | cons b bs ih =>
      cases l' with
      | nil => simp [frame] at h
      | cons b' bs' =>
          simp only [frame, List.cons_append, List.cons.injEq, true_and] at h
          obtain ⟨rfl, hrest⟩ := h
          obtain ⟨rfl, hr⟩ := ih hrest
          exact ⟨rfl, hr⟩

def toBytes : IdealHash → List UInt8
  | zero => [2]
  | digest l => frame l

theorem toBytes_ne_nil (h : IdealHash) : h.toBytes ≠ [] := by
  cases h with
  | zero => simp [toBytes]
  | digest l => cases l <;> simp [toBytes, frame]

theorem toBytes_delimited {h h' : IdealHash} {r r' : List UInt8}
    (heq : h.toBytes ++ r = h'.toBytes ++ r') : h = h' ∧ r = r' := by
  cases h with
  | zero =>
      cases h' with
      | zero => simpa [toBytes] using heq
      | digest l' => cases l' <;> simp [toBytes, frame] at heq
  | digest l =>
      cases h' with
      | zero => cases l <;> simp [toBytes, frame] at heq
      | digest l' =>
          obtain ⟨rfl, hr⟩ := frame_append_inj heq
          exact ⟨rfl, hr⟩

instance : HashScheme IdealHash where
  sum := digest
  bytes := toBytes
  zero := zero
  bytes_ne_nil := toBytes_ne_nil
  bytes_delimited := toBytes_delimited

theorem collisionFree : CollisionFree IdealHash := by
  intro l l' h
  exact digest.inj h

end IdealHash

end Nipa
