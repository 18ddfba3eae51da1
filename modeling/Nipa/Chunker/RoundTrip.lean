import Nipa.Chunker.Encode
import Nipa.Client.WorkingCopy
import Nipa.Merge.Strategies

/-!
# Stored content is loaded back

Encoding is a function of the content, not of the reads it comes in: the content
is cut into parts and each is stored, as it is or compressed.  Every way the
program decodes puts the parts together again.
-/

namespace Nipa

namespace Chunker

open Support

/-! ## The parts of a file -/

theorem configForFile_sane (path : Str) (isBinary : Bool) :
    ∃ c, (configForFile path isBinary).sanitized = .ok c := by
  simp only [configForFile]
  split
  · exact ⟨_, rfl⟩
  · split
    · exact ⟨_, rfl⟩
    · split <;> exact ⟨_, rfl⟩

def saneTextLarge : SaneConfig :=
  ⟨textLargeConfig, by decide, by decide, by decide, by decide, by decide⟩

theorem readUpTo_eq (r : Reader) (limit : ℕ) :
    readUpTo r limit =
      if r.rest.length ≤ limit then (r.rest, true) else (r.rest.take limit, false) := by
  rw [readUpTo]
  simp only [List.length_take]
  by_cases hle : r.rest.length ≤ limit
  · rw [if_neg (by omega), if_pos hle, List.take_of_length_le (by omega)]
  · rw [if_pos (by omega), if_neg hle, List.take_take, Nat.min_eq_left (Nat.le_succ limit)]

section Parts

variable {H : Type} [HashScheme H] (z : Zstd)

/-- What text is stored as: one part, or the chunks of the large-text sizes. -/
def textParts (content : List UInt8) : List (List UInt8) :=
  if content = [] then []
  else if content.length ≤ textSingleBlobRawMax ∧
      (z.encodeAll content).length ≤ textSingleBlobMax then [content]
  else (cutter saneTextLarge).pieces content

theorem textParts_flatten (content : List UInt8) : (textParts z content).flatten = content := by
  rw [textParts]
  split
  next h => rw [h]; rfl
  next =>
    split
    · exact List.flatten_singleton
    · exact Cutter.pieces_flatten _ content

theorem encodeText_eq {r : Reader} (h : r.Flowing) :
    (encodeText z r : Except String (List (EncodedChunk H))) =
      .ok ((textParts z r.rest).map (storedCompressed z)) := by
  have hlarge : textLargeConfig.sanitized = .ok saneTextLarge := rfl
  have hscan : (do
      let chunks : List (Chunk H) ← scan r textLargeConfig
      return chunks.map fun c => storedCompressed z c.data) =
        (.ok (((cutter saneTextLarge).pieces r.rest).map (storedCompressed z)) :
          Except String (List (EncodedChunk H))) := by
    rw [scan_eq h hlarge]
    change Except.ok _ = _
    rw [List.map_map]
    rfl
  rw [encodeText, readUpTo_eq]
  have hlimit : 0 < textSingleBlobRawMax := by decide
  by_cases hle : r.rest.length ≤ textSingleBlobRawMax
  · rw [if_pos hle, textParts]
    simp only [true_and, hle]
    split
    · rfl
    · split
      · rfl
      · exact hscan
  · have hne : r.rest ≠ [] := by
      rintro hnil
      rw [hnil] at hle
      exact hle (Nat.zero_le _)
    have hne' : r.rest.take textSingleBlobRawMax ≠ [] := by
      rw [Ne, List.take_eq_nil_iff]
      exact fun hnil => hnil.elim (by omega) hne
    rw [if_neg hle, textParts, if_neg hne, if_neg fun hsmall => hle hsmall.1]
    simp only [Bool.false_eq_true, false_and, if_false]
    rw [if_neg hne']
    exact hscan

/-- Chunks as a file is stored with an encoding: parts that make up the content,
as they are or compressed. -/
inductive Stored (content : List UInt8) : Str → List (EncodedChunk H) → Prop
  | raw (parts : List (List UInt8)) (hparts : parts.flatten = content) :
      Stored content encodingRaw (parts.map fun p => storedRaw (hashed p))
  | zstd (parts : List (List UInt8)) (hparts : parts.flatten = content) :
      Stored content encodingZstd (parts.map (storedCompressed z))

theorem encode_raw {r : Reader} (h : r.Flowing) {path : Str} {isBinary : Bool} {c : SaneConfig}
    (hcfg : (configForFile path isBinary).sanitized = .ok c) {encoding : Str}
    (hraw : (if encoding = [] then defaultEncoding isBinary else encoding) ≠ encodingZstd ∨
      isBinary = true) :
    (encode z r path isBinary encoding : Except String (Str × List (EncodedChunk H))) =
      .ok (encodingRaw, ((cutter c).pieces r.rest).map fun p => storedRaw (hashed p)) := by
  rw [encode, if_pos hraw, scanChunks, scan_eq h hcfg]
  change Except.ok _ = _
  rw [List.map_map]
  rfl

theorem encode_zstd {r : Reader} (h : r.Flowing) {path : Str} {isBinary : Bool} {encoding : Str}
    (hzstd : ¬((if encoding = [] then defaultEncoding isBinary else encoding) ≠ encodingZstd ∨
      isBinary = true)) :
    (encode z r path isBinary encoding : Except String (Str × List (EncodedChunk H))) =
      .ok (encodingZstd, (textParts z r.rest).map (storedCompressed z)) := by
  rw [encode, if_neg hzstd, encodeText_eq z h]
  rfl

/-- The encoding depends on the content alone, and encoding again with the
encoding returned gives the same chunks. -/
theorem encode_spec (content : List UInt8) (path : Str) (isBinary : Bool) (encoding : Str) :
    ∃ (used : Str) (chunks : List (EncodedChunk H)), Stored z content used chunks ∧
      ∀ r : Reader, r.Flowing → r.rest = content →
        encode z r path isBinary encoding = .ok (used, chunks) ∧
        encode z r path isBinary used = .ok (used, chunks) := by
  obtain ⟨c, hcfg⟩ := configForFile_sane path isBinary
  by_cases hraw : (if encoding = [] then defaultEncoding isBinary else encoding) ≠
      encodingZstd ∨ isBinary = true
  · refine ⟨_, _, Stored.raw _ (Cutter.pieces_flatten (cutter c) content), ?_⟩
    rintro r h rfl
    refine ⟨encode_raw z h hcfg hraw, encode_raw z h hcfg (Or.inl ?_)⟩
    rw [if_neg (by decide)]
    decide
  · refine ⟨_, _, Stored.zstd _ (textParts_flatten z content), ?_⟩
    rintro r h rfl
    refine ⟨encode_zstd z h hraw, encode_zstd z h ?_⟩
    rw [not_or] at hraw ⊢
    refine ⟨?_, hraw.2⟩
    rw [if_neg (by decide)]
    simp

end Parts

/-! ## Loading -/

section Loading

variable {H : Type} [HashScheme H] {z : Zstd} {content : List UInt8} {used : Str}
  {chunks : List (EncodedChunk H)}

theorem Stored.rawSizes (h : Stored z content used chunks) :
    (chunks.map EncodedChunk.rawSize).sum = content.length := by
  cases h with
  | raw parts hparts =>
      rw [← hparts, List.length_flatten, List.map_map]
      rfl
  | zstd parts hparts =>
      rw [← hparts, List.length_flatten, List.map_map]
      rfl

theorem Stored.parts (h : Stored z content used chunks) (hz : z.Inverts) :
    ∃ parts : List (List UInt8), parts.flatten = content ∧
      List.Forall₂ (fun (ch : EncodedChunk H) p =>
        ∀ dst, decodeAppend z dst used ch.data = .ok (dst ++ p)) chunks parts := by
  cases h with
  | raw parts hparts =>
      refine ⟨parts, hparts, ?_⟩
      rw [List.forall₂_map_left_iff, List.forall₂_same]
      exact fun p _ dst => if_pos (by decide)
  | zstd parts hparts =>
      refine ⟨parts, hparts, ?_⟩
      rw [List.forall₂_map_left_iff, List.forall₂_same]
      intro p _ dst
      have hone := hz [p] dst
      rw [List.flatMap_singleton, List.flatten_singleton] at hone
      rw [decodeAppend, if_neg (by simp)]
      exact congrArg (Except.mapError _) hone

theorem Stored.joined (h : Stored z content used chunks) (hz : z.Inverts) :
    decode z used (chunks.map EncodedChunk.data).flatten = .ok content := by
  cases h with
  | raw parts hparts =>
      rw [decode, if_pos (by decide), ← hparts, List.map_map]
      exact congrArg _ (congrArg _ (List.map_id parts))
  | zstd parts hparts =>
      rw [decode, if_neg (by simp), decodeAppend, if_neg (by simp), List.map_map]
      have hall := hz parts []
      rw [List.flatMap_def, hparts] at hall
      exact congrArg (Except.mapError _) hall

theorem decode_of_append {data p : List UInt8}
    (h : ∀ dst, decodeAppend z dst used data = .ok (dst ++ p)) : decode z used data = .ok p := by
  rw [decode]
  split
  next hraw =>
    have hnil := h []
    rwa [decodeAppend, if_pos hraw] at hnil
  next => exact h []

theorem loadContent_eq {parts : List (List UInt8)}
    (h : List.Forall₂ (fun (ch : EncodedChunk H) p =>
      ∀ dst, decodeAppend z dst used ch.data = .ok (dst ++ p)) chunks parts)
    {load : H → Except DomainError (List UInt8)}
    (hload : ∀ ch ∈ chunks, load ch.hash = .ok ch.data) (path : Str) :
    loadContent z load path used (chunks.map EncodedChunk.hash) = .ok parts.flatten := by
  have hfrom : ∀ dst, (chunks.map EncodedChunk.hash).foldlM (fun out h => do
      let data ← (load h).mapError (wrapError "load chunk %s for %s: " [hashString h, path])
      (decodeAppend z out used data).mapError
        (wrapError "decode chunk %s for %s: " [hashString h, path])) dst =
        .ok (dst ++ parts.flatten) := by
    induction h with
    | nil => exact fun dst => by rw [List.flatten_nil, List.append_nil]; rfl
    | cons hdecode _ ih =>
        intro dst
        have hrest := ih fun ch' hch' => hload ch' (List.mem_cons_of_mem _ hch')
        rw [List.map_cons, List.foldlM_cons, hload _ List.mem_cons_self]
        change ((decodeAppend z dst used _).mapError _ >>= _) = _
        rw [hdecode dst]
        change List.foldlM _ _ _ = _
        rw [hrest, List.flatten_cons, List.append_assoc]
  exact hfrom []

omit [HashScheme H] in
theorem loadFileContent_eq {parts : List (List UInt8)}
    (h : List.Forall₂ (fun (ch : EncodedChunk H) p =>
      ∀ dst, decodeAppend z dst used ch.data = .ok (dst ++ p)) chunks parts)
    {codec : Client.Codec H} (hdecode : codec.decode = decode z)
    (hload : ∀ ch ∈ chunks, codec.fetch ch.hash = .ok ch.data) :
    Client.loadFileContent codec used (chunks.map EncodedChunk.hash) = .ok parts.flatten := by
  have hmap : (chunks.map EncodedChunk.hash).mapM (fun h => do
      let data ← codec.fetch h
      codec.decode used data) = .ok parts := by
    induction h with
    | nil => rfl
    | cons hpart _ ih =>
        rw [List.map_cons, List.mapM_cons, hload _ List.mem_cons_self,
          ih fun ch' hch' => hload ch' (List.mem_cons_of_mem _ hch'), hdecode]
        change (decode z used _ >>= _) = _
        rw [decode_of_append hpart]
        rfl
  rw [Client.loadFileContent, hmap]
  rfl

theorem loadMergedContent_eq (h : Stored z content used chunks) (hz : z.Inverts)
    {store : ContentStore H} (hdecode : store.decode = decode z)
    (hload : ∀ ch ∈ chunks, store.get ch.hash = .ok ch.data) {file : Entry H}
    (hencoding : file.encoding = used)
    (hhashes : file.chunkHashes = chunks.map EncodedChunk.hash) :
    loadMergedContent store file = .ok content := by
  have hmap : (chunks.map EncodedChunk.hash).mapM store.get =
      .ok (chunks.map EncodedChunk.data) := by
    clear h hhashes
    induction chunks with
    | nil => rfl
    | cons ch chunks ih =>
        rw [List.map_cons, List.mapM_cons, hload ch List.mem_cons_self,
          ih fun ch' hch' => hload ch' (List.mem_cons_of_mem _ hch')]
        rfl
  rw [loadMergedContent, hhashes, hmap, hencoding, hdecode]
  exact h.joined hz

end Loading

/-- Encoding and loading is the identity: whatever the content, the path, the
binary flag and the encoding asked for, every way of loading the stored chunks
gives the content back, their raw sizes add up to its length, and encoding it
again with the encoding returned, in whatever reads, gives the same chunks. -/
theorem encode_load_identity {H : Type} [HashScheme H] (z : Zstd) (hz : z.Inverts)
    (content : List UInt8) (path : Str) (isBinary : Bool) (encoding : Str) :
    ∃ (used : Str) (chunks : List (EncodedChunk H)),
      encodeBytes z content path isBinary encoding = .ok (used, chunks) ∧
      (chunks.map EncodedChunk.rawSize).sum = content.length ∧
      encodeBytes z content path isBinary used = .ok (used, chunks) ∧
      (∀ r : Reader, r.Flowing → r.rest = content →
        encode z r path isBinary encoding = .ok (used, chunks) ∧
        encode z r path isBinary used = .ok (used, chunks)) ∧
      ∀ load : H → Except DomainError (List UInt8), (∀ ch ∈ chunks, load ch.hash = .ok ch.data) →
        (∀ p, loadContent z load p used (chunks.map EncodedChunk.hash) = .ok content) ∧
        (∀ (store : ContentStore H) (file : Entry H), store.get = load →
          store.decode = decode z → file.encoding = used →
          file.chunkHashes = chunks.map EncodedChunk.hash →
          loadMergedContent store file = .ok content) ∧
        ∀ codec : Client.Codec H, codec.fetch = load → codec.decode = decode z →
          Client.loadFileContent codec used (chunks.map EncodedChunk.hash) = .ok content := by
  obtain ⟨used, chunks, hstored, hencode⟩ := @encode_spec H _ z content path isBinary encoding
  have hreader : (newReader content).Flowing := fun _ => Nat.succ_pos _
  obtain ⟨hfirst, hagain⟩ := hencode (newReader content) hreader rfl
  obtain ⟨parts, hparts, hdecodes⟩ := hstored.parts hz
  refine ⟨used, chunks, hfirst, hstored.rawSizes, hagain, hencode, fun load hload => ⟨?_, ?_, ?_⟩⟩
  · intro p
    rw [loadContent_eq hdecodes hload, hparts]
  · rintro store file rfl hdecode hencoding hhashes
    exact loadMergedContent_eq hstored hz hdecode hload hencoding hhashes
  · rintro codec rfl hdecode
    rw [loadFileContent_eq hdecodes hdecode hload, hparts]

def shifted : Zstd := ⟨List.map (· + 1), fun data dst => .ok (dst ++ data.map (· - 1))⟩

theorem shifted_inverts : shifted.Inverts := by
  intro contents dst
  have hinv : (contents.flatMap (List.map (· + 1))).map (· - 1) = contents.flatten := by
    simp [List.map_flatMap, Function.comp_def]
  exact congrArg (fun data => Except.ok (dst ++ data)) hinv

theorem encode_load_identity_text :
    ∃ chunks : List (EncodedChunk IdealHash),
      encodeBytes shifted [0, 1, 2] "a.txt".toList false [] = .ok (encodingZstd, chunks) ∧
      ∀ load : IdealHash → Except DomainError (List UInt8),
        (∀ ch ∈ chunks, load ch.hash = .ok ch.data) → ∀ p,
          loadContent shifted load p encodingZstd (chunks.map EncodedChunk.hash) =
            .ok [0, 1, 2] := by
  obtain ⟨used, chunks, hencode, -, -, -, hload⟩ := @encode_load_identity IdealHash _ shifted
    shifted_inverts [0, 1, 2] "a.txt".toList false []
  have hstored : encodeBytes shifted [0, 1, 2] "a.txt".toList false [] =
      .ok (encodingZstd, [(storedCompressed shifted [0, 1, 2] : EncodedChunk IdealHash)]) := rfl
  obtain rfl := (Prod.mk.inj (Except.ok.inj (hstored.symm.trans hencode))).1
  exact ⟨chunks, hencode, fun load hloads => (hload load hloads).1⟩

end Chunker

end Nipa
