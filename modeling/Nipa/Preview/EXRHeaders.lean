import Mathlib.Algebra.BigOperators.Group.List.Basic
import Nipa.Preview.EXR

/-!
# What an OpenEXR header promises

A header that is read has channels of known kinds, not more of them than the file has room
for, and each channel feeds at most one sample.
-/

namespace Nipa

open Support Faulty

namespace Preview

/-! ## Attributes -/

theorem safe_quotient {a b : ℕ} (hb : b ≠ 0) : Safe (quotient a b) fun q => q = a / b := by
  unfold quotient
  rw [if_neg hb]
  exact rfl

theorem safe_cstring {data : Bytes} {pos : ℕ} (hpos : pos ≤ data.length) :
    Safe (cstring data pos) fun r => pos < r.2 ∧ r.2 ≤ data.length := by
  unfold cstring
  refine (Safe.sliceFrom hpos).bind fun rest hrest => ?_
  cases hstop : rest.idxOf? 0 with
  | none => exact Safe.fail _
  | some stop =>
      have hlt : stop < rest.length := (List.idxOf?_eq_some_iff.mp hstop).1
      refine (Safe.slice (by omega) (by omega)).bind fun s _ => Safe.pure ?_
      dsimp only
      omega

/-- The size of a sample fits the kind of the channel. -/
def EXRChannel.Known (ch : EXRChannel) : Prop :=
  ch.kind = exrHalf ∧ ch.size = 2 ∨ ch.kind ≠ exrHalf ∧ ch.size = 4

theorem EXRChannel.Known.size_le {ch : EXRChannel} (h : ch.Known) : ch.size ≤ 4 := by
  unfold Known at h
  omega

/-- Known channels, each of which took at least 17 of `n` bytes. -/
structure KnownChannels (n : ℕ) (channels : List EXRChannel) : Prop where
  known : ∀ ch ∈ channels, ch.Known
  room : channels.length * 17 ≤ n

theorem KnownChannels.nil (n : ℕ) : KnownChannels n [] :=
  ⟨fun _ h => absurd h List.not_mem_nil, by simp⟩

theorem KnownChannels.mono {n n' : ℕ} {channels : List EXRChannel}
    (h : KnownChannels n channels) (hle : n ≤ n') : KnownChannels n' channels :=
  ⟨h.known, h.room.trans hle⟩

theorem safe_exrChannelSize (kind : ℕ) :
    Safe (exrChannelSize kind) fun size =>
      kind = exrHalf ∧ size = 2 ∨ kind ≠ exrHalf ∧ size = 4 := by
  unfold exrChannelSize
  refine Safe.ite (fun hhalf => Safe.pure (Or.inl ⟨hhalf, rfl⟩)) fun hhalf => ?_
  exact Safe.ite (fun _ => Safe.pure (Or.inr ⟨hhalf, rfl⟩)) fun _ => Safe.fail _

theorem safe_exrChannelEntry {n : ℕ} {s : List EXRChannel × Bytes}
    (hs : (∀ ch ∈ s.1, ch.Known) ∧ s.1.length * 17 + s.2.length ≤ n) :
    Safe (exrChannelEntry s) (Sum.elim (KnownChannels n) fun s' =>
      ((∀ ch ∈ s'.1, ch.Known) ∧ s'.1.length * 17 + s'.2.length ≤ n) ∧
        s'.2.length < s.2.length) := by
  have hdone : KnownChannels n s.1 := ⟨hs.1, by omega⟩
  unfold exrChannelEntry
  split
  case h_1 => exact Safe.pure hdone
  case h_2 => exact Safe.ite (fun _ => Safe.pure hdone) fun _ => Safe.fail _
  case h_3 stop _ _ =>
      refine Safe.failIf_bind fun hlen => ?_
      refine (Safe.slice (by omega) (by omega)).bind fun name _ => ?_
      refine (Safe.sliceFrom (by omega)).bind fun k hk => (safe_littleEndian (by omega)).bind
        fun kind _ => ?_
      refine (Safe.sliceFrom (by omega)).bind fun x hx => (safe_littleEndian (by omega)).bind
        fun xs _ => ?_
      refine (Safe.sliceFrom (by omega)).bind fun y hy => (safe_littleEndian (by omega)).bind
        fun ys _ => ?_
      refine (safe_exrChannelSize kind).bind fun size hsize => ?_
      refine (Safe.sliceFrom (by omega)).bind fun rest hrest => ?_
      refine Safe.pure ⟨⟨fun ch hch => ?_, ?_⟩, by dsimp only; omega⟩
      · cases List.mem_append.mp hch with
        | inl hmem => exact hs.1 ch hmem
        | inr hlast =>
            rw [List.mem_singleton.mp hlast]
            exact hsize
      · rw [List.length_append, List.length_singleton]
        dsimp only
        omega

theorem safe_parseEXRChannels (v : Bytes) :
    Safe (parseEXRChannels v) (KnownChannels v.length) :=
  Safe.loop (fun s : List EXRChannel × Bytes => s.2.length)
    ⟨fun _ h => absurd h List.not_mem_nil, by simp⟩ (Nat.lt_succ_self _)
    fun _ hs => safe_exrChannelEntry hs

theorem safe_exrInt32 {data : Bytes} {o : ℕ} (h : o + 4 ≤ data.length) :
    Safe (exrInt32 data o) fun _ => True := by
  unfold exrInt32
  refine (Safe.sliceFrom (by omega)).bind fun rest hrest => ?_
  exact (safe_littleEndian (by omega)).bind fun _ _ => Safe.pure trivial

theorem safe_exrAttribute {n : ℕ} {h : EXRHeader} (hh : KnownChannels n h.channels)
    (name : Bytes) {value : Bytes} (hvalue : value.length ≤ n) :
    Safe (exrAttribute h name value) fun r => KnownChannels n r.1.channels := by
  unfold exrAttribute
  refine Safe.ite (fun _ => ?_) fun _ => Safe.ite (fun _ => ?_) fun _ => ?_
  · exact (safe_parseEXRChannels value).bind fun channels hchannels =>
      Safe.pure (hchannels.mono hvalue)
  · refine Safe.failIf_bind fun hlen => ?_
    exact (Safe.elem (by omega)).bind fun _ _ => Safe.pure hh
  refine Safe.ite (fun _ => ?_) fun _ => Safe.ite (fun _ => ?_) fun _ => Safe.pure hh
  · refine Safe.failIf_bind fun hlen => ?_
    refine (safe_exrInt32 (by omega)).bind fun minX _ => ?_
    refine (safe_exrInt32 (by omega)).bind fun minY _ => ?_
    refine (safe_exrInt32 (by omega)).bind fun maxX _ => ?_
    exact (safe_exrInt32 (by omega)).bind fun maxY _ => Safe.pure hh
  · refine Safe.failIf_bind fun hlen => ?_
    refine (Safe.sliceFrom (by omega)).bind fun a ha => (safe_littleEndian (by omega)).bind
      fun _ _ => ?_
    refine (Safe.sliceFrom (by omega)).bind fun b hb => (safe_littleEndian (by omega)).bind
      fun _ _ => ?_
    exact Safe.pure hh

theorem safe_exrAttributeEntry {data : Bytes} {s : EXRHeader × Bool × ℕ}
    (hs : KnownChannels data.length s.1.channels ∧ s.2.2 ≤ data.length) :
    Safe (exrAttributeEntry data s)
      (Sum.elim (fun r => KnownChannels data.length r.1.channels ∧ r.2.2 ≤ data.length) fun s' =>
        (KnownChannels data.length s'.1.channels ∧ s'.2.2 ≤ data.length) ∧
          data.length - s'.2.2 < data.length - s.2.2) := by
  unfold exrAttributeEntry
  refine (safe_cstring hs.2).bind fun name hname => ?_
  refine Safe.ite (fun _ => Safe.pure ⟨hs.1, hname.2⟩) fun _ => ?_
  refine (safe_cstring hname.2).bind fun kind hkind => Safe.failIf_bind fun hroom => ?_
  refine (Safe.sliceFrom hkind.2).bind fun rest hrest => ?_
  refine (safe_littleEndian (by omega)).bind fun size _ => Safe.failIf_bind fun hsize => ?_
  refine (Safe.slice (by omega) (by omega)).bind fun value hvalue => ?_
  refine (safe_exrAttribute hs.1 name.1 (by omega)).bind fun r hr => ?_
  exact Safe.pure ⟨⟨hr, by dsimp only; omega⟩, by dsimp only; omega⟩

/-- What is known of a header that was read from `n` bytes. -/
structure EXRHeader.Checked (h : EXRHeader) (n : ℕ) : Prop where
  channels : KnownChannels n h.channels
  channels_ne : h.channels ≠ []
  compression_nonneg : 0 ≤ h.compression
  tiles : h.tiled = true → h.tileWidth ≠ 0 ∧ h.tileHeight ≠ 0

theorem safe_parseEXRHeader (data : Bytes) :
    Safe (parseEXRHeader data) fun h => h.Checked data.length := by
  unfold parseEXRHeader
  refine Safe.failIf_bind fun hlen => (safe_littleEndian (by omega)).bind fun magic _ => ?_
  refine Safe.failIf_bind fun _ => (Safe.sliceFrom (by omega)).bind fun rest hrest => ?_
  refine (safe_littleEndian (by omega)).bind fun flags _ => Safe.failIf_bind fun _ => ?_
  refine Safe.failIf_bind fun _ => ?_
  refine (Safe.loop (I := fun s : EXRHeader × Bool × ℕ =>
      KnownChannels data.length s.1.channels ∧ s.2.2 ≤ data.length)
    (fun s => data.length - s.2.2) ⟨KnownChannels.nil _, not_lt.mp hlen⟩ (by dsimp only; omega)
    fun s hs => safe_exrAttributeEntry hs).bind fun s hs => ?_
  refine Safe.failIf_bind fun hcheck => Safe.pure ⟨hs.1, ?_, ?_, ?_⟩
  · intro hnil
    exact hcheck (Or.inl (List.length_eq_zero_iff.mpr hnil))
  · dsimp only
    omega
  · intro htiled
    dsimp only at htiled ⊢
    have htiles : ¬ (s.1.tileWidth ≤ 0 ∨ s.1.tileHeight ≤ 0) := fun hzero =>
      hcheck (Or.inr (Or.inr (Or.inr ⟨htiled, hzero⟩)))
    omega

/-! ## Channels -/

namespace EXRHeader

variable {h : EXRHeader}

theorem channelOf_lt {layer : Bytes} {base : String} {i : ℕ}
    (hi : h.channelOf layer base = some i) : i < h.channels.length := by
  have hmem := List.mem_of_find?_eq_some hi
  rwa [List.mem_reverse, List.mem_range] at hmem

theorem slots_spec (hne : h.channels ≠ []) :
    ∀ slot ∈ h.slots, slot.1 < h.channels.length ∧ slot.2 ≤ 4 := by
  have hpos : 0 < h.channels.length := List.length_pos_iff.mpr hne
  intro slot hslot
  unfold slots at hslot
  split at hslot
  case h_1 =>
      rw [List.mem_singleton.mp hslot]
      exact ⟨hpos, le_rfl⟩
  case h_2 layer _ =>
      obtain ⟨named, hnamed, hfound⟩ := List.mem_filterMap.mp hslot
      obtain ⟨i, hi, rfl⟩ := Option.map_eq_some_iff.mp hfound
      refine ⟨channelOf_lt hi, ?_⟩
      -- no slot is above 4
      have hall : ∀ p ∈ [("R", 0), ("G", 1), ("B", 2), ("A", 3), ("Y", 4), ("A", 3)],
          p.2 ≤ 4 := by decide
      apply hall
      split at hnamed
      · exact List.mem_append_left _ hnamed
      · exact List.mem_append_right [("R", 0), ("G", 1), ("B", 2), ("A", 3)] hnamed

/-- One slot for each channel, and none above 4. -/
structure Picked (h : EXRHeader) (pick : List (Option ℕ)) : Prop where
  length_eq : pick.length = h.channels.length
  slot_le : ∀ slot, some slot ∈ pick → slot ≤ 4

theorem safe_displayChannels (hne : h.channels ≠ []) :
    Safe h.displayChannels fun r => h.Picked r.1 := by
  unfold displayChannels
  refine (Safe.foldlM (I := h.Picked) ⟨List.length_replicate, fun slot hslot => ?_⟩
    fun slot hslot pick hpick => ?_).bind fun pick hpick => ?_
  · cases (List.mem_replicate.mp hslot).2
  · obtain ⟨hlt, hle⟩ := slots_spec hne slot hslot
    unfold store
    rw [if_pos (by rw [hpick.length_eq]; exact hlt)]
    refine Safe.ok ⟨List.length_set.trans hpick.length_eq, fun slot' hslot' => ?_⟩
    cases List.mem_or_eq_of_mem_set hslot' with
    | inl hmem => exact hpick.slot_le slot' hmem
    | inr hsame =>
        rw [Option.some.inj hsame]
        exact hle
  · refine (Safe.forRange (I := fun _ _ => True) trivial fun i hi depth _ => ?_).bind
      fun depth _ => Safe.pure hpick
    refine (Safe.elem hi).bind fun slot _ => ?_
    cases slot with
    | none => exact Safe.pure trivial
    | some slot =>
        refine (Safe.elem (by rw [← hpick.length_eq]; exact hi)).bind fun ch _ => ?_
        exact Safe.failIf_bind fun _ => Safe.pure trivial

end EXRHeader

end Preview

end Nipa
