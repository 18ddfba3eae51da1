import Nipa.Preview.EXRHeaders

/-!
# OpenEXR blocks stay in their bounds

A block that is uncompressed has the bytes of its lines, and its samples are read and written
inside of it and of the image.
-/

namespace Nipa

open Support Faulty

namespace Preview

namespace EXRHeader

/-! ## Sizes of lines -/

/-- The bytes of one pixel in the first `n` channels. -/
def pixelBytes (h : EXRHeader) (n : ℕ) : ℕ :=
  ((h.channels.take n).map EXRChannel.size).sum

variable {h : EXRHeader}

variable {n : ℕ}

theorem pixelBytes_succ {ch : EXRChannel} (hch : h.channels[n]? = some ch) :
    h.pixelBytes (n + 1) = h.pixelBytes n + ch.size := by
  rw [pixelBytes, pixelBytes, List.take_add_one, hch, List.map_append, List.sum_append]
  rfl

theorem pixelBytes_mono {m : ℕ} (hmn : m ≤ n) : h.pixelBytes m ≤ h.pixelBytes n := by
  obtain ⟨k, rfl⟩ := Nat.exists_eq_add_of_le hmn
  rw [pixelBytes, pixelBytes, List.take_add, List.map_append, List.sum_append]
  exact Nat.le_add_right _ _

/-- The bytes of a pixel. -/
def allBytes (h : EXRHeader) : ℕ :=
  (h.channels.map EXRChannel.size).sum

theorem pixelBytes_length : h.pixelBytes h.channels.length = h.allBytes := by
  rw [pixelBytes, List.take_length, allBytes]

variable {channels : List EXRChannel}

theorem sum_size_le (hknown : ∀ ch ∈ channels, ch.Known) :
    (channels.map EXRChannel.size).sum ≤ 4 * channels.length := by
  induction channels with
  | nil => exact le_rfl
  | cons ch channels ih =>
      have hsize := (hknown ch List.mem_cons_self).size_le
      have hrest := ih fun c hc => hknown c (List.mem_cons_of_mem ch hc)
      rw [List.map_cons, List.sum_cons, List.length_cons]
      omega

theorem int64_natCast (hn : n < 2 ^ 63) : int64 n = n := by
  unfold int64
  rw [Int.bmod_eq_of_le]
  · omega
  · omega

/-- The lines that one block of the image can have. -/
def Area (w lines : ℕ) : Prop :=
  w * lines ≤ MaxPixels / 2

theorem block_lt {w lines : ℕ} (hchannels : KnownChannels n h.channels) (hn : n ≤ 2 ^ 40)
    (harea : Area w lines) : 4 * h.channels.length * (w * lines) < 2 ^ 63 := by
  have hroom := hchannels.room
  unfold Area MaxPixels at harea
  calc 4 * h.channels.length * (w * lines)
      ≤ 4 * h.channels.length * (8192 * 8192 / 2) := Nat.mul_le_mul_left _ harea
    _ < 2 ^ 63 := by omega

variable {width : ℕ}

theorem lineBytes_foldl (hlt : n + (channels.map EXRChannel.size).sum * width < 2 ^ 63) :
    channels.foldl (fun n ch => int64 (n + int64 (ch.size * width))) (n : ℤ)
      = (n + (channels.map EXRChannel.size).sum * width : ℕ) := by
  induction channels generalizing n with
  | nil => simp
  | cons ch channels ih =>
      rw [List.map_cons, List.sum_cons, Nat.add_mul] at hlt ⊢
      have hfirst : int64 ((n : ℤ) + int64 (ch.size * width)) = (n + ch.size * width : ℕ) := by
        have hproduct : int64 ((ch.size : ℤ) * width) = (ch.size * width : ℕ) := by
          rw [← Int.natCast_mul]
          exact int64_natCast (by omega)
        rw [hproduct, ← Int.natCast_add]
        exact int64_natCast (by omega)
      rw [List.foldl_cons, hfirst, ih (by omega), Nat.add_assoc]

theorem lineBytes_eq (hlt : h.allBytes * width < 2 ^ 63) :
    h.lineBytes width = (h.allBytes * width : ℕ) := by
  have hfold : h.channels.foldl (fun n ch => int64 (n + int64 (ch.size * width))) ((0 : ℕ) : ℤ)
      = (0 + h.allBytes * width : ℕ) :=
    lineBytes_foldl (by rw [Nat.zero_add]; exact hlt)
  rw [Nat.zero_add] at hfold
  exact hfold

/-! ## Uncompressed blocks -/

theorem safe_exrInflate (inflate : Inflate) (src : Bytes) (limit : ℕ) :
    Safe (exrInflate inflate src limit) fun _ => True := by
  unfold exrInflate
  split
  · exact Safe.pure trivial
  · exact Safe.fail _

theorem safe_exrPacket (limit : ℕ) (s : Bytes × Bytes) :
    Safe (exrPacket limit s) (Sum.elim (fun _ => True) fun s' =>
      True ∧ s'.2.length < s.2.length) := by
  unfold exrPacket
  refine Safe.ite (fun hmore => ?_) fun _ => Safe.pure trivial
  refine (Safe.elem hmore.1).bind fun b _ => (Safe.sliceFrom hmore.1).bind fun src hsrc => ?_
  generalize int8 b = n
  refine Safe.ite (fun _ => ?_) fun _ => Safe.ite (fun _ => Safe.pure trivial) fun hempty => ?_
  · refine (Safe.slice (Nat.zero_le _) (Nat.min_le_right _ _)).bind fun plain _ => ?_
    refine (Safe.sliceFrom (Nat.min_le_right _ _)).bind fun rest hrest => ?_
    exact Safe.pure ⟨trivial, by dsimp only; omega⟩
  · refine (Safe.elem (by omega)).bind fun b _ => ?_
    refine (Safe.sliceFrom (by omega)).bind fun rest hrest => ?_
    exact Safe.pure ⟨trivial, by dsimp only; omega⟩

theorem safe_exrRLE (src : Bytes) (limit : ℕ) : Safe (exrRLE src limit) fun _ => True :=
  Safe.loop (I := fun _ => True) (fun s : Bytes × Bytes => s.2.length) trivial
    (Nat.lt_succ_self _) fun s _ => safe_exrPacket limit s

theorem safe_exrUnpredict (t : Bytes) (want : ℕ) :
    Safe (exrUnpredict t want) fun out => out.length = want := by
  unfold exrUnpredict
  refine Safe.failIf_bind fun hlen => ?_
  have hwant : t.length = want := not_not.mp hlen
  refine (Safe.forRange (I := fun _ (s : Bytes) => s.length = t.length) rfl
    fun k hk s hs => ?_).bind fun s hs => ?_
  · refine (Safe.elem (by omega)).bind fun a _ => (Safe.elem (by omega)).bind fun b _ => ?_
    exact (Safe.store (by omega) _).mono fun s' hs' => hs'.trans hs
  · refine (Safe.mapM (T := fun _ => True) fun i hi => ?_).mono fun out hout => ?_
    · have hi' := List.mem_range.mp hi
      refine Safe.ite (fun _ => ?_) fun _ => ?_
      · exact (Safe.elem (by omega)).mono fun _ _ => trivial
      · exact (Safe.elem (by omega)).mono fun _ _ => trivial
    · rw [hout.1, List.length_range, hs, hwant]

theorem length_littleEndianBytes (n v : ℕ) : (littleEndianBytes n v).length = n := by
  induction n generalizing v with
  | zero => rfl
  | succ n ih => exact congrArg (· + 1) (ih (v / 256))

theorem safe_pxrChannel {tmp : Bytes} {layout : ℕ × ℕ × ℕ} {s : Bytes × ℕ}
    (hroom : s.2 + layout.1 * width ≤ tmp.length) :
    Safe (pxrChannel tmp width layout s) fun s' =>
      s'.1.length = s.1.length + layout.2.2 * width ∧ s'.2 = s.2 + layout.1 * width := by
  unfold pxrChannel
  refine (Safe.mapM (T := fun p : Bytes => p.length = width) fun i hi => ?_).bind
    fun planes hplanes => ?_
  · have hplane : i * width + width ≤ layout.1 * width := by
      rw [← Nat.succ_mul]
      exact Nat.mul_le_mul_right _ (List.mem_range.mp hi)
    exact (Safe.slice (by omega) (by omega)).mono fun p hp => by omega
  · rw [List.length_range] at hplanes
    refine (Safe.forRange (I := fun x (t : ℕ × Bytes) =>
      t.2.length = s.1.length + layout.2.2 * x) rfl fun x hx t ht => ?_).bind
      fun line hline => Safe.pure ⟨hline, rfl⟩
    refine (Safe.forRange (I := fun _ _ => True) trivial fun i hi d _ => ?_).bind fun delta _ => ?_
    · refine (Safe.elem (by omega)).bind fun p hp => ?_
      refine (Safe.elem (by rw [hplanes.2 p hp]; exact hx)).bind fun b _ => Safe.pure trivial
    · refine Safe.pure ?_
      dsimp only
      rw [List.length_append, ht, length_littleEndianBytes, Nat.mul_succ, Nat.add_assoc]

/-- The byte planes of a channel. -/
def planeCount (channels : List EXRChannel) : ℕ :=
  (channels.map fun ch => (pxrLayout ch.kind).1).sum

theorem pxrLayout_size {ch : EXRChannel} (h : ch.Known) : (pxrLayout ch.kind).2.2 = ch.size := by
  unfold pxrLayout
  cases h with
  | inl hhalf => rw [if_pos hhalf.1, hhalf.2]
  | inr hother =>
      rw [if_neg hother.1, hother.2]
      split
      · rfl
      · rfl

theorem pxrLayout_planes_le {ch : EXRChannel} (h : ch.Known) :
    (pxrLayout ch.kind).1 ≤ ch.size := by
  unfold pxrLayout
  cases h with
  | inl hhalf => rw [if_pos hhalf.1, hhalf.2]
  | inr hother =>
      rw [if_neg hother.1, hother.2]
      split
      · exact Nat.le_succ 3
      · exact le_rfl

theorem planeCount_le (hknown : ∀ ch ∈ channels, ch.Known) :
    planeCount channels ≤ (channels.map EXRChannel.size).sum := by
  unfold planeCount
  induction channels with
  | nil => exact le_rfl
  | cons ch channels ih =>
      rw [List.map_cons, List.map_cons, List.sum_cons, List.sum_cons]
      exact Nat.add_le_add (pxrLayout_planes_le (hknown ch List.mem_cons_self))
        (ih fun c hc => hknown c (List.mem_cons_of_mem ch hc))

theorem foldl_planes (channels : List EXRChannel) (n : ℕ) :
    channels.foldl (fun n ch => n + (pxrLayout ch.kind).1) n = n + planeCount channels := by
  unfold planeCount
  induction channels generalizing n with
  | nil => rfl
  | cons ch channels ih =>
      rw [List.foldl_cons, ih, List.map_cons, List.sum_cons, Nat.add_assoc]

theorem safe_pxrLine {tmp : Bytes} (hknown : ∀ ch ∈ channels, ch.Known) {s : Bytes × ℕ}
    (hroom : s.2 + planeCount channels * width ≤ tmp.length) :
    Safe (channels.foldlM (fun s ch => pxrChannel tmp width (pxrLayout ch.kind) s) s) fun s' =>
      s'.1.length = s.1.length + (channels.map EXRChannel.size).sum * width ∧
        s'.2 = s.2 + planeCount channels * width := by
  unfold planeCount at hroom ⊢
  induction channels generalizing s with
  | nil => exact Safe.pure ⟨by simp, by simp⟩
  | cons ch channels ih =>
      rw [List.map_cons, List.sum_cons, Nat.add_mul] at hroom
      rw [List.foldlM_cons]
      refine (safe_pxrChannel (by omega)).bind fun t ht => ?_
      rw [pxrLayout_size (hknown ch List.mem_cons_self)] at ht
      refine (ih (fun c hc => hknown c (List.mem_cons_of_mem ch hc)) (by omega)).mono
        fun u hu => ?_
      rw [List.map_cons, List.sum_cons, List.map_cons, List.sum_cons, Nat.add_mul, Nat.add_mul]
      omega

theorem safe_pxr24 {lines : ℕ} (hchannels : KnownChannels n h.channels) (hn : n ≤ 2 ^ 40)
    (harea : Area width lines) (inflate : Inflate) (src : Bytes) :
    Safe (h.pxr24 inflate src width lines) fun raw =>
      raw.length = h.allBytes * width * lines := by
  have hlt := block_lt hchannels hn harea
  have hplanes : planeCount h.channels * (width * lines)
      ≤ 4 * h.channels.length * (width * lines) :=
    Nat.mul_le_mul_right _ ((planeCount_le hchannels.known).trans (sum_size_le hchannels.known))
  have hsize : int64 ((planeCount h.channels : ℤ) * width * lines)
      = (planeCount h.channels * (width * lines) : ℕ) := by
    rw [Int.mul_assoc, ← Int.natCast_mul, ← Int.natCast_mul]
    exact int64_natCast (by omega)
  unfold pxr24
  rw [foldl_planes, Nat.zero_add]
  dsimp only
  rw [hsize]
  refine (safe_exrInflate inflate src _).bind fun tmp _ => Safe.failIf_bind fun hlen => ?_
  have htmp : tmp.length = planeCount h.channels * width * lines := by
    rw [Nat.mul_assoc]
    exact Int.ofNat_inj.mp (not_not.mp hlen)
  refine (Safe.forRange (I := fun line (s : Bytes × ℕ) =>
    s.1.length = h.allBytes * width * line ∧ s.2 = planeCount h.channels * width * line)
    ⟨rfl, rfl⟩ fun line hline s hs => ?_).bind fun s hs => Safe.pure hs.1
  have hroom : planeCount h.channels * width * line + planeCount h.channels * width
      ≤ tmp.length := by
    rw [htmp, ← Nat.mul_succ]
    exact Nat.mul_le_mul_left _ hline
  refine (safe_pxrLine hchannels.known (by omega)).mono fun t ht => ?_
  rw [Nat.mul_succ, Nat.mul_succ, ← hs.1, ← hs.2]
  exact ht

theorem safe_uncompress {lines : ℕ} (hchannels : KnownChannels n h.channels) (hn : n ≤ 2 ^ 40)
    (harea : Area width lines) (hlines : 0 < lines) (inflate : Inflate) (src : Bytes) :
    Safe (h.uncompress inflate src width lines) fun raw =>
      raw.length = h.allBytes * width * lines := by
  have hlt := block_lt hchannels hn harea
  have hall : h.allBytes * (width * lines) ≤ 4 * h.channels.length * (width * lines) :=
    Nat.mul_le_mul_right _ (sum_size_le hchannels.known)
  have hline : h.allBytes * width ≤ h.allBytes * width * lines := Nat.le_mul_of_pos_right _ hlines
  rw [← Nat.mul_assoc] at hall
  have hwant : int64 (h.lineBytes width * lines) = (h.allBytes * width * lines : ℕ) := by
    rw [lineBytes_eq (by omega), ← Int.natCast_mul]
    exact int64_natCast (by omega)
  unfold uncompress
  rw [hwant]
  generalize hsize : h.allBytes * width * lines = want
  refine Safe.failIf_bind fun _ => Safe.ite (fun _ => ?_) fun _ => ?_
  · refine Safe.failIf_bind fun hshort => ?_
    unfold sliceTo
    rw [if_pos (Int.natCast_nonneg want), Int.toNat_natCast]
    exact Safe.slice (Nat.zero_le _) (by omega)
  rw [Int.toNat_natCast]
  refine Safe.ite (fun _ => ?_) fun _ => Safe.ite (fun _ => ?_) fun _ => ?_
  · exact (safe_exrRLE src want).bind fun t _ => safe_exrUnpredict t want
  · exact (safe_exrInflate inflate src want).bind fun t _ => safe_exrUnpredict t want
  · exact (safe_pxr24 hchannels hn harea inflate src).mono fun raw hraw => hraw.trans hsize

/-! ## Placed samples -/

section Place

variable {F : Type} (fl : Floats F)

theorem safe_exrSample {b : Bytes} {ch : EXRChannel} (hch : ch.Known) (hb : ch.size ≤ b.length) :
    Safe (exrSample fl b ch.kind) fun _ => True := by
  unfold EXRChannel.Known at hch
  unfold exrSample
  refine Safe.ite (fun hhalf => ?_) fun hhalf => Safe.ite (fun _ => ?_) fun _ => ?_
  · exact (safe_littleEndian (by omega)).bind fun _ _ => Safe.pure trivial
  · exact (safe_littleEndian (by omega)).bind fun _ _ => Safe.pure trivial
  · exact (safe_littleEndian (by omega)).bind fun _ _ => Safe.pure trivial

theorem safe_putSlot {img : FloatImage F} {w h i slot : ℕ} (himg : img.Sized w h)
    (hi : i + 3 < w * h * 4) (hslot : slot ≤ 4) (v : F) :
    Safe (putSlot img i slot v) (Raster.Sized w h) := by
  unfold putSlot
  refine Safe.ite (fun _ => ?_) fun hcolor => Raster.safe_put himg (by omega) v
  refine (Raster.safe_put himg (by omega) v).bind fun img himg => ?_
  exact (Raster.safe_put himg (by omega) v).bind fun img himg =>
    Raster.safe_put himg (by omega) v

/-- A block of the image: its place, and the bytes of its lines. -/
structure Block (h : EXRHeader) (width height x0 y0 w lines : ℕ) (raw : Bytes) : Prop where
  right : x0 + w ≤ width
  bottom : y0 + lines ≤ height
  length_eq : raw.length = h.allBytes * w * lines

theorem Block.sample_room {width height x0 y0 w lines : ℕ} {raw : Bytes}
    (hblock : h.Block width height x0 y0 w lines raw) {line ci x : ℕ} {ch : EXRChannel}
    (hline : line < lines) (hch : h.channels[ci]? = some ch) (hx : x < w) :
    line * (h.allBytes * w) + h.pixelBytes ci * w + x * ch.size + ch.size ≤ raw.length := by
  have hci : ci < h.channels.length := (List.getElem?_eq_some_iff.mp hch).1
  have hsize : (x + 1) * ch.size ≤ w * ch.size := Nat.mul_le_mul_right _ hx
  have hpixel : (h.pixelBytes ci + ch.size) * w ≤ h.allBytes * w := by
    rw [← pixelBytes_succ hch, ← pixelBytes_length]
    exact Nat.mul_le_mul_right _ (pixelBytes_mono hci)
  have hlines : (line + 1) * (h.allBytes * w) ≤ raw.length := by
    rw [hblock.length_eq, Nat.mul_comm _ lines]
    exact Nat.mul_le_mul_right _ hline
  rw [Nat.succ_mul] at hsize hlines
  rw [Nat.add_mul, Nat.mul_comm ch.size w] at hpixel
  omega

theorem safe_place {n width height x0 y0 w lines : ℕ} {raw : Bytes}
    (hchannels : KnownChannels n h.channels) {pick : List (Option ℕ)} (hpick : h.Picked pick)
    (hblock : h.Block width height x0 y0 w lines raw) {img : FloatImage F}
    (himg : img.Sized width height) :
    Safe (h.place fl raw img pick x0 y0 w lines) (Raster.Sized width height) := by
  unfold place
  refine (Safe.forRange (I := fun line (s : ℕ × FloatImage F) =>
    s.1 = line * (h.allBytes * w) ∧ s.2.Sized width height)
    ⟨(Nat.zero_mul _).symm, himg⟩ fun line hline s hs => ?_).bind fun s hs => Safe.pure hs.2
  refine (Safe.forRange (I := fun ci (s : ℕ × FloatImage F) =>
    s.1 = line * (h.allBytes * w) + h.pixelBytes ci * w ∧ s.2.Sized width height)
    ⟨?_, hs.2⟩ fun ci hci t ht => ?_).mono fun t ht => ⟨?_, ht.2⟩
  · have hzero : h.pixelBytes 0 = 0 := rfl
    rw [hs.1, hzero, Nat.zero_mul, Nat.add_zero]
  · have hch : h.channels[ci]? = some h.channels[ci] := List.getElem?_eq_getElem hci
    have hknown := hchannels.known _ (List.getElem_mem hci)
    refine (Safe.elem_eq hch).bind fun ch hsame => ?_
    subst hsame
    refine (Safe.elem (by rw [hpick.length_eq]; exact hci)).bind fun slot hslot => ?_
    refine (Safe.forRange (I := fun x (s : ℕ × FloatImage F) =>
      s.1 = line * (h.allBytes * w) + h.pixelBytes ci * w + x * h.channels[ci].size ∧
        s.2.Sized width height) ⟨?_, ht.2⟩ fun x hx u hu => ?_).mono fun u hu => ⟨?_, hu.2⟩
    · rw [ht.1, Nat.zero_mul, Nat.add_zero]
    · have hnext : u.1 + h.channels[ci].size = line * (h.allBytes * w) + h.pixelBytes ci * w +
          (x + 1) * h.channels[ci].size := by
        rw [hu.1, Nat.succ_mul, Nat.add_assoc]
      cases slot with
      | none => exact Safe.pure ⟨hnext, hu.2⟩
      | some slot =>
          have hroom := hblock.sample_room hline hch hx
          refine (Safe.sliceFrom (by rw [hu.1]; omega)).bind fun rest hrest => ?_
          refine (safe_exrSample fl hknown (by rw [hrest, hu.1]; omega)).bind fun v _ => ?_
          have hright := hblock.right
          have hbottom := hblock.bottom
          have hpixel : ((y0 + line) * s.2.width + x0 + x) * 4 + 3 < width * height * 4 := by
            rw [hs.2.width_eq, Nat.add_assoc]
            exact Raster.sample_lt (by omega) (by omega) (by omega)
          refine (safe_putSlot hu.2 hpixel (hpick.slot_le slot hslot) v).bind fun img himg => ?_
          exact Safe.pure ⟨hnext, himg⟩
    · rw [hu.1, pixelBytes_succ hch, Nat.add_mul, Nat.mul_comm w, Nat.add_assoc]
  · rw [ht.1, pixelBytes_length, Nat.succ_mul]

end Place

end EXRHeader

end Preview

end Nipa
