import Nipa.Preview.Image

/-!
# Radiance

Lines of text up to an empty one, a line with the sides, and the scanlines, in the adaptive
run-length format, in the old one or pixel by pixel.
-/

namespace Nipa

open Support Faulty

namespace Preview

/-! ## Text -/

/-- The line that starts at a position, and where the next one starts. -/
def nextLine (data : Bytes) (pos : ℕ) : Decoder (Option (Bytes × ℕ)) := do
  let rest ← sliceFrom data pos
  match rest.idxOf? 10 with
  | none => return none
  | some stop =>
      let line ← slice data pos (pos + stop)
      return some (line.rdropWhile fun b => b = 13, pos + stop + 1)

/-- The bytes of the white space character that a text starts with. -/
def spaceLength : Bytes → ℕ
  | 0xc2 :: b :: _ => if b = 0x85 ∨ b = 0xa0 then 2 else 0
  | 0xe1 :: 0x9a :: 0x80 :: _ => 3
  | 0xe2 :: 0x80 :: b :: _ =>
      if 0x80 ≤ b ∧ b ≤ 0x8a ∨ b = 0xa8 ∨ b = 0xa9 ∨ b = 0xaf then 3 else 0
  | 0xe2 :: 0x81 :: 0x9f :: _ => 3
  | 0xe3 :: 0x80 :: 0x80 :: _ => 3
  | b :: _ => if 9 ≤ b ∧ b ≤ 13 ∨ b = 32 then 1 else 0
  | [] => 0

/-- The fields between white space; `field` is the one that has begun, `skip` what is left of
a white space character. -/
def fieldsFrom (field : Bytes) : ℕ → Bytes → List Bytes
  | _, [] => if field = [] then [] else [field]
  | skip + 1, _ :: bs => fieldsFrom field skip bs
  | 0, b :: bs =>
      match spaceLength (b :: bs) with
      | 0 => fieldsFrom (field ++ [b]) 0 bs
      | n + 1 => if field = [] then fieldsFrom [] n bs else field :: fieldsFrom [] n bs

def fields (line : Bytes) : List Bytes :=
  fieldsFrom [] 0 line

def digitsValue (digits : Bytes) : ℕ :=
  digits.foldl (fun n d => 10 * n + (d.toNat - 48)) 0

/-- The decimal number, if there is one and it has 64 bits. -/
def atoi (s : Bytes) : Option ℤ :=
  let negative := s.head? = some 45
  let digits := if negative ∨ s.head? = some 43 then s.tail else s
  let v : ℤ := if negative then -digitsValue digits else digitsValue digits
  if digits ≠ [] ∧ (digits.all fun d => 48 ≤ d ∧ d ≤ 57) ∧ -2 ^ 63 ≤ v ∧ v < 2 ^ 63 then some v
  else none

/-- One line of the header; an empty one ends it. -/
def headerLine (data : Bytes) (pos : ℕ) : Decoder (ℕ ⊕ ℕ) := do
  match ← nextLine data pos with
  | none => fail .hdrHeader
  | some (line, pos) =>
      if line = [] then return .inl pos
      else
        let format := ascii "FORMAT="
        failIf (format.isPrefixOf line ∧ line.drop format.length ≠ ascii "32-bit_rle_rgbe")
          (.unsupported (ascii "radiance format " ++ line.drop format.length))
        return .inr pos

/-! ## Scanlines -/

/-- A run of one channel in the adaptive format. -/
def rgbeRun (data : Bytes) (width c : ℕ) (s : ℕ × ℕ × Bytes) :
    Decoder (ℕ × Bytes ⊕ ℕ × ℕ × Bytes) :=
  let x := s.1
  if x < width then do
    failIf (s.2.1 ≥ data.length) .hdrTruncated
    let count := (← elem data s.2.1).toNat
    let pos := s.2.1 + 1
    if count > 128 then
      let count := count - 128
      failIf (count > width - x ∨ pos ≥ data.length) .hdrTruncated
      let scan ← forRange count s.2.2 fun scan k => do
        store scan ((x + k) * 4 + c) (← elem data pos)
      return .inr (x + count, pos + 1, scan)
    else
      failIf (count = 0 ∨ count > width - x ∨ pos + count > data.length) .hdrTruncated
      let scan ← forRange count s.2.2 fun scan k => do
        store scan ((x + k) * 4 + c) (← elem data (pos + k))
      return .inr (x + count, pos + count, scan)
  else return .inl s.2

/-- A pixel, or a repetition of the last one. -/
def rgbePixel (data : Bytes) (width : ℕ) (s : ℕ × ℕ × ℕ × Bytes) :
    Decoder (ℕ × Bytes ⊕ ℕ × ℕ × ℕ × Bytes) :=
  let x := s.1
  let pos := s.2.1
  let shift := s.2.2.1
  if x < width then do
    failIf (pos + 4 > data.length) .hdrTruncated
    let p ← slice data pos (pos + 4)
    if (← elem p 0) = 1 ∧ (← elem p 1) = 1 ∧ (← elem p 2) = 1 ∧ x > 0 then
      let count := int64 ((← elem p 3).toNat * 2 ^ shift)
      failIf (count > (width : ℤ) - x) .hdrTruncated
      let scan ← forRange count.toNat s.2.2.2 fun scan k => do
        copy scan ((x + k) * 4) ((x + k) * 4 + 4)
          (← slice scan ((x + k - 1) * 4) ((x + k) * 4))
      return .inr (x + count.toNat, pos + 4, shift + 8, scan)
    else
      let scan ← copy s.2.2.2 (x * 4) (x * 4 + 4) p
      return .inr (x + 1, pos + 4, 0, scan)
  else return .inl (pos, s.2.2.2)

/-- The width that the start of an adaptive scanline gives. -/
def adaptiveWidth : Bytes → Option ℕ
  | b₀ :: b₁ :: b₂ :: b₃ :: _ =>
      if b₀ = 2 ∧ b₁ = 2 ∧ b₂ &&& 0x80 = 0 then some (b₂.toNat <<< 8 ||| b₃.toNat) else none
  | _ => none

/-- The bytes that the scanline takes, and its pixels. -/
def readRGBEScanline (data scan : Bytes) : Decoder (ℕ × Bytes) :=
  let width := scan.length / 4
  match if 8 ≤ width ∧ width < 0x8000 then adaptiveWidth data else none with
  | some w => do
      failIf (w ≠ width) .hdrHeader
      forRange 4 (4, scan) fun s c =>
        loop (rgbeRun data width c) (data.length + 1) (0, s)
  | none => loop (rgbePixel data width) (data.length + 1) (0, 0, 0, scan)

/-! ## The decoder -/

/-- The pixels of one row. -/
def placeScanline {F : Type} (fl : Floats F) (scan : Bytes) (width row : ℕ)
    (img : FloatImage F) : Decoder (FloatImage F) :=
  forRange width img fun img x => do
    let i := (row * width + x) * 4
    let s ← sliceFrom scan (x * 4)
    let img ← img.put (i + 3) fl.one
    let e ← elem s 3
    if e = 0 then return img
    else
      let img ← img.put i (fl.ldexp (← elem s 0) e)
      let img ← img.put (i + 1) (fl.ldexp (← elem s 1) e)
      img.put (i + 2) (fl.ldexp (← elem s 2) e)

/-- The sides in the resolution line, and whether the rows go up. -/
def resolution (line : Bytes) : Decoder (ℤ × ℤ × Bool) :=
  match fields line with
  | [ySign, ys, xSign, xs] =>
      if xSign = ascii "+X" ∧ (ySign = ascii "-Y" ∨ ySign = ascii "+Y") then
        match atoi ys, atoi xs with
        | some height, some width => return (width, height, ySign = ascii "+Y")
        | _, _ => fail .hdrHeader
      else fail (.orientation line)
  | _ => fail (.orientation line)

def decodeRadiance {F : Type} (fl : Floats F) (data : Bytes) : Decoder (Image F) := do
  failIf (¬ (ascii "#?").isPrefixOf data) .hdrHeader
  let pos ← loop (headerLine data) (data.length + 1) 0
  match ← nextLine data pos with
  | none => fail .hdrHeader
  | some (line, pos) =>
      let (w, h, up) ← resolution line
      checkFloatSize w h
      failIf ((data.length : ℤ) - pos < 4 * h) .hdrTruncated
      let width := w.toNat
      let height := h.toNat
      let s ← forRange height (pos, List.replicate (width * 4) 0, Raster.blank width height fl.zero)
        fun s y => do
          let (n, scan) ← readRGBEScanline (← sliceFrom data s.1) s.2.1
          let row := if up then height - 1 - y else y
          return (s.1 + n, scan, ← placeScanline fl scan width row s.2.2)
      Image.ofHDR fl s.2.2 (ascii "hdr") (ascii "RGBE") 32 []

/-! ## Lines stay in the data -/

theorem safe_nextLine {data : Bytes} {pos : ℕ} (hpos : pos ≤ data.length) :
    Safe (nextLine data pos) fun r => ∀ line next, r = some (line, next) →
      pos < next ∧ next ≤ data.length := by
  unfold nextLine
  refine (Safe.sliceFrom hpos).bind fun rest hrest => ?_
  cases hstop : rest.idxOf? 10 with
  | none =>
      refine Safe.pure fun line next h => ?_
      cases h
  | some stop =>
      have hlt : stop < rest.length := (List.idxOf?_eq_some_iff.mp hstop).1
      refine (Safe.slice (by omega) (by omega)).bind fun line _ => Safe.pure ?_
      rintro _ _ ⟨⟩
      omega

theorem safe_headerLine {data : Bytes} {pos : ℕ} (hpos : pos ≤ data.length) :
    Safe (headerLine data pos) (Sum.elim (fun next => next ≤ data.length) fun next =>
      next ≤ data.length ∧ data.length - next < data.length - pos) := by
  unfold headerLine
  refine (safe_nextLine hpos).bind fun r hr => ?_
  cases r with
  | none => exact Safe.fail _
  | some found =>
      obtain ⟨line, next⟩ := found
      obtain ⟨hlt, hle⟩ := hr line next rfl
      refine Safe.ite (fun _ => Safe.pure hle) fun _ => ?_
      exact Safe.failIf_bind fun _ => Safe.pure ⟨hle, by omega⟩

theorem safe_headerLines (data : Bytes) :
    Safe (loop (headerLine data) (data.length + 1) 0) fun pos => pos ≤ data.length :=
  Safe.loop (I := fun pos => pos ≤ data.length) (fun pos => data.length - pos)
    (Nat.zero_le _) (by omega) fun _ hpos => safe_headerLine hpos

theorem safe_resolution (line : Bytes) : Safe (resolution line) fun _ => True := by
  unfold resolution
  split
  · refine Safe.ite (fun _ => ?_) fun _ => Safe.fail _
    split
    · exact Safe.pure trivial
    · exact Safe.fail _
  · exact Safe.fail _

/-! ## Scanlines stay in the data and in the row -/

section Scanlines

variable {data scan : Bytes} {width : ℕ}

theorem safe_run {c x count : ℕ} (hc : c < 4) (hscan : scan.length = width * 4)
    (hroom : x + count ≤ width) {read : ℕ → ℕ} (hread : ∀ k < count, read k < data.length) :
    Safe (forRange count scan fun scan k => do
        store scan ((x + k) * 4 + c) (← elem data (read k)) : Decoder Bytes)
      fun scan => scan.length = width * 4 := by
  refine Safe.forRange (I := fun _ (scan : Bytes) => scan.length = width * 4) hscan
    fun k hk scan hs => ?_
  refine (Safe.elem (hread k hk)).bind fun b _ => ?_
  refine (Safe.store (by omega) b).mono fun scan' hlen => hlen.trans hs

theorem safe_rgbeRun {c : ℕ} (hc : c < 4) {s : ℕ × ℕ × Bytes}
    (hpos : s.2.1 ≤ data.length) (hscan : s.2.2.length = width * 4) :
    Safe (rgbeRun data width c s)
      (Sum.elim (fun r => r.1 ≤ data.length ∧ r.2.length = width * 4) fun s' =>
        (s'.2.1 ≤ data.length ∧ s'.2.2.length = width * 4) ∧
          data.length - s'.2.1 < data.length - s.2.1) := by
  unfold rgbeRun
  refine Safe.ite (fun hlt => ?_) fun _ => Safe.pure ⟨hpos, hscan⟩
  refine Safe.failIf_bind fun hin => (Safe.elem (not_le.mp hin)).bind fun b _ => ?_
  refine Safe.ite (fun hrun => ?_) fun hrun => ?_
  · dsimp only
    generalize b.toNat - 128 = count
    refine Safe.failIf_bind fun hroom => ?_
    have hlast : s.2.1 + 1 < data.length := by omega
    refine (safe_run hc hscan (by omega) fun _ _ => hlast).bind fun scan hlen => ?_
    exact Safe.pure ⟨⟨hlast, hlen⟩, by dsimp only; omega⟩
  · refine Safe.failIf_bind fun hroom => ?_
    refine (safe_run hc hscan (by omega) fun k hk => ?_).bind fun scan hlen => ?_
    · omega
    · exact Safe.pure ⟨⟨by dsimp only; omega, hlen⟩, by dsimp only; omega⟩

theorem safe_rgbePixel {s : ℕ × ℕ × ℕ × Bytes}
    (hpos : s.2.1 ≤ data.length) (hscan : s.2.2.2.length = width * 4) :
    Safe (rgbePixel data width s)
      (Sum.elim (fun r => r.1 ≤ data.length ∧ r.2.length = width * 4) fun s' =>
        (s'.2.1 ≤ data.length ∧ s'.2.2.2.length = width * 4) ∧
          data.length - s'.2.1 < data.length - s.2.1) := by
  unfold rgbePixel
  refine Safe.ite (fun hlt => ?_) fun _ => Safe.pure ⟨hpos, hscan⟩
  refine Safe.failIf_bind fun hin => ?_
  refine (Safe.slice (by omega) (by omega)).bind fun p hp => ?_
  refine (Safe.elem (by omega)).bind fun p₀ _ => (Safe.elem (by omega)).bind fun p₁ _ => ?_
  refine (Safe.elem (by omega)).bind fun p₂ _ => Safe.ite (fun hagain => ?_) fun _ => ?_
  · -- the last pixel is repeated; it lies before this one
    refine (Safe.elem (by omega)).bind fun p₃ _ => ?_
    dsimp only
    generalize int64 (p₃.toNat * 2 ^ s.2.2.1) = count
    refine Safe.failIf_bind fun hroom => ?_
    refine (Safe.forRange (I := fun _ (scan : Bytes) => scan.length = width * 4) hscan
      fun k hk scan hs => ?_).bind fun scan hlen => ?_
    · refine (Safe.slice (by omega) (by omega)).bind fun px _ => ?_
      exact (Safe.copy (by omega) (by omega) px).mono fun scan' hcopy => hcopy.trans hs
    · exact Safe.pure ⟨⟨by dsimp only; omega, hlen⟩, by dsimp only; omega⟩
  · refine (Safe.copy (by omega) (by omega) p).bind fun scan hcopy => ?_
    exact Safe.pure ⟨⟨by dsimp only; omega, hcopy.trans hscan⟩,
      by dsimp only; omega⟩

theorem safe_readRGBEScanline (hscan : scan.length = width * 4) :
    Safe (readRGBEScanline data scan) fun r =>
      r.1 ≤ data.length ∧ r.2.length = width * 4 := by
  have hwidth : scan.length / 4 = width := by omega
  unfold readRGBEScanline
  rw [hwidth]
  dsimp only
  split
  case h_1 w hadaptive =>
      have hlen : 4 ≤ data.length := by
        unfold adaptiveWidth at hadaptive
        split at hadaptive
        · split at hadaptive
          · simp only [List.length_cons]
            omega
          · cases hadaptive
        · cases hadaptive
      refine Safe.failIf_bind fun _ => ?_
      refine Safe.forRange
        (I := fun _ (r : ℕ × Bytes) => r.1 ≤ data.length ∧ r.2.length = width * 4)
        ⟨hlen, hscan⟩ fun c hc s hs => ?_
      refine Safe.loop (fun s : ℕ × ℕ × Bytes => data.length - s.2.1)
        (I := fun s => s.2.1 ≤ data.length ∧ s.2.2.length = width * 4)
        hs (by dsimp only; omega) fun s' hs' => ?_
      exact safe_rgbeRun hc hs'.1 hs'.2
  case h_2 =>
      refine Safe.loop (fun s : ℕ × ℕ × ℕ × Bytes => data.length - s.2.1)
        (I := fun s => s.2.1 ≤ data.length ∧ s.2.2.2.length = width * 4)
        ⟨Nat.zero_le _, hscan⟩ (by dsimp only; omega) fun s' hs' => ?_
      exact safe_rgbePixel hs'.1 hs'.2

end Scanlines

/-! ## The image -/

section Decode

variable {F : Type} (fl : Floats F)

theorem safe_placeScanline {scan : Bytes} {width height row : ℕ}
    (hscan : scan.length = width * 4) (hrow : row < height) {img : FloatImage F}
    (himg : img.Sized width height) :
    Safe (placeScanline fl scan width row img) (Raster.Sized width height) := by
  unfold placeScanline
  refine Safe.forRange (I := fun _ => Raster.Sized width height) himg fun x hx img himg => ?_
  have hin : ∀ c < 4, (row * width + x) * 4 + c < width * height * 4 :=
    fun c hc => Raster.sample_lt hx hrow hc
  refine (Safe.sliceFrom (by omega)).bind fun px hpx => ?_
  refine (Raster.safe_put himg (hin 3 (by omega)) _).bind fun img himg => ?_
  refine (Safe.elem (by omega)).bind fun e _ => ?_
  refine Safe.ite (fun _ => Safe.pure himg) fun _ => ?_
  refine (Safe.elem (by omega)).bind fun r _ => ?_
  refine (Raster.safe_put himg (hin 0 (by omega)) _).bind fun img himg => ?_
  refine (Safe.elem (by omega)).bind fun g _ => ?_
  refine (Raster.safe_put himg (hin 1 (by omega)) _).bind fun img himg => ?_
  refine (Safe.elem (by omega)).bind fun b _ => ?_
  exact Raster.safe_put himg (hin 2 (by omega)) _

theorem safe_decodeRadiance (data : Bytes) :
    Safe (decodeRadiance fl data) Image.Sound := by
  unfold decodeRadiance
  refine Safe.failIf_bind fun _ => (safe_headerLines data).bind fun pos hpos => ?_
  refine (safe_nextLine hpos).bind fun r hr => ?_
  cases r with
  | none => exact Safe.fail _
  | some found =>
      obtain ⟨line, pos⟩ := found
      have hpos' := (hr line pos rfl).2
      refine (safe_resolution line).bind fun sides _ => ?_
      obtain ⟨w, h, up⟩ := sides
      refine (safe_checkFloatSize w h).bind fun _ hfits => Safe.failIf_bind fun _ => ?_
      refine (Safe.forRange (I := fun _ (s : ℕ × Bytes × FloatImage F) =>
        s.1 ≤ data.length ∧ s.2.1.length = w.toNat * 4 ∧ s.2.2.Sized w.toNat h.toNat)
        ⟨hpos', List.length_replicate, Raster.blank_sized _ _ _⟩
        fun y hy s hs => ?_).bind fun s hs => ?_
      · refine (Safe.sliceFrom hs.1).bind fun rest hrest => ?_
        refine (safe_readRGBEScanline hs.2.1).bind fun r hr => ?_
        refine (safe_placeScanline fl hr.2 ?_ hs.2.2).bind fun img himg => ?_
        · split <;> omega
        · exact Safe.pure ⟨by dsimp only; omega, hr.2, himg⟩
      · exact safe_ofHDR fl hfits hs.2.2 _ _ _ _

end Decode

end Preview

end Nipa
