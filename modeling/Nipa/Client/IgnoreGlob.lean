import Nipa.Client.Ignore

/-!
# What ignore patterns mean

A pattern is matched against a path segment by segment: a double star stands for
any number of segments, the last one of a pattern for at least one, a star for any
part of a segment and a question mark for one character.  The expression of a
pattern matches what the pattern means when its bytes are read as characters, as
long as no double star follows another; after two of them the expression waits for
an empty segment, and no path has one.
-/

namespace Nipa

open Support

namespace Ignore

/-! ## The meaning of a pattern -/

/-- A segment of a path matches a segment of a pattern. -/
def SegmentMatches : Str → Str → Prop
  | [], s => s = []
  | c :: p, s =>
      if c = '*' then ∃ s', s' <:+ s ∧ SegmentMatches p s'
      else if c = '?' then ∃ d s', s = d :: s' ∧ SegmentMatches p s'
      else ∃ s', s = c :: s' ∧ SegmentMatches p s'

/-- The segments of a path match those of a pattern. -/
def PathMatches : List Str → List Str → Prop
  | [], S => S = []
  | p :: P, S =>
      if p = doubleStar then
        if P = [] then S ≠ [] else ∃ S', S' <:+ S ∧ PathMatches P S'
      else ∃ s S', S = s :: S' ∧ SegmentMatches p s ∧ PathMatches P S'

/-- A path below the root of a repository, on one line. -/
structure RelativePath where
  segments : List Str
  valid : ValidSegs segments
  one_line : ∀ s ∈ segments, '\n' ∉ s

def RelativePath.text (path : RelativePath) : Str :=
  pathOf path.segments

/-- A pattern without an anchor may start at any segment. -/
def Pattern.Means (p : Pattern) (path : RelativePath) : Prop :=
  if p.anchored then PathMatches (p.text.splitOn '/') path.segments
  else ∃ S, S ≠ [] ∧ S <:+ path.segments ∧ PathMatches (p.text.splitOn '/') S

/-- A string whose bytes are read as characters. -/
def byteChars (s : Str) : Str :=
  (utf8 s).map byteChar

theorem segmentMatches_star (p s : Str) :
    SegmentMatches ('*' :: p) s ↔ ∃ s', s' <:+ s ∧ SegmentMatches p s' := by
  rw [SegmentMatches, if_pos rfl]

theorem segmentMatches_star_star (p s : Str) :
    SegmentMatches ('*' :: '*' :: p) s ↔ SegmentMatches ('*' :: p) s := by
  rw [segmentMatches_star, segmentMatches_star]
  constructor
  · rintro ⟨s', hs', h⟩
    obtain ⟨s'', hs'', h⟩ := (segmentMatches_star p s').mp h
    exact ⟨s'', hs''.trans hs', h⟩
  · rintro ⟨s', hs', h⟩
    exact ⟨s', hs', (segmentMatches_star p s').mpr ⟨s', List.suffix_rfl, h⟩⟩

/-! ## One segment -/

section Segment

variable {n : ℕ} {s t : Str}

theorem spans_notSlash : Regexp.Spans n notSlash s t ↔ ∃ c, c ≠ '/' ∧ s = c :: t := by
  simp [notSlash, Regexp.Spans]

theorem spans_slash : Regexp.Spans n slash s t ↔ s = '/' :: t := by
  simp [slash, Regexp.Spans]

theorem spans_star_notSlash :
    Regexp.Spans n (.star notSlash) s t ↔ ∃ u, s = u ++ t ∧ '/' ∉ u := by
  rw [notSlash, Regexp.spans_star_set]
  refine exists_congr fun u => and_congr_right fun _ => ?_
  simp only [decide_eq_true_eq]
  exact ⟨fun h hmem => h '/' hmem rfl, fun h c hc heq => h (heq ▸ hc)⟩

/-- What the expression of a segment matches: a part without slashes that matches
the bytes of the segment. -/
def SpansSegment (bs : List UInt8) (s t : Str) : Prop :=
  ∃ u, s = u ++ t ∧ '/' ∉ u ∧ SegmentMatches (bs.map byteChar) u

theorem spansSegment_nil : SpansSegment [] s t ↔ t = s := by
  rw [SpansSegment]
  constructor
  · rintro ⟨u, rfl, -, hu⟩
    obtain rfl : u = [] := hu
    rfl
  · rintro rfl
    exact ⟨[], rfl, List.not_mem_nil, rfl⟩

variable {bs : List UInt8}

theorem spansSegment_star {b : UInt8} (hb : byteChar b = '*') :
    SpansSegment (b :: bs) s t ↔ ∃ v, (∃ u, s = u ++ v ∧ '/' ∉ u) ∧ SpansSegment bs v t := by
  simp only [SpansSegment, List.map_cons, hb, segmentMatches_star]
  constructor
  · rintro ⟨u, rfl, hu, u', ⟨w, rfl⟩, hmatch⟩
    rw [List.mem_append, not_or] at hu
    exact ⟨u' ++ t, ⟨w, List.append_assoc w u' t, hu.1⟩, u', rfl, hu.2, hmatch⟩
  · rintro ⟨-, ⟨w, rfl, hw⟩, u, rfl, hu, hmatch⟩
    refine ⟨w ++ u, (List.append_assoc w u t).symm, ?_, u, ⟨w, rfl⟩, hmatch⟩
    rw [List.mem_append, not_or]
    exact ⟨hw, hu⟩

theorem spansSegment_star_star {b b' : UInt8} (hb : byteChar b = '*') (hb' : byteChar b' = '*') :
    SpansSegment (b :: b' :: bs) s t ↔ SpansSegment (b' :: bs) s t := by
  simp only [SpansSegment, List.map_cons, hb, hb', segmentMatches_star_star]

theorem spansSegment_question {b : UInt8} (hb : byteChar b = '?') :
    SpansSegment (b :: bs) s t ↔ ∃ v, (∃ c, c ≠ '/' ∧ s = c :: v) ∧ SpansSegment bs v t := by
  have hmeans : ∀ u, SegmentMatches ('?' :: bs.map byteChar) u ↔
      ∃ d u', u = d :: u' ∧ SegmentMatches (bs.map byteChar) u' := by
    intro u
    rw [SegmentMatches, if_neg (by decide), if_pos rfl]
  simp only [SpansSegment, List.map_cons, hb, hmeans]
  constructor
  · rintro ⟨-, rfl, hu, c, u, rfl, hmatch⟩
    rw [List.mem_cons, not_or] at hu
    exact ⟨u ++ t, ⟨c, Ne.symm hu.1, rfl⟩, u, rfl, hu.2, hmatch⟩
  · rintro ⟨-, ⟨c, hc, rfl⟩, u, rfl, hu, hmatch⟩
    refine ⟨c :: u, rfl, ?_, c, u, rfl, hmatch⟩
    rw [List.mem_cons, not_or]
    exact ⟨Ne.symm hc, hu⟩

theorem spansSegment_char {b : UInt8} (hstar : byteChar b ≠ '*') (hquestion : byteChar b ≠ '?')
    (hslash : byteChar b ≠ '/') :
    SpansSegment (b :: bs) s t ↔ ∃ v, s = byteChar b :: v ∧ SpansSegment bs v t := by
  have hmeans : ∀ u, SegmentMatches (byteChar b :: bs.map byteChar) u ↔
      ∃ u', u = byteChar b :: u' ∧ SegmentMatches (bs.map byteChar) u' := by
    intro u
    rw [SegmentMatches, if_neg hstar, if_neg hquestion]
  simp only [SpansSegment, List.map_cons, hmeans]
  constructor
  · rintro ⟨-, rfl, hu, u, rfl, hmatch⟩
    rw [List.mem_cons, not_or] at hu
    exact ⟨u ++ t, rfl, u, rfl, hu.2, hmatch⟩
  · rintro ⟨-, rfl, u, rfl, hu, hmatch⟩
    refine ⟨byteChar b :: u, rfl, ?_, u, rfl, hmatch⟩
    rw [List.mem_cons, not_or]
    exact ⟨Ne.symm hslash, hu⟩

/-- The expression of a segment matches what its bytes mean; with the skip, the
first byte is a star that counts as matched. -/
theorem spans_segmentRegexp (hslash : '/' ∉ bs.map byteChar) {s t : Str} :
    (Regexp.Spans n (segmentRegexp false bs) s t ↔ SpansSegment bs s t) ∧
      (Regexp.Spans n (segmentRegexp true bs) s t ↔ SpansSegment bs.tail s t) := by
  induction bs generalizing s t with
  | nil => exact ⟨spansSegment_nil.symm, spansSegment_nil.symm⟩
  | cons b bs ih =>
      rw [List.map_cons, List.mem_cons, not_or] at hslash
      refine ⟨?_, (ih hslash.2).1⟩
      rw [segmentRegexp]
      by_cases hstar : byteChar b = '*'
      · rw [if_pos hstar, Regexp.Spans]
        by_cases hnext : bs.head?.map byteChar = some '*'
        · -- the second star adds nothing to the first
          obtain ⟨b', bs, rfl⟩ : ∃ b' bs', bs = b' :: bs' := by
            cases bs with
            | nil => cases hnext
            | cons b' bs => exact ⟨b', bs, rfl⟩
          have hstar' : byteChar b' = '*' := Option.some.inj hnext
          rw [decide_eq_true hnext, spansSegment_star_star hstar hstar', spansSegment_star hstar']
          exact exists_congr fun v => and_congr spans_star_notSlash (ih hslash.2).2
        · rw [decide_eq_false hnext, spansSegment_star hstar]
          exact exists_congr fun v => and_congr spans_star_notSlash (ih hslash.2).1
      · rw [if_neg hstar]
        by_cases hquestion : byteChar b = '?'
        · rw [if_pos hquestion, spansSegment_question hquestion, Regexp.Spans]
          exact exists_congr fun v => and_congr spans_notSlash (ih hslash.2).1
        · rw [if_neg hquestion, spansSegment_char hstar hquestion (Ne.symm hslash.1), Regexp.Spans]
          refine exists_congr fun v => and_congr ?_ (ih hslash.2).1
          simp [Regexp.Spans]

end Segment

/-! ## Bytes read as characters -/

theorem byteChar_toNat (b : UInt8) : (byteChar b).toNat = b.toNat := by
  have hlt : b.toNat < 256 := b.toNat_lt
  have hvalid : b.toNat.isValidChar := Or.inl (by omega)
  rw [byteChar, Char.ofNat, dif_pos hvalid]
  rfl

theorem byteChar_eq_iff {b : UInt8} {c : Char} : byteChar b = c ↔ b.toNat = c.toNat := by
  rw [← byteChar_toNat b]
  exact ⟨congrArg Char.toNat, fun h => Char.toNat_inj.mp h⟩

theorem utf8EncodeChar_spec (c : Char) :
    (c.toNat < 128 ∧ String.utf8EncodeChar c = [UInt8.ofNat c.toNat]) ∨
      (128 ≤ c.toNat ∧ 2 ≤ (String.utf8EncodeChar c).length ∧
        ∀ b ∈ String.utf8EncodeChar c, 128 ≤ b.toNat) := by
  have hval : c.val.toNat = c.toNat := rfl
  rw [String.utf8EncodeChar, hval]
  have hbyte : ∀ m k : ℕ, 128 ≤ k → m + k < 256 → 128 ≤ (UInt8.ofNat (m + k)).toNat := by
    intro m k hk hlt
    rw [UInt8.toNat_ofNat', Nat.mod_eq_of_lt hlt]
    omega
  by_cases h1 : c.toNat ≤ 0x7f
  · exact Or.inl ⟨by omega, if_pos h1⟩
  refine Or.inr ⟨by omega, ?_⟩
  rw [if_neg h1]
  split
  · simp only [List.length_cons, List.length_nil, List.mem_cons, List.not_mem_nil, or_false,
      forall_eq_or_imp, forall_eq]
    exact ⟨by omega, hbyte _ _ (by omega) (by omega), hbyte _ _ (by omega) (by omega)⟩
  · split
    · simp only [List.length_cons, List.length_nil, List.mem_cons, List.not_mem_nil, or_false,
        forall_eq_or_imp, forall_eq]
      exact ⟨by omega, hbyte _ _ (by omega) (by omega), hbyte _ _ (by omega) (by omega),
        hbyte _ _ (by omega) (by omega)⟩
    · simp only [List.length_cons, List.length_nil, List.mem_cons, List.not_mem_nil, or_false,
        forall_eq_or_imp, forall_eq]
      exact ⟨by omega, hbyte _ _ (by omega) (by omega), hbyte _ _ (by omega) (by omega),
        hbyte _ _ (by omega) (by omega), hbyte _ _ (by omega) (by omega)⟩

theorem byteChars_cons (c : Char) (s : Str) :
    byteChars (c :: s) = (String.utf8EncodeChar c).map byteChar ++ byteChars s := by
  rw [byteChars, utf8, List.flatMap_cons, List.map_append]
  rfl

/-- The bytes of a character read as characters: the character itself in ASCII,
else several other characters. -/
theorem byteChars_char (c : Char) :
    (c.toNat < 128 ∧ (String.utf8EncodeChar c).map byteChar = [c]) ∨
      (128 ≤ c.toNat ∧ 2 ≤ ((String.utf8EncodeChar c).map byteChar).length ∧
        ∀ d ∈ (String.utf8EncodeChar c).map byteChar, 128 ≤ d.toNat) := by
  rcases utf8EncodeChar_spec c with ⟨hc, henc⟩ | ⟨hc, hlen, hbytes⟩
  · refine Or.inl ⟨hc, ?_⟩
    rw [henc, List.map_singleton]
    congr 1
    rw [byteChar_eq_iff, UInt8.toNat_ofNat', Nat.mod_eq_of_lt (by omega)]
  · refine Or.inr ⟨hc, by rwa [List.length_map], ?_⟩
    intro d hd
    obtain ⟨b, hb, rfl⟩ := List.mem_map.mp hd
    rw [byteChar_toNat]
    exact hbytes b hb

theorem mem_byteChars_of_ascii {s : Str} {c : Char} (hc : c.toNat < 128)
    (h : c ∈ byteChars s) : c ∈ s := by
  induction s with
  | nil => exact h
  | cons d s ih =>
      rw [byteChars_cons, List.mem_append] at h
      rcases h with h | h
      · rcases byteChars_char d with ⟨-, hd⟩ | ⟨-, -, hd⟩
        · rw [hd, List.mem_singleton] at h
          rw [h]
          exact List.mem_cons_self
        · have := hd c h
          omega
      · exact List.mem_cons_of_mem d (ih h)

theorem byteChars_eq_self {s : Str} (h : ∀ c ∈ s, c.toNat < 128) : byteChars s = s := by
  induction s with
  | nil => rfl
  | cons c s ih =>
      rw [byteChars_cons, ih fun d hd => h d (List.mem_cons_of_mem c hd)]
      have hc := h c List.mem_cons_self
      rcases byteChars_char c with ⟨-, hmap⟩ | ⟨hge, -⟩
      · rw [hmap]
        rfl
      · omega

theorem byteChars_injective : Function.Injective byteChars := by
  intro s t h
  refine utf8_injective (List.map_injective_iff.mpr ?_ h)
  intro b b' hb
  rw [byteChar_eq_iff, byteChar_toNat] at hb
  exact UInt8.toNat_inj.mp hb

theorem toNat_lt_of_mem_doubleStar
    {c : Char}
    (h : c ∈ doubleStar) :
    c.toNat < 128 := by
  have hstar : c = '*' := by
    simpa [doubleStar] using h
  rw [hstar]
  decide

theorem byteChars_doubleStar : byteChars doubleStar = doubleStar :=
  byteChars_eq_self fun _ h => toNat_lt_of_mem_doubleStar h

theorem byteChars_eq_doubleStar_iff {p : Str} : byteChars p = doubleStar ↔ p = doubleStar := by
  constructor
  · intro h
    exact byteChars_injective (h.trans byteChars_doubleStar.symm)
  · rintro rfl
    exact byteChars_doubleStar

/-! ## Paths cut into segments -/

/-- The text of a path after its first segment. -/
def tailText (S : List Str) : Str :=
  S.flatMap fun s => '/' :: s

/-- Segments of a path on one line. -/
def Clean (S : List Str) : Prop :=
  ∀ s ∈ S, ValidName s ∧ '
' ∉ s

theorem RelativePath.clean (path : RelativePath) : Clean path.segments :=
  fun s hs => ⟨path.valid.2 s hs, path.one_line s hs⟩

variable {S : List Str}

theorem Clean.suffix {S' : List Str} (h : Clean S) (hS : S' <:+ S) : Clean S' :=
  fun s hs => h s (hS.subset hs)

theorem Clean.tail {s : Str} (h : Clean (s :: S)) : Clean S :=
  h.suffix (List.suffix_cons s S)

theorem pathOf_cons_tail (s : Str) (S : List Str) : pathOf (s :: S) = s ++ tailText S := by
  induction S generalizing s with
  | nil => simp [tailText]
  | cons s' S ih =>
      rw [pathOf_cons (List.cons_ne_nil s' S), ih s']
      rfl

theorem tailText_cons (s : Str) (S : List Str) : tailText (s :: S) = '/' :: pathOf (s :: S) := by
  rw [pathOf_cons_tail]
  rfl

theorem tailText_head (S : List Str) : tailText S = [] ∨ (tailText S).head? = some '/' := by
  cases S with
  | nil => exact Or.inl rfl
  | cons s S => exact Or.inr rfl

theorem eq_of_append_eq {s v x u : Str} (h : s ++ x = v ++ u) (hs : '/' ∉ s) (hv : '/' ∉ v)
    (hx : x = [] ∨ x.head? = some '/') (hu : u = [] ∨ u.head? = some '/') : s = v ∧ x = u := by
  have htake : ∀ {s x : Str}, '/' ∉ s → (x = [] ∨ x.head? = some '/') →
      (s ++ x).takeWhile (fun c => c ≠ '/') = s := by
    intro s x hs hx
    rw [List.takeWhile_append_of_pos]
    · rcases hx with rfl | hx
      · simp
      · cases x with
        | nil => simp
        | cons c x =>
            obtain rfl := Option.some.inj hx
            simp
    · intro c hc
      have hne : c ≠ '/' := fun heq => hs (heq ▸ hc)
      simpa using hne
  have hsv : s = v := by rw [← htake hs hx, h, htake hv hu]
  subst hsv
  exact ⟨rfl, List.append_cancel_left h⟩

theorem pathOf_ne_slash (h : Clean S) (t : Str) : pathOf S ≠ '/' :: t := by
  intro heq
  have hhead : (pathOf S).head? ≠ some '/' := pathOf_head?_ne fun s hs => (h s hs).1
  rw [heq] at hhead
  exact hhead rfl

theorem newline_notMem_pathOf (h : Clean S) : '\n' ∉ pathOf S := by
  induction S with
  | nil => exact List.not_mem_nil
  | cons s S ih =>
      rw [pathOf_cons_tail, List.mem_append, not_or]
      refine ⟨(h s List.mem_cons_self).2, ?_⟩
      cases S with
      | nil => exact List.not_mem_nil
      | cons s' S =>
          rw [tailText_cons, List.mem_cons, not_or]
          exact ⟨by decide, ih h.tail⟩

/-! ## The segments of a pattern -/

section Segments

variable {n : ℕ} {S : List Str} {t : Str}

/-- The expression matches from the position to the end of the text. -/
def Accepts (n : ℕ) (r : Regexp) (s : Str) : Prop :=
  ∃ t, r.Spans n s t

variable {s : Str}

theorem accepts_seq {a b : Regexp} :
    Accepts n (.seq a b) s ↔ ∃ u, a.Spans n s u ∧ Accepts n b u := by
  simp only [Accepts, Regexp.Spans]
  constructor
  · rintro ⟨t, u, ha, hb⟩
    exact ⟨u, ha, t, hb⟩
  · rintro ⟨u, ha, t, hb⟩
    exact ⟨t, u, ha, hb⟩

theorem accepts_stop : Accepts n .stop s ↔ s = [] := by
  simp [Accepts, Regexp.Spans]

theorem accepts_slash {r : Regexp} :
    Accepts n (.seq slash r) s ↔ ∃ u, s = '/' :: u ∧ Accepts n r u := by
  simp only [accepts_seq, spans_slash]

theorem spans_directory (h : Clean (s :: S)) :
    Regexp.Spans n (.seq (.plus notSlash) slash) (pathOf (s :: S)) t ↔
      S ≠ [] ∧ t = pathOf S := by
  have hspan : Regexp.Spans n (.seq (.plus notSlash) slash) (pathOf (s :: S)) t ↔
      ∃ u, u ≠ [] ∧ pathOf (s :: S) = u ++ '/' :: t ∧ '/' ∉ u := by
    rw [Regexp.Spans]
    simp only [notSlash, Regexp.spans_plus_set, spans_slash, decide_eq_true_eq]
    constructor
    · rintro ⟨-, ⟨u, hne, hu, hfree⟩, rfl⟩
      exact ⟨u, hne, hu, fun hmem => hfree '/' hmem rfl⟩
    · rintro ⟨u, hne, hu, hfree⟩
      exact ⟨'/' :: t, ⟨u, hne, hu, fun c hc heq => hfree (heq ▸ hc)⟩, rfl⟩
  obtain ⟨hne, hslash⟩ := (h s List.mem_cons_self).1
  rw [hspan, pathOf_cons_tail]
  constructor
  · rintro ⟨u, -, hu, hfree⟩
    obtain ⟨-, htail⟩ := eq_of_append_eq hu hslash hfree (tailText_head S) (Or.inr rfl)
    cases S with
    | nil => cases htail
    | cons s' S =>
        rw [tailText_cons] at htail
        exact ⟨List.cons_ne_nil s' S, (List.cons.inj htail).2.symm⟩
  · rintro ⟨hS, rfl⟩
    obtain ⟨s', S, rfl⟩ := List.exists_cons_of_ne_nil hS
    exact ⟨s, hne, by rw [tailText_cons], hslash⟩

theorem spans_directories (h : Clean S) (hS : S ≠ []) :
    Regexp.Spans n directories (pathOf S) t ↔ ∃ S', S' ≠ [] ∧ S' <:+ S ∧ t = pathOf S' := by
  rw [directories, Regexp.Spans]
  induction S with
  | nil => exact absurd rfl hS
  | cons s S ih =>
      constructor
      · intro hsteps
        rcases Relation.ReflTransGen.cases_head hsteps with rfl | ⟨u, hstep, hrest⟩
        · exact ⟨s :: S, hS, List.suffix_rfl, rfl⟩
        · obtain ⟨hne, rfl⟩ := (spans_directory h).mp hstep
          obtain ⟨S', hS', hsuffix, rfl⟩ := (ih h.tail hne).mp hrest
          exact ⟨S', hS', hsuffix.trans (List.suffix_cons s S), rfl⟩
      · rintro ⟨S', hS', hsuffix, rfl⟩
        rcases List.suffix_cons_iff.mp hsuffix with rfl | hsuffix
        · exact Relation.ReflTransGen.refl
        · have hne : S ≠ [] := by
            rintro rfl
            exact hS' (List.suffix_nil.mp hsuffix)
          exact Relation.ReflTransGen.head ((spans_directory h).mpr ⟨hne, rfl⟩)
            ((ih h.tail hne).mpr ⟨S', hS', hsuffix, rfl⟩)

theorem accepts_anyChar_stop (h : '\n' ∉ s) : Accepts n (.seq (.star anyChar) .stop) s := by
  rw [accepts_seq]
  refine ⟨[], ?_, accepts_stop.mpr rfl⟩
  rw [anyChar, Regexp.spans_star_set]
  refine ⟨s, (List.append_nil s).symm, ?_⟩
  intro c hc
  have hne : c ≠ '\n' := fun heq => h (heq ▸ hc)
  simpa using hne

variable {p : Str} {P : List Str}

theorem head_of_accepts (hp : p ≠ doubleStar) (h : Accepts n (segmentsRegexp (some p) P) s) :
    s = [] ∨ s.head? = some '/' := by
  have hprev : (some p : Option Str) ≠ none := by simp
  cases P with
  | nil => exact Or.inl (accepts_stop.mp h)
  | cons q P =>
      rw [segmentsRegexp] at h
      by_cases hq : q = doubleStar
      · simp only [if_pos hq, hprev, false_and, if_false] at h
        obtain ⟨u, hu, -⟩ := accepts_seq.mp h
        by_cases hP : P = []
        · rw [if_pos hP] at hu
          obtain ⟨v, hv, -⟩ := hu
          rw [spans_slash.mp hv]
          exact Or.inr rfl
        · rw [if_neg hP] at hu
          obtain ⟨v, hv, -⟩ := hu
          rw [spans_slash.mp hv]
          exact Or.inr rfl
      · have hslash : (some p : Option Str) ≠ none ∧ (some p : Option Str) ≠ some doubleStar := by
          simpa using hp
        rw [if_neg hq] at h
        dsimp only at h
        rw [if_pos hslash] at h
        obtain ⟨u, rfl, -⟩ := accepts_slash.mp h
        exact Or.inr rfl

theorem accepts_segment (hp : p ≠ doubleStar) (hslash : '/' ∉ p) (h : Clean (s :: S)) :
    Accepts n (.seq (segmentRegexp false (utf8 p)) (segmentsRegexp (some p) P))
        (pathOf (s :: S)) ↔
      SegmentMatches (byteChars p) s ∧ Accepts n (segmentsRegexp (some p) P) (tailText S) := by
  have hbytes : '/' ∉ (utf8 p).map byteChar := fun hmem =>
    hslash (mem_byteChars_of_ascii (by decide) hmem)
  have hs : '/' ∉ s := (h s List.mem_cons_self).1.2
  simp only [accepts_seq, (spans_segmentRegexp hbytes).1, pathOf_cons_tail]
  constructor
  · rintro ⟨u, ⟨v, hv, hfree, hmatch⟩, hrest⟩
    obtain ⟨rfl, rfl⟩ := eq_of_append_eq hv hs hfree (tailText_head S) (head_of_accepts hp hrest)
    exact ⟨hmatch, hrest⟩
  · rintro ⟨hmatch, hrest⟩
    exact ⟨tailText S, ⟨s, rfl, hs, hmatch⟩, hrest⟩

/-- No two double stars are adjacent. -/
def Separate (P : List Str) : Prop :=
  P.IsChain fun p q => p ≠ doubleStar ∨ q ≠ doubleStar

theorem separate_cons (hp : p ≠ doubleStar) (P : List Str) : Separate (p :: P) ↔ Separate P := by
  cases P with
  | nil => simp [Separate]
  | cons q P => simp [Separate, hp]

theorem separate_doubleStar_cons {q : Str} (hq : q ≠ doubleStar) (P : List Str) :
    Separate (doubleStar :: q :: P) ↔ Separate P := by
  rw [← separate_cons hq P]
  simp [Separate, hq]

theorem not_separate (P : List Str) : ¬ Separate (doubleStar :: doubleStar :: P) := by
  simp [Separate]

theorem pathMatches_cons (hp : p ≠ doubleStar) (P : List Str) (s : Str) (S : List Str) :
    PathMatches (p :: P) (s :: S) ↔ SegmentMatches p s ∧ PathMatches P S := by
  rw [PathMatches, if_neg hp]
  constructor
  · rintro ⟨s', S', heq, hs, hS⟩
    obtain ⟨rfl, rfl⟩ := List.cons.inj heq
    exact ⟨hs, hS⟩
  · rintro ⟨hs, hS⟩
    exact ⟨s, S, rfl, hs, hS⟩

theorem not_pathMatches_nil (hp : p ≠ doubleStar) (P : List Str) : ¬ PathMatches (p :: P) [] := by
  rw [PathMatches, if_neg hp]
  rintro ⟨s, S, heq, -⟩
  cases heq

theorem pathMatches_trailing (S : List Str) : PathMatches [doubleStar] S ↔ S ≠ [] := by
  rw [PathMatches, if_pos rfl, if_pos rfl]

theorem pathMatches_doubleStar (hP : P ≠ []) (S : List Str) :
    PathMatches (doubleStar :: P) S ↔ ∃ S', S' <:+ S ∧ PathMatches P S' := by
  rw [PathMatches, if_pos rfl, if_neg hP]

theorem pathMatches_doubleStar_cons {q : Str} (hq : q ≠ doubleStar) (P S : List Str) :
    PathMatches (doubleStar :: q :: P) S ↔
      ∃ S', S' ≠ [] ∧ S' <:+ S ∧ PathMatches (q :: P) S' := by
  rw [pathMatches_doubleStar (List.cons_ne_nil q P)]
  refine exists_congr fun S' => ⟨?_, And.right⟩
  rintro ⟨hsuffix, hmatch⟩
  refine ⟨?_, hsuffix, hmatch⟩
  rintro rfl
  exact not_pathMatches_nil hq P hmatch

theorem pathMatches_spread (hP : P ≠ []) (S : List Str) :
    Separate (doubleStar :: P) ∧ PathMatches (doubleStar :: P.map byteChars) S ↔
      Separate (doubleStar :: P) ∧
        ∃ S', S' ≠ [] ∧ S' <:+ S ∧ PathMatches (P.map byteChars) S' := by
  obtain ⟨q, P, rfl⟩ := List.exists_cons_of_ne_nil hP
  refine and_congr_right fun hsep => ?_
  have hq : q ≠ doubleStar := by
    rintro rfl
    exact not_separate P hsep
  exact pathMatches_doubleStar_cons (mt byteChars_eq_doubleStar_iff.mp hq) _ S

theorem accepts_slash_seq {a r : Regexp} :
    Accepts n (.seq (.seq slash a) r) s ↔ ∃ u, s = '/' :: u ∧ Accepts n (.seq a r) u := by
  simp only [accepts_seq, Regexp.Spans, spans_slash]
  constructor
  · rintro ⟨v, ⟨u, rfl, ha⟩, hr⟩
    exact ⟨u, rfl, v, ha, hr⟩
  · rintro ⟨u, rfl, v, ha, hr⟩
    exact ⟨v, ⟨u, rfl, ha⟩, hr⟩

theorem accepts_directories {r : Regexp} (h : Clean S) (hS : S ≠ []) :
    Accepts n (.seq directories r) (pathOf S) ↔
      ∃ S', S' ≠ [] ∧ S' <:+ S ∧ Accepts n r (pathOf S') := by
  simp only [accepts_seq, spans_directories h hS]
  constructor
  · rintro ⟨-, ⟨S', hS', hsuffix, rfl⟩, hr⟩
    exact ⟨S', hS', hsuffix, hr⟩
  · rintro ⟨S', hS', hsuffix, hr⟩
    exact ⟨pathOf S', ⟨S', hS', hsuffix, rfl⟩, hr⟩

theorem accepts_spread (hP : P ≠ []) (hafter : ∀ S, Clean S → S ≠ [] →
      (Accepts n (segmentsRegexp (some doubleStar) P) (pathOf S) ↔
        Separate (doubleStar :: P) ∧ PathMatches (P.map byteChars) S)) (hS : Clean S)
    (hne : S ≠ []) :
    Accepts n (.seq directories (segmentsRegexp (some doubleStar) P)) (pathOf S) ↔
      Separate (doubleStar :: P) ∧ PathMatches (doubleStar :: P.map byteChars) S := by
  rw [accepts_directories hS hne, pathMatches_spread hP]
  constructor
  · rintro ⟨S', hS', hsuffix, haccepts⟩
    obtain ⟨hsep, hmatch⟩ := (hafter S' (hS.suffix hsuffix) hS').mp haccepts
    exact ⟨hsep, S', hS', hsuffix, hmatch⟩
  · rintro ⟨hsep, S', hS', hsuffix, hmatch⟩
    exact ⟨S', hS', hsuffix, (hafter S' (hS.suffix hsuffix) hS').mpr ⟨hsep, hmatch⟩⟩

/-- The expression after a segment, from the end of that segment, and after a
double star, from the start of a segment. -/
theorem accepts_segmentsRegexp (hP : ∀ p ∈ P, '/' ∉ p) :
    (∀ p, p ≠ doubleStar → ∀ S, Clean S →
      (Accepts n (segmentsRegexp (some p) P) (tailText S) ↔
        Separate P ∧ PathMatches (P.map byteChars) S)) ∧
      (P ≠ [] → ∀ S, Clean S → S ≠ [] →
        (Accepts n (segmentsRegexp (some doubleStar) P) (pathOf S) ↔
          Separate (doubleStar :: P) ∧ PathMatches (P.map byteChars) S)) := by
  induction P with
  | nil =>
      refine ⟨?_, fun hne => absurd rfl hne⟩
      intro p hp S hS
      rw [segmentsRegexp, accepts_stop, List.map_nil, PathMatches]
      cases S with
      | nil => simp [tailText, Separate]
      | cons s S => simp [tailText]
  | cons q P ih =>
      obtain ⟨ihsegment, ihstar⟩ := ih fun p hp => hP p (List.mem_cons_of_mem q hp)
      by_cases hq : q = doubleStar
      · subst hq
        constructor
        · intro p hp S hS
          rw [segmentsRegexp, if_pos rfl, List.map_cons, byteChars_doubleStar]
          simp only [reduceCtorEq, false_and, if_false]
          by_cases hnil : P = []
          · subst hnil
            rw [if_pos rfl, segmentsRegexp, accepts_slash_seq, List.map_nil, pathMatches_trailing]
            cases S with
            | nil => simp [tailText]
            | cons s S =>
                refine ⟨fun _ => ⟨List.IsChain.singleton _, List.cons_ne_nil s S⟩, fun _ => ?_⟩
                exact ⟨_, tailText_cons s S, accepts_anyChar_stop (newline_notMem_pathOf hS)⟩
          · rw [if_neg hnil, accepts_slash_seq]
            cases S with
            | nil =>
                rw [pathMatches_spread hnil]
                simp [tailText, List.suffix_nil]
            | cons s S =>
                rw [tailText_cons]
                constructor
                · rintro ⟨u, heq, haccepts⟩
                  obtain rfl := (List.cons.inj heq).2
                  exact (accepts_spread hnil (ihstar hnil) hS (List.cons_ne_nil s S)).mp haccepts
                · intro h
                  exact ⟨_, rfl,
                    (accepts_spread hnil (ihstar hnil) hS (List.cons_ne_nil s S)).mpr h⟩
        · -- after two double stars the path would have an empty segment
          intro _ S hS _
          refine iff_of_false ?_ fun h => not_separate P h.1
          rw [segmentsRegexp, if_pos rfl]
          simp only [reduceCtorEq, false_and, if_false]
          by_cases hnil : P = []
          · rw [if_pos hnil, accepts_slash_seq]
            rintro ⟨u, hu, -⟩
            exact pathOf_ne_slash hS u hu
          · rw [if_neg hnil, accepts_slash_seq]
            rintro ⟨u, hu, -⟩
            exact pathOf_ne_slash hS u hu
      · have hq' : byteChars q ≠ doubleStar := mt byteChars_eq_doubleStar_iff.mp hq
        have hslash : '/' ∉ q := hP q List.mem_cons_self
        have hone : ∀ s S, Clean (s :: S) →
            (Accepts n (.seq (segmentRegexp false (utf8 q)) (segmentsRegexp (some q) P))
              (pathOf (s :: S)) ↔
                Separate P ∧ PathMatches (byteChars q :: P.map byteChars) (s :: S)) := by
          intro s S hS
          rw [accepts_segment hq hslash hS, ihsegment q hq S hS.tail, pathMatches_cons hq']
          exact and_left_comm
        rw [List.map_cons]
        constructor
        · intro p hp S hS
          have hprev : (some p : Option Str) ≠ none ∧ (some p : Option Str) ≠ some doubleStar := by
            simpa using hp
          rw [segmentsRegexp, if_neg hq]
          dsimp only
          rw [if_pos hprev, accepts_slash, separate_cons hq]
          cases S with
          | nil =>
              refine iff_of_false ?_ fun h => not_pathMatches_nil hq' _ h.2
              rintro ⟨u, hu, -⟩
              cases hu
          | cons s S =>
              rw [tailText_cons]
              constructor
              · rintro ⟨u, heq, haccepts⟩
                obtain rfl := (List.cons.inj heq).2
                exact (hone s S hS).mp haccepts
              · intro h
                exact ⟨_, rfl, (hone s S hS).mpr h⟩
        · intro _ S hS hne
          obtain ⟨s, S, rfl⟩ := List.exists_cons_of_ne_nil hne
          rw [segmentsRegexp, if_neg hq]
          dsimp only
          rw [if_neg (by simp), separate_doubleStar_cons hq]
          exact hone s S hS

theorem accepts_pattern (hP : ∀ p ∈ P, '/' ∉ p) (hne : P ≠ []) {S : List Str} (hS : Clean S)
    (hSne : S ≠ []) :
    Accepts n (segmentsRegexp none P) (pathOf S) ↔
      Separate P ∧ PathMatches (P.map byteChars) S := by
  obtain ⟨q, P, rfl⟩ := List.exists_cons_of_ne_nil hne
  obtain ⟨s, S, rfl⟩ := List.exists_cons_of_ne_nil hSne
  have hafter := accepts_segmentsRegexp (n := n) fun p hp => hP p (List.mem_cons_of_mem q hp)
  rw [segmentsRegexp, List.map_cons]
  by_cases hq : q = doubleStar
  · subst hq
    rw [if_pos rfl, byteChars_doubleStar]
    simp only [true_and, if_true]
    by_cases hnil : P = []
    · subst hnil
      rw [if_pos rfl, segmentsRegexp, List.map_nil, pathMatches_trailing]
      exact iff_of_true (accepts_anyChar_stop (newline_notMem_pathOf hS))
        ⟨List.IsChain.singleton _, hSne⟩
    · rw [if_neg hnil]
      exact accepts_spread hnil (hafter.2 hnil) hS hSne
  · rw [if_neg hq]
    dsimp only
    rw [if_neg (by simp), accepts_segment hq (hP q List.mem_cons_self) hS,
      hafter.1 q hq S hS.tail, separate_cons hq,
      pathMatches_cons (mt byteChars_eq_doubleStar_iff.mp hq)]
    exact and_left_comm

end Segments

/-! ## A whole pattern -/

theorem slash_suffix_iff (h : Clean S) {u : Str} (hS : S ≠ []) :
    '/' :: u <:+ pathOf S ↔ ∃ S', S' ≠ [] ∧ S' ≠ S ∧ S' <:+ S ∧ u = pathOf S' := by
  constructor
  · rintro ⟨w, hw⟩
    have hsplit : S = w.splitOn '/' ++ u.splitOn '/' := by
      rw [← List.splitOn_append_cons_self, hw]
      exact (splitOn_joinWith (fun s hs => (h s hs).1.2) hS).symm
    refine ⟨u.splitOn '/', List.splitOn_ne_nil _ _, ?_, ⟨w.splitOn '/', hsplit.symm⟩,
      (joinWith_splitOn '/' u).symm⟩
    intro heq
    rw [heq] at hsplit
    exact List.splitOn_ne_nil '/' w (List.append_left_eq_self.mp hsplit.symm)
  · rintro ⟨S', hS', hne, ⟨D, rfl⟩, rfl⟩
    have hD : D ≠ [] := by
      rintro rfl
      exact hne rfl
    exact ⟨pathOf D, (joinWith_append hD hS').symm⟩

/-- The expression of a pattern matches a path when no two double stars are
adjacent and the bytes of the pattern, read as characters, match it. -/
theorem matchString_patternRegexp (text : Str) (anchored : Bool) (path : RelativePath) :
    (patternRegexp text anchored).matchString path.text = true ↔
      Separate (text.splitOn '/') ∧
        if anchored then PathMatches ((text.splitOn '/').map byteChars) path.segments
        else ∃ S, S ≠ [] ∧ S <:+ path.segments ∧
          PathMatches ((text.splitOn '/').map byteChars) S := by
  have hP : ∀ p ∈ text.splitOn '/', '/' ∉ p := fun p hp => notMem_of_mem_splitOn hp
  have hne : text.splitOn '/' ≠ [] := List.splitOn_ne_nil _ _
  have hpattern : ∀ S, S ≠ [] → S <:+ path.segments →
      (Accepts path.text.length (segmentsRegexp none (text.splitOn '/')) (pathOf S) ↔
        Separate (text.splitOn '/') ∧ PathMatches ((text.splitOn '/').map byteChars) S) :=
    fun S hS hsuffix => accepts_pattern hP hne (path.clean.suffix hsuffix) hS
  have hmatch : (patternRegexp text anchored).matchString path.text = true ↔
      ∃ s, s <:+ path.text ∧ Accepts path.text.length (patternRegexp text anchored) s :=
    Regexp.matchString_iff
  rw [hmatch, patternRegexp]
  cases anchored with
  | true =>
      simp only [if_true, accepts_seq, Regexp.Spans]
      rw [← hpattern path.segments path.valid.1 List.suffix_rfl]
      constructor
      · rintro ⟨s, hs, u, ⟨hlen, rfl⟩, haccepts⟩
        obtain rfl := hs.eq_of_length hlen
        exact haccepts
      · intro haccepts
        exact ⟨path.text, List.suffix_rfl, path.text, ⟨rfl, rfl⟩, haccepts⟩
  | false =>
      simp only [Bool.false_eq_true, if_false, accepts_seq, Regexp.Spans, spans_slash]
      constructor
      · rintro ⟨s, hs, u, ⟨hlen, rfl⟩ | rfl, haccepts⟩
        · obtain rfl := hs.eq_of_length hlen
          obtain ⟨hsep, hpath⟩ :=
            (hpattern path.segments path.valid.1 List.suffix_rfl).mp haccepts
          exact ⟨hsep, path.segments, path.valid.1, List.suffix_rfl, hpath⟩
        · obtain ⟨S, hS, -, hsuffix, rfl⟩ := (slash_suffix_iff path.clean path.valid.1).mp hs
          obtain ⟨hsep, hpath⟩ := (hpattern S hS hsuffix).mp haccepts
          exact ⟨hsep, S, hS, hsuffix, hpath⟩
      · rintro ⟨hsep, S, hS, hsuffix, hpath⟩
        have haccepts := (hpattern S hS hsuffix).mpr ⟨hsep, hpath⟩
        by_cases hall : S = path.segments
        · subst hall
          exact ⟨path.text, List.suffix_rfl, path.text, Or.inl ⟨rfl, rfl⟩, haccepts⟩
        · exact ⟨'/' :: pathOf S, (slash_suffix_iff path.clean path.valid.1).mpr
            ⟨S, hS, hall, hsuffix, rfl⟩, pathOf S, Or.inr rfl, haccepts⟩

end Ignore

end Nipa
