import Nipa.Client.IgnoreGlob

/-!
# Which ignore patterns are compiled right

A compiled pattern matches what the pattern means when its characters are of ASCII
and no double star follows another, or when it has an empty segment and means
nothing.  Every other pattern means a path that its expression does not match: the
shortest path with that meaning has fewer characters than the pattern has bytes.
-/

namespace Nipa

open Support

namespace Ignore

/-- The expression of the pattern is the pattern's meaning. -/
def Pattern.Faithful (p : Pattern) : Prop :=
  [] ∈ p.text.splitOn '/' ∨
    ((∀ c ∈ p.text, c.toNat < 128) ∧ Separate (p.text.splitOn '/'))

/-! ## Patterns with an empty segment -/

theorem not_pathMatches_of_empty {P : List Str} (hP : [] ∈ P) {S : List Str} (hS : Clean S) :
    ¬ PathMatches P S := by
  induction P generalizing S with
  | nil => cases hP
  | cons p P ih =>
      by_cases hp : p = doubleStar
      · subst hp
        have hmem : [] ∈ P := by
          rcases List.mem_cons.mp hP with h | h
          · cases h
          · exact h
        rw [pathMatches_doubleStar (List.ne_nil_of_mem hmem)]
        rintro ⟨S', hsuffix, hmatch⟩
        exact ih hmem (hS.suffix hsuffix) hmatch
      · cases S with
        | nil => exact not_pathMatches_nil hp P
        | cons s S =>
            rw [pathMatches_cons hp]
            rintro ⟨hs, hmatch⟩
            rcases List.mem_cons.mp hP with rfl | hmem
            · exact (hS s List.mem_cons_self).1.1 hs
            · exact ih hmem hS.tail hmatch

/-! ## The shortest path -/

/-- The characters that every match of a segment needs. -/
def sampleChars (p : Str) : Str :=
  (p.filter fun c => c ≠ '*').map fun c => if c = '?' then 'x' else c

def sampleSegment (p : Str) : Str :=
  if sampleChars p = [] then ['x'] else sampleChars p

/-- A path that a pattern matches. -/
def samplePath : List Str → List Str
  | [] => []
  | p :: P =>
      if p = doubleStar then if P = [] then [['x']] else samplePath P
      else sampleSegment p :: samplePath P

/-- The number of characters in the segments of a path. -/
def textSize (S : List Str) : ℕ :=
  (S.map List.length).sum

theorem sampleChars_cons (c : Char) (p : Str) :
    sampleChars (c :: p) =
      if c = '*' then sampleChars p else (if c = '?' then 'x' else c) :: sampleChars p := by
  rw [sampleChars, List.filter_cons]
  by_cases hc : c = '*'
  · rw [if_pos hc, if_neg (by simpa using hc)]
    rfl
  · rw [if_neg hc, if_pos (by simpa using hc)]
    rfl

theorem sampleChars_append (p q : Str) :
    sampleChars (p ++ q) = sampleChars p ++ sampleChars q := by
  rw [sampleChars, List.filter_append, List.map_append]
  rfl

theorem segmentMatches_sampleChars (p : Str) : SegmentMatches p (sampleChars p) := by
  induction p with
  | nil => rfl
  | cons c p ih =>
      rw [SegmentMatches, sampleChars_cons]
      by_cases hstar : c = '*'
      · rw [if_pos hstar, if_pos hstar]
        exact ⟨sampleChars p, List.suffix_rfl, ih⟩
      · rw [if_neg hstar, if_neg hstar]
        by_cases hquestion : c = '?'
        · rw [if_pos hquestion, if_pos hquestion]
          exact ⟨'x', sampleChars p, rfl, ih⟩
        · rw [if_neg hquestion, if_neg hquestion]
          exact ⟨sampleChars p, rfl, ih⟩

theorem segmentMatches_sampleSegment {p : Str} (hp : p ≠ []) :
    SegmentMatches p (sampleSegment p) := by
  rw [sampleSegment]
  split
  next hnone =>
    -- the segment is made of stars
    cases p with
    | nil => exact absurd rfl hp
    | cons c p =>
        rw [sampleChars_cons] at hnone
        split at hnone
        next hc =>
          subst hc
          rw [segmentMatches_star]
          exact ⟨[], List.nil_suffix, hnone ▸ segmentMatches_sampleChars p⟩
        · cases hnone
  · exact segmentMatches_sampleChars p

theorem sampleChars_length_le {p s : Str} (h : SegmentMatches p s) :
    (sampleChars p).length ≤ s.length := by
  induction p generalizing s with
  | nil => exact Nat.zero_le _
  | cons c p ih =>
      rw [SegmentMatches] at h
      rw [sampleChars_cons]
      by_cases hstar : c = '*'
      · rw [if_pos hstar] at h ⊢
        obtain ⟨s', hsuffix, hmatch⟩ := h
        exact (ih hmatch).trans hsuffix.length_le
      · rw [if_neg hstar] at h ⊢
        rw [List.length_cons]
        split at h
        · obtain ⟨d, s', rfl, hmatch⟩ := h
          exact Nat.succ_le_succ (ih hmatch)
        · obtain ⟨s', rfl, hmatch⟩ := h
          exact Nat.succ_le_succ (ih hmatch)

theorem sampleSegment_ne_nil (p : Str) : sampleSegment p ≠ [] := by
  rw [sampleSegment]
  split
  · exact List.cons_ne_nil _ _
  next h => exact h

theorem mem_sampleSegment {p : Str} {c : Char} (h : c ∈ sampleSegment p) : c = 'x' ∨ c ∈ p := by
  rw [sampleSegment] at h
  split at h
  · exact Or.inl (List.mem_singleton.mp h)
  · obtain ⟨d, hd, rfl⟩ := List.mem_map.mp h
    split
    · exact Or.inl rfl
    · exact Or.inr (List.mem_filter.mp hd).1

theorem pathMatches_samplePath {P : List Str} (hP : [] ∉ P) : PathMatches P (samplePath P) := by
  induction P with
  | nil => rfl
  | cons p P ih =>
      rw [List.mem_cons, not_or] at hP
      rw [samplePath]
      by_cases hp : p = doubleStar
      · subst hp
        rw [if_pos rfl]
        by_cases hnil : P = []
        · subst hnil
          rw [if_pos rfl, pathMatches_trailing]
          exact List.cons_ne_nil _ _
        · rw [if_neg hnil, pathMatches_doubleStar hnil]
          exact ⟨samplePath P, List.suffix_rfl, ih hP.2⟩
      · rw [if_neg hp, pathMatches_cons hp]
        exact ⟨segmentMatches_sampleSegment (Ne.symm hP.1), ih hP.2⟩

theorem samplePath_ne_nil {P : List Str} (hP : P ≠ []) : samplePath P ≠ [] := by
  induction P with
  | nil => exact absurd rfl hP
  | cons p P ih =>
      rw [samplePath]
      split
      · split
        · exact List.cons_ne_nil _ _
        next hnil => exact ih hnil
      · exact List.cons_ne_nil _ _

theorem samplePath_clean {P : List Str} (hslash : ∀ p ∈ P, '/' ∉ p) (hline : ∀ p ∈ P, '\n' ∉ p) :
    Clean (samplePath P) := by
  have hclean : ∀ p ∈ P, ∀ s, (s = ['x'] ∨ s = sampleSegment p) → ValidName s ∧ '\n' ∉ s := by
    rintro p hp s (rfl | rfl)
    · exact ⟨⟨List.cons_ne_nil _ _, by decide⟩, by decide⟩
    · refine ⟨⟨sampleSegment_ne_nil p, ?_⟩, ?_⟩
      · intro hmem
        rcases mem_sampleSegment hmem with h | h
        · cases h
        · exact hslash p hp h
      · intro hmem
        rcases mem_sampleSegment hmem with h | h
        · cases h
        · exact hline p hp h
  induction P with
  | nil =>
      intro s hs
      cases hs
  | cons p P ih =>
      have hrest : Clean (samplePath P) := ih (fun q hq => hslash q (List.mem_cons_of_mem p hq))
        (fun q hq => hline q (List.mem_cons_of_mem p hq))
        (fun q hq => hclean q (List.mem_cons_of_mem p hq))
      rw [samplePath]
      split
      · split
        · intro s hs
          exact hclean p List.mem_cons_self s (Or.inl (List.mem_singleton.mp hs))
        · exact hrest
      · intro s hs
        rcases List.mem_cons.mp hs with rfl | hs
        · exact hclean p List.mem_cons_self _ (Or.inr rfl)
        · exact hrest s hs

/-! ## No path is shorter -/

theorem textSize_le_of_suffix {S S' : List Str} (h : S' <:+ S) : textSize S' ≤ textSize S := by
  obtain ⟨D, rfl⟩ := h
  rw [textSize, textSize, List.map_append, List.sum_append]
  exact Nat.le_add_left _ _

theorem textSize_samplePath_le {P S : List Str} (hS : Clean S) (h : PathMatches P S) :
    textSize (samplePath P) ≤ textSize S := by
  induction P generalizing S with
  | nil => exact Nat.zero_le _
  | cons p P ih =>
      rw [samplePath]
      by_cases hp : p = doubleStar
      · subst hp
        rw [if_pos rfl]
        by_cases hnil : P = []
        · subst hnil
          rw [if_pos rfl]
          obtain ⟨s, S, rfl⟩ := List.exists_cons_of_ne_nil ((pathMatches_trailing S).mp h)
          have hpos : 0 < s.length := List.length_pos_of_ne_nil (hS s List.mem_cons_self).1.1
          simp only [textSize, List.map_cons, List.map_nil, List.sum_cons, List.sum_nil,
            List.length_singleton]
          omega
        · rw [if_neg hnil]
          obtain ⟨S', hsuffix, hmatch⟩ := (pathMatches_doubleStar hnil S).mp h
          exact (ih (hS.suffix hsuffix) hmatch).trans (textSize_le_of_suffix hsuffix)
      · rw [if_neg hp]
        cases S with
        | nil => exact absurd h (not_pathMatches_nil hp P)
        | cons s S =>
            obtain ⟨hmatch, hrest⟩ := (pathMatches_cons hp P s S).mp h
            have hpos : 0 < s.length := List.length_pos_of_ne_nil (hS s List.mem_cons_self).1.1
            have hsegment : (sampleSegment p).length ≤ s.length := by
              rw [sampleSegment]
              split
              · exact hpos
              · exact sampleChars_length_le hmatch
            have hle := ih hS.tail hrest
            simp only [textSize, List.map_cons, List.sum_cons] at hle ⊢
            omega

/-! ## More bytes than characters -/

/-- The bytes of a segment need at least as many characters, and more when it has
a character outside ASCII. -/
theorem sampleChars_byteChars (p : Str) :
    (sampleChars p).length ≤ (sampleChars (byteChars p)).length ∧
      ((∃ c ∈ p, 128 ≤ c.toNat) →
        (sampleChars p).length < (sampleChars (byteChars p)).length) := by
  induction p with
  | nil => exact ⟨le_rfl, by simp⟩
  | cons c p ih =>
      rw [byteChars_cons, sampleChars_append, List.length_append]
      have hcons : sampleChars (c :: p) = sampleChars [c] ++ sampleChars p :=
        sampleChars_append [c] p
      rw [hcons, List.length_append]
      rcases byteChars_char c with ⟨hc, hmap⟩ | ⟨hc, hlen, hlarge⟩
      · rw [hmap]
        refine ⟨by omega, ?_⟩
        rintro ⟨d, hd, hlarge⟩
        rcases List.mem_cons.mp hd with rfl | hd
        · omega
        · have := ih.2 ⟨d, hd, hlarge⟩
          omega
      · have hkept : sampleChars ((String.utf8EncodeChar c).map byteChar) =
            ((String.utf8EncodeChar c).map byteChar).map fun d => if d = '?' then 'x' else d := by
          rw [sampleChars, List.filter_eq_self.mpr]
          intro d hd
          have hne : d ≠ '*' := by
            rintro rfl
            exact absurd (hlarge _ hd) (by decide)
          simpa using hne
        have hone : (sampleChars [c]).length ≤ 1 := by
          rw [sampleChars, List.length_map]
          exact List.length_filter_le _ _
        rw [hkept, List.length_map]
        have hle := ih.1
        exact ⟨by omega, fun _ => by omega⟩

theorem sampleSegment_length (p : Str) :
    (sampleSegment p).length = max 1 (sampleChars p).length := by
  rw [sampleSegment]
  split
  next hnone => simp [hnone]
  next hsome => exact (max_eq_right (List.length_pos_of_ne_nil hsome)).symm

theorem sampleChars_pos {p : Str} {c : Char} (hc : c ∈ p) (hlarge : 128 ≤ c.toNat) :
    0 < (sampleChars p).length := by
  have hne : c ≠ '*' := by
    rintro rfl
    exact absurd hlarge (by decide)
  rw [sampleChars, List.length_map]
  exact List.length_pos_of_mem (List.mem_filter.mpr ⟨hc, by simpa using hne⟩)

/-- A pattern read by its bytes needs a longer path than it should, unless all its
characters are of ASCII. -/
theorem textSize_samplePath_byteChars (P : List Str) :
    textSize (samplePath P) ≤ textSize (samplePath (P.map byteChars)) ∧
      ((∃ p ∈ P, ∃ c ∈ p, 128 ≤ c.toNat) →
        textSize (samplePath P) < textSize (samplePath (P.map byteChars))) := by
  induction P with
  | nil => exact ⟨le_rfl, by simp⟩
  | cons p P ih =>
      rw [List.map_cons, samplePath, samplePath]
      by_cases hp : p = doubleStar
      · subst hp
        have hlater : (∃ p ∈ doubleStar :: P, ∃ c ∈ p, 128 ≤ c.toNat) →
            ∃ p ∈ P, ∃ c ∈ p, 128 ≤ c.toNat := by
          rintro ⟨p, hp, c, hc, hlarge⟩
          rcases List.mem_cons.mp hp with rfl | hp
          · exact absurd hlarge (not_le.mpr (toNat_lt_of_mem_doubleStar hc))
          · exact ⟨p, hp, c, hc, hlarge⟩
        rw [if_pos rfl, if_pos byteChars_doubleStar]
        by_cases hnil : P = []
        · subst hnil
          refine ⟨le_rfl, fun h => ?_⟩
          obtain ⟨p, hp, -⟩ := hlater h
          cases hp
        · rw [if_neg hnil, if_neg (by simpa using hnil)]
          exact ⟨ih.1, fun h => ih.2 (hlater h)⟩
      · rw [if_neg hp, if_neg (mt byteChars_eq_doubleStar_iff.mp hp)]
        obtain ⟨hle, hlt⟩ := sampleChars_byteChars p
        simp only [textSize, List.map_cons, List.sum_cons, sampleSegment_length] at ih ⊢
        refine ⟨by omega, ?_⟩
        rintro ⟨q, hq, c, hc, hlarge⟩
        rcases List.mem_cons.mp hq with rfl | hq
        · have hpos := sampleChars_pos hc hlarge
          have := hlt ⟨c, hc, hlarge⟩
          omega
        · have := ih.2 ⟨q, hq, c, hc, hlarge⟩
          omega

/-! ## Exactly the faithful patterns -/

section Exact

variable {p : Pattern}

theorem mem_text_of_mem_segment {c : Char} {q : Str} (hq : q ∈ p.text.splitOn '/')
    (hc : c ∈ q) : c ∈ p.text := by
  rw [← joinWith_splitOn '/' p.text]
  generalize p.text.splitOn '/' = P at hq
  induction P with
  | nil => cases hq
  | cons r P ih =>
      change c ∈ pathOf (r :: P)
      rw [pathOf_cons_tail, List.mem_append]
      rcases List.mem_cons.mp hq with rfl | hq
      · exact Or.inl hc
      · right
        cases P with
        | nil => cases hq
        | cons r' P =>
            rw [tailText_cons]
            exact List.mem_cons_of_mem _ (ih hq)

theorem exists_segment_of_mem_text {c : Char} (hc : c ∈ p.text) (hne : c ≠ '/') :
    ∃ q ∈ p.text.splitOn '/', c ∈ q := by
  rw [← joinWith_splitOn '/' p.text] at hc
  revert hc
  generalize p.text.splitOn '/' = P
  intro hc
  change c ∈ pathOf P at hc
  induction P with
  | nil => cases hc
  | cons r P ih =>
      rw [pathOf_cons_tail, List.mem_append] at hc
      rcases hc with hc | hc
      · exact ⟨r, List.mem_cons_self, hc⟩
      · cases P with
        | nil => cases hc
        | cons r' P =>
            rw [tailText_cons, List.mem_cons] at hc
            rcases hc with rfl | hc
            · exact absurd rfl hne
            · obtain ⟨q, hq, hcq⟩ := ih hc
              exact ⟨q, List.mem_cons_of_mem r hq, hcq⟩

theorem Pattern.Faithful.means_iff (h : p.Faithful) (path : RelativePath) :
    p.rule.re.matchString path.text = true ↔ p.Means path := by
  change (patternRegexp p.text p.anchored).matchString path.text = true ↔ _
  rw [matchString_patternRegexp, Pattern.Means]
  rcases h with hempty | ⟨hascii, hsep⟩
  · have hbytes : [] ∈ (p.text.splitOn '/').map byteChars := List.mem_map.mpr ⟨[], hempty, rfl⟩
    refine iff_of_false ?_ ?_
    · rintro ⟨-, hmatch⟩
      split at hmatch
      · exact not_pathMatches_of_empty hbytes path.clean hmatch
      · obtain ⟨S, -, hsuffix, hmatch⟩ := hmatch
        exact not_pathMatches_of_empty hbytes (path.clean.suffix hsuffix) hmatch
    · intro hmatch
      split at hmatch
      · exact not_pathMatches_of_empty hempty path.clean hmatch
      · obtain ⟨S, -, hsuffix, hmatch⟩ := hmatch
        exact not_pathMatches_of_empty hempty (path.clean.suffix hsuffix) hmatch
  · have hbytes : (p.text.splitOn '/').map byteChars = p.text.splitOn '/' := by
      rw [List.map_congr_left (g := id), List.map_id]
      intro q hq
      exact byteChars_eq_self fun c hc => hascii c (mem_text_of_mem_segment hq hc)
    rw [hbytes]
    exact and_iff_right hsep

theorem exists_path_of_not_faithful (hline : '\n' ∉ p.text) (h : ¬ p.Faithful) :
    ∃ path : RelativePath, p.Means path ∧ ¬ p.rule.re.matchString path.text = true := by
  rw [Pattern.Faithful, not_or] at h
  obtain ⟨hempty, hwrong⟩ := h
  have hclean : Clean (samplePath (p.text.splitOn '/')) :=
    samplePath_clean (fun q hq => notMem_of_mem_splitOn hq)
      (fun q hq hmem => hline (mem_text_of_mem_segment hq hmem))
  have hne : samplePath (p.text.splitOn '/') ≠ [] :=
    samplePath_ne_nil (List.splitOn_ne_nil _ _)
  refine ⟨⟨samplePath (p.text.splitOn '/'), ⟨hne, fun s hs => (hclean s hs).1⟩,
    fun s hs => (hclean s hs).2⟩, ?_, ?_⟩
  · rw [Pattern.Means]
    split
    · exact pathMatches_samplePath hempty
    · exact ⟨_, hne, List.suffix_rfl, pathMatches_samplePath hempty⟩
  · change ¬ (patternRegexp p.text p.anchored).matchString _ = true
    rw [matchString_patternRegexp]
    rintro ⟨hsep, hmatch⟩
    have hlarge : ∃ q ∈ p.text.splitOn '/', ∃ c ∈ q, 128 ≤ c.toNat := by
      by_contra hnone
      refine hwrong ⟨?_, hsep⟩
      intro c hc
      by_contra hge
      obtain ⟨q, hq, hcq⟩ := exists_segment_of_mem_text hc (by
        rintro rfl
        exact hge (by decide))
      exact hnone ⟨q, hq, c, hcq, by omega⟩
    have hlt := (textSize_samplePath_byteChars (p.text.splitOn '/')).2 hlarge
    split at hmatch
    · have hle := textSize_samplePath_le hclean hmatch
      omega
    · obtain ⟨S, -, hsuffix, hmatch⟩ := hmatch
      have hle := textSize_samplePath_le (hclean.suffix hsuffix) hmatch
      have hsize : textSize S ≤ textSize (samplePath (p.text.splitOn '/')) :=
        textSize_le_of_suffix hsuffix
      omega

theorem readLine_text_subset {line : Str} (h : readLine line = some p) : p.text ⊆ line := by
  have htrim : ∀ s, trimSpace s ⊆ s := by
    intro s
    rw [trimSpace]
    exact List.Subset.trans (List.rdropWhile_prefix _ _).subset (List.dropWhile_sublist _).subset
  have hunmarked : ∀ s, unmarked s ⊆ s := by
    intro s
    rw [unmarked]
    split
    · exact List.Subset.trans (htrim _) (List.tail_subset s)
    · exact List.Subset.refl s
  have hafter : ∀ s, trimSlashAfter s ⊆ s := by
    intro s
    rw [trimSlashAfter]
    split
    · exact List.dropLast_subset s
    · exact List.Subset.refl s
  have hbefore : ∀ s, trimSlashBefore s ⊆ s := by
    intro s
    rw [trimSlashBefore]
    split
    · exact List.tail_subset s
    · exact List.Subset.refl s
  have htext : p.text = trimSlashBefore (trimSlashAfter (unmarked (trimSpace line))) := by
    rw [readLine] at h
    dsimp only at h
    by_cases hblank : trimSpace line = [] ∨ (trimSpace line).head? = some '#'
    · rw [if_pos hblank] at h
      cases h
    rw [if_neg hblank] at h
    by_cases hempty : trimSlashAfter (unmarked (trimSpace line)) = []
    · rw [if_pos hempty] at h
      cases h
    rw [if_neg hempty] at h
    by_cases hslash : trimSlashBefore (trimSlashAfter (unmarked (trimSpace line))) = []
    · rw [if_pos hslash] at h
      cases h
    rw [if_neg hslash] at h
    rw [← Option.some.inj h]
  rw [htext]
  exact List.Subset.trans (hbefore _) (List.Subset.trans (hafter _)
    (List.Subset.trans (hunmarked _) (htrim line)))

/-- The rule of a line matches exactly the paths that its pattern means when the
pattern has an empty segment, or only characters of ASCII and no two adjacent
double stars. -/
theorem compile_means_iff {contents line : Str} (hline : line ∈ contents.splitOn '\n')
    (hp : readLine line = some p) :
    p.rule ∈ compile contents ∧
      ((∀ path : RelativePath, p.rule.re.matchString path.text = true ↔ p.Means path) ↔
        p.Faithful) := by
  refine ⟨List.mem_filterMap.mpr ⟨line, hline, by rw [hp]; rfl⟩, ?_, ?_⟩
  · intro h
    by_contra hnot
    have hnewline : '\n' ∉ p.text := fun hmem =>
      notMem_of_mem_splitOn hline (readLine_text_subset hp hmem)
    obtain ⟨path, hmeans, hmatch⟩ := exists_path_of_not_faithful hnewline hnot
    exact hmatch ((h path).mpr hmeans)
  · exact Pattern.Faithful.means_iff

end Exact

/-! ## A name with an accent, and two double stars -/

theorem compile_means_demo :
    (Pattern.rule ⟨"docs/**/*.tmp".toList, true, false, false⟩) ∈
        compile "docs/**/*.tmp\n".toList ∧
      ((∀ path : RelativePath, (Pattern.rule ⟨"docs/**/*.tmp".toList, true, false,
        false⟩).re.matchString path.text = true ↔
          Pattern.Means ⟨"docs/**/*.tmp".toList, true, false, false⟩ path) ↔
        Pattern.Faithful ⟨"docs/**/*.tmp".toList, true, false, false⟩) :=
  compile_means_iff (by decide : "docs/**/*.tmp".toList ∈ _) (by decide)

def accentPattern : Pattern :=
  ⟨"é.txt".toList, false, false, false⟩

def starsPattern : Pattern :=
  ⟨"a/**/**/b".toList, true, false, false⟩

def accentPath : RelativePath :=
  ⟨["é.txt".toList], ⟨by decide, by simp [ValidName]⟩, by decide⟩

def starsPath : RelativePath :=
  ⟨["a".toList, "b".toList], ⟨by decide, by simp [ValidName]⟩, by decide⟩

/-- The pattern `é.txt` does not match the file of that name, and `a/**/**/b` does
not match `a/b`. -/
theorem patterns_not_matched :
    (readLine "é.txt".toList = some accentPattern ∧ accentPattern.Means accentPath ∧
      ¬ (accentPattern.rule.re.matchString accentPath.text = true ↔
        accentPattern.Means accentPath)) ∧
      readLine "a/**/**/b".toList = some starsPattern ∧ starsPattern.Means starsPath ∧
      ¬ (starsPattern.rule.re.matchString starsPath.text = true ↔
        starsPattern.Means starsPath) := by
  have haccent : accentPattern.Means accentPath := by
    have hsample : samplePath (accentPattern.text.splitOn '/') = accentPath.segments := by decide
    have hmatch : PathMatches (accentPattern.text.splitOn '/') accentPath.segments := by
      rw [← hsample]
      exact pathMatches_samplePath (by decide)
    exact ⟨accentPath.segments, accentPath.valid.1, List.suffix_rfl, hmatch⟩
  have hstars : starsPattern.Means starsPath := by
    have hsample : samplePath (starsPattern.text.splitOn '/') = starsPath.segments := by decide
    have hmatch : PathMatches (starsPattern.text.splitOn '/') starsPath.segments := by
      rw [← hsample]
      exact pathMatches_samplePath (by decide)
    exact hmatch
  refine ⟨⟨by decide, haccent, ?_⟩, by decide, hstars, ?_⟩
  · intro h
    have hmatch := h.mpr haccent
    revert hmatch
    decide +kernel
  · intro h
    have hmatch := h.mpr hstars
    revert hmatch
    decide +kernel

end Ignore

end Nipa
