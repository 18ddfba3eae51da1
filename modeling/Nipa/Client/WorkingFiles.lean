import Nipa.Client.Ignore

/-!
# The files of a working tree

The walk over a working tree lists its regular files.  It does not enter an ignored
directory, unless a tracked path lies below it, and it leaves out whatever is named like the
metadata directory.
-/

namespace Nipa

open Support

/-! ## Working trees -/

def nipaDir : Str := ".nipa".toList

/-- What a directory can contain; `readErr` is the error of reading a directory. -/
inductive DirEntry (E : Type) where
  | file (name : Str)
  /-- A symbolic link, a device, a socket. -/
  | other (name : Str)
  | dir (name : Str) (readErr : Option E) (entries : List (DirEntry E))

namespace DirEntry

variable {E : Type}

def name : DirEntry E → Str
  | file n | other n | dir n _ _ => n

def isDir : DirEntry E → Bool
  | dir _ _ _ => true
  | _ => false

end DirEntry

/-- A name that a file system gives to an entry. -/
def EntryName (n : Str) : Prop :=
  ValidName n ∧ n ≠ ".".toList ∧ n ≠ "..".toList

mutual

def DirEntry.Valid {E : Type} : DirEntry E → Prop
  | .file n | .other n => EntryName n
  | .dir n _ entries => EntryName n ∧ ValidEntries entries

/-- The entries of a directory have different names. -/
def ValidEntries {E : Type} : List (DirEntry E) → Prop
  | [] => True
  | e :: entries =>
      e.Valid ∧ e.name ∉ entries.map DirEntry.name ∧ ValidEntries entries

end

/-- A root directory and what lies below it. -/
structure WorkTree (E : Type) where
  name : Str
  readErr : Option E
  entries : List (DirEntry E)
  valid : ValidEntries entries

mutual

/-- The addresses of the regular files, from the directory that has the entry. -/
def DirEntry.files {E : Type} : DirEntry E → List (List Str)
  | .file n => [[n]]
  | .other _ => []
  | .dir n _ entries => (filesBelow entries).map (n :: ·)

def filesBelow {E : Type} : List (DirEntry E) → List (List Str)
  | [] => []
  | e :: entries => e.files ++ filesBelow entries

end

mutual

/-- Every directory can be read. -/
def DirEntry.Readable {E : Type} : DirEntry E → Prop
  | .file _ | .other _ => True
  | .dir _ readErr entries => readErr = none ∧ ReadableBelow entries

def ReadableBelow {E : Type} : List (DirEntry E) → Prop
  | [] => True
  | e :: entries => e.Readable ∧ ReadableBelow entries

end

/-! ## The walk -/

namespace Ignore

/-- The directories above a path; the loop ends at a path without a slash behind its first
character. -/
def parentsFrom : ℕ → Str → List Str
  | 0, _ => []
  | steps + 1, p =>
      match lastIndex '/' p with
      | none => []
      | some i => if 0 < i then p.take i :: parentsFrom steps (p.take i) else []

def parents (p : Str) : List Str :=
  parentsFrom p.length p

/-- The rules, and the protected paths with the directories above them. -/
structure IgnoreState where
  rules : List Rule
  protectedSet : List Str

def newIgnoreState (rules : List Rule) (tracked : List Str) : IgnoreState where
  rules := rules
  protectedSet := (tracked.filter (· ≠ [])).flatMap fun p => p :: parents p

namespace IgnoreState

def skipDir (s : IgnoreState) (rel : Str) : Bool :=
  if s.rules = [] then false else ignores s.rules rel true && !decide (rel ∈ s.protectedSet)

def skipFile (s : IgnoreState) (rel : Str) : Bool :=
  if s.rules = [] then false else ignores s.rules rel false && !decide (rel ∈ s.protectedSet)

end IgnoreState

end Ignore

open Ignore

/-- What the walk does at an entry. -/
inductive Visit where
  | next
  | skipDir
  | append (path : Str)

def Visit.paths : Visit → List Str
  | append p => [p]
  | _ => []

def Visit.isSkipDir : Visit → Bool
  | skipDir => true
  | _ => false

variable {E : Type}

/-- The function that `WalkDir` calls; the root has the empty address. -/
def visit (s : IgnoreState) (addr : List Str) (e : DirEntry E) : Visit :=
  if e.name = nipaDir then
    if e.isDir then .skipDir else .next
  else if addr = [] then .next
  else
    let rel := pathOf addr
    match e with
    | .dir _ _ _ => if s.skipDir rel then .skipDir else .next
    | .other _ => .next
    | .file _ => if s.skipFile rel then .next else .append rel

mutual

def walkDir (s : IgnoreState) (addr : List Str) : DirEntry E → Except E (List Str)
  | .file n => .ok (visit s addr (.file n : DirEntry E)).paths
  | .other n => .ok (visit s addr (.other n : DirEntry E)).paths
  | .dir n readErr entries =>
      if (visit s addr (.dir n readErr entries)).isSkipDir then .ok []
      else readErr.elim (walkEntries s addr entries) .error

def walkEntries (s : IgnoreState) (addr : List Str) : List (DirEntry E) → Except E (List Str)
  | [] => .ok []
  | e :: entries => do
      let paths ← walkDir s (addr ++ [e.name]) e
      let others ← walkEntries s addr entries
      pure (paths ++ others)

end

def walkWorkingFiles (s : IgnoreState) (t : WorkTree E) : Except E (List Str) := do
  let paths ← walkDir s [] (.dir t.name t.readErr t.entries)
  pure (paths.insertionSort (· ≤ ·))

/-! ## What the walk lists -/

/-- The walk comes to a file: neither the file nor a directory above it is skipped. -/
def passes (s : IgnoreState) (addr : List Str) : List Str → Bool
  | [] => true
  | n :: rest =>
      decide (n ≠ nipaDir) &&
        !(if rest = [] then s.skipFile (pathOf (addr ++ [n]))
          else s.skipDir (pathOf (addr ++ [n]))) &&
        passes s (addr ++ [n]) rest

mutual

theorem DirEntry.files_ne_nil : ∀ (e : DirEntry E), [] ∉ e.files
  | .file n => by
      rw [DirEntry.files, List.mem_singleton]
      exact (List.cons_ne_nil n []).symm
  | .other _ => List.not_mem_nil
  | .dir n _ entries => by
      rw [DirEntry.files, List.mem_map]
      rintro ⟨rest, -, heq⟩
      cases heq

theorem filesBelow_ne_nil : ∀ (entries : List (DirEntry E)), [] ∉ filesBelow entries
  | [] => List.not_mem_nil
  | e :: entries => by
      rw [filesBelow, List.mem_append, not_or]
      exact ⟨e.files_ne_nil, filesBelow_ne_nil entries⟩

end

section Visits

variable (s : IgnoreState) {addr : List Str} (n : Str)

theorem visit_file (haddr : addr ≠ []) :
    visit s addr (.file n : DirEntry E)
      = if n = nipaDir ∨ s.skipFile (pathOf addr) then .next else .append (pathOf addr) := by
  simp only [visit, DirEntry.name, DirEntry.isDir, Bool.false_eq_true, if_false]
  by_cases hname : n = nipaDir
  · rw [if_pos hname, if_pos (Or.inl hname)]
  · rw [if_neg hname, if_neg haddr]
    simp only [hname, false_or]

theorem visit_dir (haddr : addr ≠ []) (readErr : Option E) (entries : List (DirEntry E)) :
    visit s addr (.dir n readErr entries)
      = if n = nipaDir ∨ s.skipDir (pathOf addr) then .skipDir else .next := by
  simp only [visit, DirEntry.name, DirEntry.isDir, if_true]
  by_cases hname : n = nipaDir
  · rw [if_pos hname, if_pos (Or.inl hname)]
  · rw [if_neg hname, if_neg haddr]
    simp only [hname, false_or]

theorem visit_other_paths : (visit s addr (.other n : DirEntry E)).paths = [] := by
  simp only [visit, DirEntry.isDir]
  split
  · rfl
  · split
    · rfl
    · rfl

theorem walkDir_dir (haddr : addr ≠ []) (readErr : Option E) (entries : List (DirEntry E)) :
    walkDir s addr (.dir n readErr entries)
      = if n = nipaDir ∨ s.skipDir (pathOf addr) then .ok []
        else readErr.elim (walkEntries s addr entries) .error := by
  rw [walkDir, visit_dir s n haddr]
  by_cases hskip : n = nipaDir ∨ s.skipDir (pathOf addr)
  · rw [if_pos hskip, if_pos hskip]
    rfl
  · rw [if_neg hskip, if_neg hskip]
    rfl

theorem walkDir_root (readErr : Option E) (entries : List (DirEntry E)) :
    walkDir s [] (.dir n readErr entries)
      = if n = nipaDir then .ok [] else readErr.elim (walkEntries s [] entries) .error := by
  rw [walkDir]
  simp only [visit, DirEntry.name, DirEntry.isDir, if_true]
  by_cases hname : n = nipaDir
  · rw [if_pos hname, if_pos hname]
    rfl
  · rw [if_neg hname, if_neg hname]
    rfl

end Visits

theorem filter_passes_dir (s : IgnoreState) (addr : List Str) (n : Str) {files : List (List Str)}
    (hne : [] ∉ files) :
    (files.map (n :: ·)).filter (passes s addr)
      = if n = nipaDir ∨ s.skipDir (pathOf (addr ++ [n])) then []
        else (files.filter (passes s (addr ++ [n]))).map (n :: ·) := by
  rw [List.filter_map]
  have hpasses : ∀ rest ∈ files, (passes s addr ∘ (n :: ·)) rest
      = (!decide (n = nipaDir ∨ s.skipDir (pathOf (addr ++ [n])))
          && passes s (addr ++ [n]) rest) := by
    intro rest hrest
    have hsome : rest ≠ [] := fun heq => hne (heq ▸ hrest)
    change passes s addr (n :: rest) = _
    rw [passes, if_neg hsome]
    simp
  rw [List.filter_congr hpasses]
  by_cases hskip : n = nipaDir ∨ s.skipDir (pathOf (addr ++ [n]))
  · rw [if_pos hskip, decide_eq_true hskip]
    simp
  · rw [if_neg hskip, decide_eq_false hskip]
    simp

mutual

theorem walkDir_eq (s : IgnoreState) (addr : List Str) :
    ∀ (e : DirEntry E) {paths : List Str}, walkDir s (addr ++ [e.name]) e = .ok paths →
      paths = (e.files.filter (passes s addr)).map fun rest => pathOf (addr ++ rest)
  | .file n, paths, h => by
      have hsome : addr ++ [n] ≠ [] := List.append_ne_nil_of_right_ne_nil _ (List.cons_ne_nil _ _)
      rw [← Except.ok.inj h]
      change (visit s (addr ++ [n]) (.file n : DirEntry E)).paths = _
      rw [visit_file s n hsome]
      by_cases hskip : n = nipaDir ∨ s.skipFile (pathOf (addr ++ [n]))
      · rw [if_pos hskip]
        have hnot : passes s addr [n] = false := by
          rw [passes, if_pos rfl]
          cases hskip with
          | inl hname => simp [hname]
          | inr hfile => simp [hfile]
        simp [DirEntry.files, hnot, Visit.paths]
      · rw [if_neg hskip]
        rw [not_or] at hskip
        simp [DirEntry.files, passes, hskip.1, hskip.2, Visit.paths]
  | .other n, paths, h => by
      rw [← Except.ok.inj h]
      exact visit_other_paths s n
  | .dir n readErr entries, paths, h => by
      have hsome : addr ++ [n] ≠ [] := List.append_ne_nil_of_right_ne_nil _ (List.cons_ne_nil _ _)
      change walkDir s (addr ++ [n]) (.dir n readErr entries) = .ok paths at h
      rw [walkDir_dir s n hsome] at h
      rw [DirEntry.files, filter_passes_dir s addr n (filesBelow_ne_nil entries)]
      by_cases hskip : n = nipaDir ∨ s.skipDir (pathOf (addr ++ [n]))
      · rw [if_pos hskip] at h ⊢
        exact (Except.ok.inj h).symm
      · rw [if_neg hskip] at h ⊢
        cases readErr with
        | some err => cases h
        | none =>
            rw [walkEntries_eq s (addr ++ [n]) entries h, List.map_map]
            apply List.map_congr_left
            intro rest _
            change _ = pathOf (addr ++ n :: rest)
            rw [List.append_assoc, List.singleton_append]

theorem walkEntries_eq (s : IgnoreState) (addr : List Str) :
    ∀ (entries : List (DirEntry E)) {paths : List Str}, walkEntries s addr entries = .ok paths →
      paths = ((filesBelow entries).filter (passes s addr)).map fun rest => pathOf (addr ++ rest)
  | [], paths, h => (Except.ok.inj h).symm
  | e :: entries, paths, h => by
      rw [walkEntries] at h
      cases hfirst : walkDir s (addr ++ [e.name]) e with
      | error err =>
          rw [hfirst] at h
          cases h
      | ok first =>
          rw [hfirst] at h
          cases hothers : walkEntries s addr entries with
          | error err =>
              rw [hothers] at h
              cases h
          | ok others =>
              rw [hothers] at h
              rw [← Except.ok.inj h, filesBelow, List.filter_append, List.map_append,
                ← walkDir_eq s addr e hfirst, ← walkEntries_eq s addr entries hothers]

end

mutual

theorem walkDir_ok (s : IgnoreState) {addr : List Str} (haddr : addr ≠ []) :
    ∀ (e : DirEntry E), e.Readable → ∃ paths, walkDir s addr e = .ok paths
  | .file _, _ => ⟨_, rfl⟩
  | .other _, _ => ⟨_, rfl⟩
  | .dir n readErr entries, h => by
      rw [walkDir_dir s n haddr]
      by_cases hskip : n = nipaDir ∨ s.skipDir (pathOf addr)
      · exact ⟨[], if_pos hskip⟩
      · rw [if_neg hskip, h.1]
        exact walkEntries_ok s addr entries h.2

theorem walkEntries_ok (s : IgnoreState) (addr : List Str) :
    ∀ (entries : List (DirEntry E)), ReadableBelow entries →
      ∃ paths, walkEntries s addr entries = .ok paths
  | [], _ => ⟨[], rfl⟩
  | e :: entries, h => by
      have hsome : addr ++ [e.name] ≠ [] :=
        List.append_ne_nil_of_right_ne_nil _ (List.cons_ne_nil _ _)
      obtain ⟨first, hfirst⟩ := walkDir_ok s hsome e h.1
      obtain ⟨others, hothers⟩ := walkEntries_ok s addr entries h.2
      refine ⟨first ++ others, ?_⟩
      rw [walkEntries, hfirst, hothers]
      rfl

end

/-! ## The skipped directories -/

theorem passes_iff (s : IgnoreState) (addr segs : List Str) :
    passes s addr segs = true ↔
      nipaDir ∉ segs ∧ ∀ pre n post, segs = pre ++ n :: post →
        (if post = [] then s.skipFile (pathOf (addr ++ (pre ++ [n])))
          else s.skipDir (pathOf (addr ++ (pre ++ [n])))) = false := by
  induction segs generalizing addr with
  | nil =>
      refine ⟨fun _ => ⟨List.not_mem_nil, fun pre n post heq => ?_⟩, fun _ => rfl⟩
      exact absurd heq.symm (List.append_ne_nil_of_right_ne_nil _ (List.cons_ne_nil _ _))
  | cons m rest ih =>
      rw [passes, Bool.and_eq_true, Bool.and_eq_true, ih, decide_eq_true_eq, Bool.not_eq_true',
        List.mem_cons, not_or, and_and_and_comm, and_assoc]
      constructor
      · rintro ⟨hname, hrest, hfirst, hbelow⟩
        refine ⟨⟨Ne.symm hname, hrest⟩, fun pre n post heq => ?_⟩
        cases pre with
        | nil =>
            obtain ⟨rfl, rfl⟩ := List.cons.inj heq
            exact hfirst
        | cons k pre =>
            obtain ⟨rfl, htail⟩ := List.cons.inj heq
            have hskip := hbelow pre n post htail
            rwa [List.append_assoc] at hskip
      · rintro ⟨⟨hname, hrest⟩, hall⟩
        refine ⟨Ne.symm hname, hrest, hall [] m rest rfl, fun pre n post heq => ?_⟩
        have hskip := hall (m :: pre) n post (by rw [heq]; rfl)
        rwa [List.append_assoc]

namespace Ignore

theorem slash_isPrefix_iff {q d m : Str} (hm : '/' ∉ m) :
    q ++ ['/'] <+: d ++ '/' :: m ↔ q = d ∨ q ++ ['/'] <+: d := by
  constructor
  · rintro ⟨t, ht⟩
    rw [List.append_assoc, List.singleton_append] at ht
    cases List.append_eq_append_iff.mp ht with
    | inl hlonger =>
        obtain ⟨a, hd, ha⟩ := hlonger
        cases a with
        | nil => exact Or.inl (by rw [hd, List.append_nil])
        | cons c a =>
            obtain ⟨rfl, -⟩ := List.cons.inj ha
            refine Or.inr ⟨a, ?_⟩
            rw [hd, List.append_assoc]
            rfl
    | inr hshorter =>
        obtain ⟨c, hq, hc⟩ := hshorter
        cases c with
        | nil => exact Or.inl (by rw [hq, List.append_nil])
        | cons c' c =>
            obtain ⟨-, hslash⟩ := List.cons.inj hc
            rw [hslash] at hm
            exact absurd (List.mem_append_right _ List.mem_cons_self) hm
  · rintro (rfl | ⟨t, rfl⟩)
    · exact ⟨m, by rw [List.append_assoc]; rfl⟩
    · exact ⟨t ++ '/' :: m, by simp⟩

theorem mem_parentsFrom {q p : Str} {steps : ℕ} (hsteps : p.length ≤ steps) :
    q ∈ parentsFrom steps p ↔ q ≠ [] ∧ q ++ ['/'] <+: p := by
  induction steps generalizing p with
  | zero =>
      rw [List.length_eq_zero_iff.mp (Nat.le_zero.mp hsteps)]
      simp [parentsFrom]
  | succ steps ih =>
      rw [parentsFrom]
      cases notMem_or_eq_append_cons '/' p with
      | inl hnone =>
          rw [lastIndex_eq_none hnone]
          refine ⟨fun hq => absurd hq List.not_mem_nil, fun hq => absurd ?_ hnone⟩
          exact hq.2.subset (List.mem_append_right _ (List.mem_singleton_self _))
      | inr hcut =>
          obtain ⟨d, m, hm, rfl⟩ := hcut
          rw [lastIndex_append_cons hm, slash_isPrefix_iff hm]
          dsimp only
          rw [List.length_append, List.length_cons] at hsteps
          by_cases hd : 0 < d.length
          · rw [if_pos hd, List.take_left' rfl, List.mem_cons, ih (by omega), and_or_left]
            have hne : d ≠ [] := List.length_pos_iff.mp hd
            constructor
            · exact Or.imp (fun heq => ⟨heq ▸ hne, heq⟩) id
            · exact Or.imp And.right id
          · have hnil : d = [] := List.length_eq_zero_iff.mp (by omega)
            rw [if_neg hd, hnil]
            simp

theorem mem_protectedSet {rules : List Rule} {tracked : List Str} {q : Str} :
    q ∈ (newIgnoreState rules tracked).protectedSet ↔
      ∃ p ∈ tracked, p ≠ [] ∧ (q = p ∨ q ≠ [] ∧ q ++ ['/'] <+: p) := by
  simp only [newIgnoreState, List.mem_flatMap, List.mem_filter, decide_eq_true_eq, List.mem_cons,
    parents, mem_parentsFrom (le_refl _), and_assoc]

theorem mem_protectedSet_of_none_below {rules : List Rule} {tracked : List Str} {q : Str}
    (hq : q ≠ []) (hnone : ∀ p ∈ tracked, ¬ q ++ ['/'] <+: p) :
    q ∈ (newIgnoreState rules tracked).protectedSet ↔ q ∈ tracked := by
  rw [mem_protectedSet]
  constructor
  · rintro ⟨p, hp, -, hcase⟩
    cases hcase with
    | inl heq => rwa [heq]
    | inr hbelow => exact absurd hbelow.2 (hnone p hp)
  · exact fun hmem => ⟨q, hmem, hq, Or.inl rfl⟩

theorem protectedSet_above {rules : List Rule} {tracked : List Str} {q r : Str} (hr : r ≠ [])
    (habove : r ++ ['/'] <+: q) (hq : q ∈ (newIgnoreState rules tracked).protectedSet) :
    r ∈ (newIgnoreState rules tracked).protectedSet := by
  obtain ⟨p, hp, hne, hcase⟩ := mem_protectedSet.mp hq
  refine mem_protectedSet.mpr ⟨p, hp, hne, Or.inr ⟨hr, ?_⟩⟩
  cases hcase with
  | inl heq => rwa [← heq]
  | inr hbelow => exact habove.trans ((List.prefix_append q ['/']).trans hbelow.2)

end Ignore

/-! ## What is ignored -/

namespace Ignore

variable {rules : List Rule} {segs : List Str}

/-- Addresses that entries can have. -/
def EntrySegs (segs : List Str) : Prop :=
  segs ≠ [] ∧ ∀ n ∈ segs, EntryName n

theorem EntrySegs.valid (h : EntrySegs segs) : ValidSegs segs :=
  ⟨h.1, fun n hn => (h.2 n hn).1⟩

theorem EntrySegs.of_isPrefix {pre : List Str} (h : EntrySegs segs) (hpre : pre <+: segs)
    (hne : pre ≠ []) : EntrySegs pre :=
  ⟨hne, fun n hn => h.2 n (hpre.subset hn)⟩

theorem EntrySegs.pathOf_ne_nil (h : EntrySegs segs) : pathOf segs ≠ [] :=
  fun heq => h.1 ((pathOf_eq_nil_iff h.valid.2).mp heq)

theorem EntrySegs.pathOf_ne_dot (h : EntrySegs segs) : pathOf segs ≠ ".".toList := by
  intro heq
  have hone : ValidSegs [".".toList] :=
    ⟨List.cons_ne_nil _ _, fun n hn => by
      rw [List.mem_singleton.mp hn]
      exact ⟨List.cons_ne_nil _ _, by decide⟩⟩
  have hsegs : segs = [".".toList] := by
    apply pathOf_injective h.valid hone
    rw [heq, pathOf_singleton]
  exact (h.2 ".".toList (by rw [hsegs]; exact List.mem_singleton_self _)).2.1 rfl

theorem ignores_pathOf (hrules : rules ≠ []) (h : EntrySegs segs) (isDir : Bool) :
    ignores rules (pathOf segs) isDir = true ↔
      (∃ pre post, segs = pre ++ post ∧ pre ≠ [] ∧ post ≠ [] ∧
        matchRules rules (pathOf pre) true = true) ∨
      matchRules rules (pathOf segs) isDir = true := by
  unfold ignores
  rw [if_neg (not_or.mpr ⟨hrules, not_or.mpr ⟨h.pathOf_ne_nil, h.pathOf_ne_dot⟩⟩)]
  dsimp only
  rw [splitOn_pathOf h.valid, Bool.or_eq_true, List.any_eq_true]
  apply or_congr_left
  constructor
  · rintro ⟨i, hi, hmatch⟩
    rw [List.mem_range'_1] at hi
    refine ⟨segs.take i, segs.drop i, (List.take_append_drop i segs).symm, ?_, ?_, hmatch⟩
    · rw [← List.length_pos_iff, List.length_take]
      omega
    · rw [← List.length_pos_iff, List.length_drop]
      omega
  · rintro ⟨pre, post, rfl, hpre, hpost, hmatch⟩
    refine ⟨pre.length, ?_, ?_⟩
    · have hlen := List.length_pos_iff.mpr hpre
      have hlen' := List.length_pos_iff.mpr hpost
      rw [List.mem_range'_1, List.length_append]
      omega
    · rwa [List.take_left' rfl]

theorem ignores_below {pre post : List Str} (h : EntrySegs (pre ++ post)) (hpre : pre ≠ [])
    (hpost : post ≠ []) (hdir : ignores rules (pathOf pre) true = true) (isDir : Bool) :
    ignores rules (pathOf (pre ++ post)) isDir = true := by
  have hrules : rules ≠ [] := by
    rintro rfl
    simp [ignores] at hdir
  have hpreSegs := h.of_isPrefix (List.prefix_append pre post) hpre
  rw [ignores_pathOf hrules h]
  cases (ignores_pathOf hrules hpreSegs true).mp hdir with
  | inl habove =>
      obtain ⟨top, rest, heq, htop, hrest, hmatch⟩ := habove
      refine Or.inl ⟨top, rest ++ post, ?_, htop, ?_, hmatch⟩
      · rw [heq, List.append_assoc]
      · exact List.append_ne_nil_of_right_ne_nil _ hpost
  | inr hself => exact Or.inl ⟨pre, post, rfl, hpre, hpost, hself⟩

variable {tracked : List Str}

theorem skipFile_eq (rel : Str) : (newIgnoreState rules tracked).skipFile rel = false ↔
    ignores rules rel false = false ∨ rel ∈ (newIgnoreState rules tracked).protectedSet := by
  unfold IgnoreState.skipFile
  change (if rules = [] then false else ignores rules rel false && !decide _) = false ↔ _
  split
  case isTrue hnone => simp [ignores, hnone]
  case isFalse => rw [Bool.and_eq_false_iff, Bool.not_eq_false', decide_eq_true_eq]

theorem skipDir_eq (rel : Str) : (newIgnoreState rules tracked).skipDir rel = false ↔
    ignores rules rel true = false ∨ rel ∈ (newIgnoreState rules tracked).protectedSet := by
  unfold IgnoreState.skipDir
  change (if rules = [] then false else ignores rules rel true && !decide _) = false ↔ _
  split
  case isTrue hnone => simp [ignores, hnone]
  case isFalse => rw [Bool.and_eq_false_iff, Bool.not_eq_false', decide_eq_true_eq]

/-- The skipped directories make no difference: the decision about the file is the one that
counts. -/
theorem passes_root_iff (h : EntrySegs segs) :
    passes (newIgnoreState rules tracked) [] segs = true ↔
      nipaDir ∉ segs ∧ (ignores rules (pathOf segs) false = false ∨
        pathOf segs ∈ (newIgnoreState rules tracked).protectedSet) := by
  rw [passes_iff, and_congr_right_iff]
  intro _
  constructor
  · intro hall
    obtain ⟨pre, n, rfl⟩ := (List.eq_nil_or_concat' segs).resolve_left h.1
    have hlast := hall pre n [] rfl
    rwa [if_pos rfl, List.nil_append, skipFile_eq] at hlast
  · intro hfile pre n post heq
    rw [List.nil_append]
    by_cases hpost : post = []
    · rw [if_pos hpost, skipFile_eq]
      rwa [heq, hpost] at hfile
    · rw [if_neg hpost, skipDir_eq]
      have hsplit : segs = (pre ++ [n]) ++ post := by
        rw [heq, List.append_assoc, List.singleton_append]
      have hpre : pre ++ [n] ≠ [] := List.append_ne_nil_of_right_ne_nil _ (List.cons_ne_nil _ _)
      rw [hsplit] at h hfile
      cases hfile with
      | inl hkept =>
          refine Or.inl (Bool.eq_false_iff.mpr fun hdir => ?_)
          rw [ignores_below h hpre hpost hdir] at hkept
          cases hkept
      | inr hprotected =>
          refine Or.inr (protectedSet_above ?_ ?_ hprotected)
          · exact (h.of_isPrefix (List.prefix_append _ _) hpre).pathOf_ne_nil
          · refine ⟨pathOf post, ?_⟩
            change _ = joinWith '/' _
            rw [joinWith_append hpre hpost, List.append_assoc]
            rfl

end Ignore

/-! ## The addresses of the files -/

mutual

theorem DirEntry.files_head : ∀ (e : DirEntry E), ∀ segs ∈ e.files, segs.head? = some e.name
  | .file n, segs, h => by
      rw [List.mem_singleton.mp h]
      rfl
  | .other _, _, h => absurd h List.not_mem_nil
  | .dir n _ entries, segs, h => by
      obtain ⟨rest, -, rfl⟩ := List.mem_map.mp h
      rfl

theorem filesBelow_head :
    ∀ (entries : List (DirEntry E)), ∀ segs ∈ filesBelow entries,
      ∃ n ∈ entries.map DirEntry.name, segs.head? = some n
  | [], _, h => absurd h List.not_mem_nil
  | e :: entries, segs, h => by
      cases List.mem_append.mp h with
      | inl hfirst => exact ⟨e.name, List.mem_cons_self, e.files_head segs hfirst⟩
      | inr hothers =>
          obtain ⟨n, hn, hhead⟩ := filesBelow_head entries segs hothers
          exact ⟨n, List.mem_cons_of_mem _ hn, hhead⟩

end

mutual

theorem DirEntry.files_entrySegs : ∀ (e : DirEntry E), e.Valid → ∀ segs ∈ e.files, EntrySegs segs
  | .file n, hvalid, segs, h => by
      rw [List.mem_singleton.mp h]
      refine ⟨List.cons_ne_nil _ _, fun m hm => ?_⟩
      rwa [List.mem_singleton.mp hm]
  | .other _, _, _, h => absurd h List.not_mem_nil
  | .dir n _ entries, hvalid, segs, h => by
      obtain ⟨rest, hrest, rfl⟩ := List.mem_map.mp h
      have hbelow := filesBelow_entrySegs entries hvalid.2 rest hrest
      refine ⟨List.cons_ne_nil _ _, fun m hm => ?_⟩
      cases List.mem_cons.mp hm with
      | inl heq => rw [heq]; exact hvalid.1
      | inr hmem => exact hbelow.2 m hmem

theorem filesBelow_entrySegs :
    ∀ (entries : List (DirEntry E)), ValidEntries entries →
      ∀ segs ∈ filesBelow entries, EntrySegs segs
  | [], _, _, h => absurd h List.not_mem_nil
  | e :: entries, hvalid, segs, h => by
      cases List.mem_append.mp h with
      | inl hfirst => exact e.files_entrySegs hvalid.1 segs hfirst
      | inr hothers => exact filesBelow_entrySegs entries hvalid.2.2 segs hothers

end

mutual

theorem DirEntry.files_nodup : ∀ (e : DirEntry E), e.Valid → e.files.Nodup
  | .file _, _ => List.nodup_singleton _
  | .other _, _ => List.nodup_nil
  | .dir _ _ entries, hvalid =>
      (filesBelow_nodup entries hvalid.2).map fun _ _ heq => (List.cons.inj heq).2

theorem filesBelow_nodup :
    ∀ (entries : List (DirEntry E)), ValidEntries entries → (filesBelow entries).Nodup
  | [], _ => List.nodup_nil
  | e :: entries, hvalid => by
      rw [filesBelow, List.nodup_append]
      refine ⟨e.files_nodup hvalid.1, filesBelow_nodup entries hvalid.2.2, ?_⟩
      rintro segs hfirst _ hothers rfl
      obtain ⟨n, hn, hhead⟩ := filesBelow_head entries segs hothers
      rw [e.files_head segs hfirst] at hhead
      rw [← Option.some.inj hhead] at hn
      exact hvalid.2.1 hn

end

theorem walkWorkingFiles_eq {s : IgnoreState} {t : WorkTree E} {paths : List Str}
    (h : walkWorkingFiles s t = .ok paths) :
    paths = (if t.name = nipaDir then []
      else ((filesBelow t.entries).filter (passes s [])).map pathOf).insertionSort (· ≤ ·) := by
  unfold walkWorkingFiles at h
  rw [walkDir_root] at h
  by_cases hname : t.name = nipaDir
  · rw [if_pos hname] at h ⊢
    exact (Except.ok.inj h).symm
  · rw [if_neg hname] at h ⊢
    cases hread : t.readErr with
    | some err =>
        rw [hread] at h
        cases h
    | none =>
        rw [hread] at h
        change (walkEntries s [] t.entries >>= _) = _ at h
        cases hwalk : walkEntries s [] t.entries with
        | error err =>
            rw [hwalk] at h
            cases h
        | ok found =>
            rw [hwalk] at h
            rw [← Except.ok.inj h, walkEntries_eq s [] t.entries hwalk]
            rfl

/-- Where the directories can be read the walk comes to its end.  It then lists, sorted and
once each, the regular files whose path has no component named like the metadata directory
and which are not ignored or are tracked; nothing is said of a path with a tracked path below
it. -/
theorem walkWorkingFiles_exact (t : WorkTree E) (rules : List Rule) (tracked : List Str) :
    (t.readErr = none → ReadableBelow t.entries →
      ∃ paths, walkWorkingFiles (newIgnoreState rules tracked) t = .ok paths) ∧
    ∀ paths, walkWorkingFiles (newIgnoreState rules tracked) t = .ok paths →
      paths.Pairwise (· ≤ ·) ∧ paths.Nodup ∧
      ∀ p, (∀ q ∈ tracked, ¬ p ++ ['/'] <+: q) →
        (p ∈ paths ↔ t.name ≠ nipaDir ∧ ∃ segs ∈ filesBelow t.entries, p = pathOf segs ∧
          nipaDir ∉ segs ∧ (ignores rules p false = false ∨ p ∈ tracked)) := by
  constructor
  · intro hread hbelow
    unfold walkWorkingFiles
    rw [walkDir_root, hread]
    obtain ⟨found, hfound⟩ :=
      walkEntries_ok (newIgnoreState rules tracked) [] t.entries hbelow
    by_cases hname : t.name = nipaDir
    · rw [if_pos hname]
      exact ⟨_, rfl⟩
    · rw [if_neg hname]
      change ∃ paths, (walkEntries _ [] t.entries >>= _) = .ok paths
      rw [hfound]
      exact ⟨_, rfl⟩
  · intro paths hpaths
    have heq := walkWorkingFiles_eq hpaths
    have hsegs := filesBelow_entrySegs t.entries t.valid
    refine ⟨?_, ?_, fun p hnone => ?_⟩
    · rw [heq]
      exact List.pairwise_insertionSort _ _
    · rw [heq, (List.perm_insertionSort _ _).nodup_iff]
      split
      · exact List.nodup_nil
      · refine List.Nodup.map_on ?_ ((filesBelow_nodup t.entries t.valid).filter _)
        intro segs hmem segs' hmem' hsame
        exact pathOf_injective (hsegs segs (List.mem_filter.mp hmem).1).valid
          (hsegs segs' (List.mem_filter.mp hmem').1).valid hsame
    · rw [heq, List.mem_insertionSort]
      by_cases hname : t.name = nipaDir
      · rw [if_pos hname]
        exact ⟨fun hp => absurd hp List.not_mem_nil, fun hp => absurd hname hp.1⟩
      · rw [if_neg hname, List.mem_map]
        constructor
        · rintro ⟨segs, hmem, rfl⟩
          obtain ⟨hfile, hpasses⟩ := List.mem_filter.mp hmem
          have hentry := hsegs segs hfile
          rw [passes_root_iff hentry,
            mem_protectedSet_of_none_below hentry.pathOf_ne_nil hnone] at hpasses
          exact ⟨hname, segs, hfile, rfl, hpasses⟩
        · rintro ⟨-, segs, hfile, rfl, hkept⟩
          have hentry := hsegs segs hfile
          refine ⟨segs, List.mem_filter.mpr ⟨hfile, ?_⟩, rfl⟩
          rwa [passes_root_iff hentry,
            mem_protectedSet_of_none_below hentry.pathOf_ne_nil hnone]

/-- A working tree with a file in the metadata directory and two beside it. -/
def smallTree : WorkTree Unit where
  name := ['r']
  readErr := none
  entries := [.dir nipaDir none [.file ['c']], .file ['a'], .file ['b']]
  valid := by
    have hc : EntryName ['c'] := ⟨⟨List.cons_ne_nil _ _, by decide⟩, by decide, by decide⟩
    have ha : EntryName ['a'] := ⟨⟨List.cons_ne_nil _ _, by decide⟩, by decide, by decide⟩
    have hb : EntryName ['b'] := ⟨⟨List.cons_ne_nil _ _, by decide⟩, by decide, by decide⟩
    have hnipa : EntryName nipaDir := ⟨⟨by decide, by decide⟩, by decide, by decide⟩
    exact ⟨⟨hnipa, hc, List.not_mem_nil, trivial⟩, by decide, ha, by decide, hb,
      List.not_mem_nil, trivial⟩

def smallRules : List Rule := Ignore.new none (some ['b'])

theorem smallTree_walk :
    walkWorkingFiles (newIgnoreState smallRules []) smallTree = .ok [['a']] := by
  decide

theorem walkWorkingFiles_exact_small : ∃ paths,
    walkWorkingFiles (newIgnoreState smallRules []) smallTree = .ok paths ∧
      ['a'] ∈ paths ∧ ['b'] ∉ paths := by
  obtain ⟨hends, hlists⟩ := walkWorkingFiles_exact smallTree smallRules []
  obtain ⟨paths, hpaths⟩ := hends rfl ⟨⟨rfl, trivial, trivial⟩, trivial, trivial, trivial⟩
  have hiff := fun p => (hlists paths hpaths).2.2 p fun _ hq => absurd hq List.not_mem_nil
  refine ⟨paths, hpaths, (hiff ['a']).mpr ⟨by decide, [['a']], by decide, rfl, by decide,
    Or.inl (by decide)⟩, ?_⟩
  rw [hiff]
  rintro ⟨-, segs, -, -, -, hkept | hkept⟩
  · exact absurd hkept (by decide)
  · exact absurd hkept List.not_mem_nil

theorem walkWorkingFiles_skips_metadata :
    ¬ ∀ (t : WorkTree Unit) (rules : List Rule) (tracked paths : List Str),
      walkWorkingFiles (newIgnoreState rules tracked) t = .ok paths →
        ∀ p, p ∈ paths ↔ ∃ segs ∈ filesBelow t.entries, p = pathOf segs ∧
          (ignores rules p false = false ∨ p ∈ tracked) := by
  intro hall
  have hmem := (hall smallTree smallRules [] [['a']] smallTree_walk (pathOf [nipaDir, ['c']])).mpr
    ⟨[nipaDir, ['c']], List.mem_cons_self, rfl, Or.inl (by decide)⟩
  exact absurd hmem (by decide)

end Nipa
