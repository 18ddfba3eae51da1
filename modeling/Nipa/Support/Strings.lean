import Mathlib.Data.Char
import Mathlib.Data.List.DropRight
import Mathlib.Data.List.Infix
import Mathlib.Data.List.Lex

/-!
# Strings as character lists

The standard string operations that path handling is written with, over lists
of characters: searching for the last occurrence of a separator, trimming,
splitting and joining.  The lemmas describe them on strings cut at their last
separator, which is the only way the path functions look at a string.
-/

namespace Nipa.Support

/-- A string as the list of its characters. -/
abbrev Str := List Char

instance : LawfulBEq Str := inferInstance

/-- The UTF-8 bytes of a string. -/
def utf8 (s : Str) : List UInt8 :=
  s.flatMap String.utf8EncodeChar

theorem utf8_injective : Function.Injective utf8 := by
  intro s t h
  have hbytes : s.utf8Encode = t.utf8Encode := by
    rw [List.utf8Encode, List.utf8Encode]
    exact congrArg List.toByteArray h
  have hstr : String.ofList s = String.ofList t := by
    apply String.toByteArray_inj.mp
    rw [String.toByteArray_ofList, String.toByteArray_ofList, hbytes]
  simpa using congrArg String.toList hstr

/-- Position of the last occurrence of `c`. -/
def lastIndex (c : Char) (s : Str) : Option ℕ :=
  match s.reverse.findIdx? (· = c) with
  | none => none
  | some i => some (s.length - 1 - i)

/-- Everything before the last `c`, or the empty string without one. -/
def beforeLast (c : Char) (s : Str) : Str :=
  match lastIndex c s with
  | none => []
  | some i => s.take i

/-- Everything after the last `c`, or the whole string without one. -/
def afterLast (c : Char) (s : Str) : Str :=
  match lastIndex c s with
  | none => s
  | some i => s.drop (i + 1)

variable {c : Char} {s : Str}

theorem lastIndex_eq_none (h : c ∉ s) : lastIndex c s = none := by
  have hfind : s.reverse.findIdx? (· = c) = none := by
    rw [List.findIdx?_eq_none_iff]
    intro x hx
    have : x ≠ c := by
      rintro rfl
      exact h (List.mem_reverse.mp hx)
    simpa using this
  rw [lastIndex, hfind]

variable {n : Str}

theorem lastIndex_append_cons {d : Str} (hn : c ∉ n) :
    lastIndex c (d ++ c :: n) = some d.length := by
  have hfind : (d ++ c :: n).reverse.findIdx? (· = c) = some n.length := by
    have hrev : (d ++ c :: n).reverse = n.reverse ++ c :: d.reverse := by simp
    have hnone : n.reverse.findIdx? (· = c) = none := by
      rw [List.findIdx?_eq_none_iff]
      intro x hx
      have : x ≠ c := by
        rintro rfl
        exact hn (List.mem_reverse.mp hx)
      simpa using this
    rw [hrev, List.findIdx?_append, hnone]
    simp [List.findIdx?_cons]
  rw [lastIndex, hfind]
  simp

theorem beforeLast_of_notMem (h : c ∉ s) : beforeLast c s = [] := by
  rw [beforeLast, lastIndex_eq_none h]

theorem afterLast_of_notMem (h : c ∉ s) : afterLast c s = s := by
  rw [afterLast, lastIndex_eq_none h]

theorem beforeLast_append_cons {d : Str} (hn : c ∉ n) : beforeLast c (d ++ c :: n) = d := by
  rw [beforeLast, lastIndex_append_cons hn]
  simp

theorem afterLast_append_cons {d : Str} (hn : c ∉ n) : afterLast c (d ++ c :: n) = n := by
  rw [afterLast, lastIndex_append_cons hn]
  simp

theorem notMem_or_eq_append_cons (c : Char) (s : Str) :
    c ∉ s ∨ ∃ d n, c ∉ n ∧ s = d ++ c :: n := by
  induction s using List.reverseRecOn with
  | nil => exact Or.inl (by simp)
  | append_singleton s x ih =>
      by_cases hx : x = c
      · subst hx
        exact Or.inr ⟨s, [], by simp, rfl⟩
      · rcases ih with hs | ⟨d, n, hn, rfl⟩
        · refine Or.inl ?_
          simpa [hs] using Ne.symm hx
        · refine Or.inr ⟨d, n ++ [x], ?_, by simp⟩
          simpa [hn] using Ne.symm hx

/-- The string without a leading `p`, when it starts with one. -/
def trimPrefix (s p : Str) : Str :=
  if p.isPrefixOf s then s.drop p.length else s

/-- The string without leading and trailing occurrences of `c`. -/
def trimChar (c : Char) (s : Str) : Str :=
  (s.dropWhile (· = c)).rdropWhile (· = c)

theorem trimChar_eq_self (hhead : s.head? ≠ some c) (hlast : s.getLast? ≠ some c) :
    trimChar c s = s := by
  have hdrop : s.dropWhile (· = c) = s := by
    cases s with
    | nil => rfl
    | cons x xs =>
        have hx : ¬x = c := by
          intro h
          exact hhead (by simp [h])
        simp [hx]
  rw [trimChar, hdrop, List.rdropWhile_eq_self_iff]
  intro hne
  have hx : ¬s.getLast hne = c := by
    intro h
    exact hlast (by rw [List.getLast?_eq_getLast_of_ne_nil hne, h])
  simpa using hx

/-- Characters that count as white space in text. -/
def isSpace (c : Char) : Bool :=
  c.toNat ∈ [0x09, 0x0A, 0x0B, 0x0C, 0x0D, 0x20, 0x85, 0xA0, 0x1680,
    0x2000, 0x2001, 0x2002, 0x2003, 0x2004, 0x2005, 0x2006, 0x2007, 0x2008,
    0x2009, 0x200A, 0x2028, 0x2029, 0x202F, 0x205F, 0x3000]

/-- The string without leading and trailing white space. -/
def trimSpace (s : Str) : Str :=
  (s.dropWhile isSpace).rdropWhile isSpace

/-- Case-insensitive comparison of ASCII text. -/
def equalFold (s t : Str) : Bool :=
  s.map Char.toLower = t.map Char.toLower

/-- Join segments with a separator. -/
def joinWith (c : Char) (segs : List Str) : Str :=
  [c].intercalate segs

@[simp] theorem joinWith_singleton (c : Char) (n : Str) :
    joinWith c [n] = n := by
  simp [joinWith]

variable {segs : List Str}

theorem joinWith_cons (h : segs ≠ []) : joinWith c (n :: segs) = n ++ c :: joinWith c segs := by
  obtain ⟨m, rest, rfl⟩ := List.exists_cons_of_ne_nil h
  simp [joinWith, List.intercalate, List.intersperse]

theorem joinWith_append {segs' : List Str} (h : segs ≠ []) (h' : segs' ≠ []) :
    joinWith c (segs ++ segs') = joinWith c segs ++ c :: joinWith c segs' := by
  induction segs with
  | nil => exact absurd rfl h
  | cons n rest ih =>
      by_cases hrest : rest = []
      · subst hrest
        rw [List.singleton_append, joinWith_cons h', joinWith_singleton]
      · rw [List.cons_append, joinWith_cons (by simp [h']), ih hrest, joinWith_cons hrest,
          List.append_assoc, List.cons_append]

theorem joinWith_concat (h : segs ≠ []) : joinWith c (segs ++ [n]) = joinWith c segs ++ c :: n := by
  rw [joinWith_append h (List.cons_ne_nil n []), joinWith_singleton]

theorem splitOn_joinWith (hsegs : ∀ n ∈ segs, c ∉ n) (h : segs ≠ []) :
    (joinWith c segs).splitOn c = segs :=
  List.splitOn_intercalate c hsegs h

theorem joinWith_splitOn (c : Char) (s : Str) :
    joinWith c (s.splitOn c) = s :=
  List.intercalate_splitOn c

theorem notMem_of_mem_splitOn (hn : n ∈ s.splitOn c) : c ∉ n := by
  induction hlen : s.length using Nat.strongRecOn generalizing s n with
  | ind k ih =>
      rcases notMem_or_eq_append_cons c s with hs | ⟨d, m, hm, rfl⟩
      · rw [List.splitOn_eq_singleton hs, List.mem_singleton] at hn
        rwa [hn]
      · rw [List.splitOn_append_cons_self, List.splitOn_eq_singleton hm,
          List.mem_append, List.mem_singleton] at hn
        rcases hn with hn | rfl
        · refine ih d.length ?_ hn rfl
          rw [← hlen, List.length_append, List.length_cons]
          omega
        · exact hm

theorem joinWith_injective {segs' : List Str} (hsegs : ∀ n ∈ segs, c ∉ n)
    (hsegs' : ∀ n ∈ segs', c ∉ n) (h : segs ≠ []) (h' : segs' ≠ [])
    (heq : joinWith c segs = joinWith c segs') : segs = segs' := by
  rw [← splitOn_joinWith hsegs h, heq, splitOn_joinWith hsegs' h']

end Nipa.Support
