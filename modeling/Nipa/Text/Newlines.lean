import Nipa.Text.LineDiff

/-!
# Splitting a text into lines

`strings.SplitAfter(s, "\n")` cuts a text after every newline.  All pieces but
the last end in their only newline and the last has none; this determines the
pieces, so texts put together from lines are split into these lines again.
-/

namespace Nipa

namespace Text

def newline : UInt8 := 10

/-- `strings.SplitAfter(s, "\n")`. -/
def splitAfter : List UInt8 → List Line
  | [] => [[]]
  | c :: cs =>
      if c = newline then [c] :: splitAfter cs
      else
        match splitAfter cs with
        | [] => [[c]]
        | l :: ls => (c :: l) :: ls

example : splitAfter [97, 10, 98] = [[97, 10], [98]] := by simp [splitAfter, newline]

/-- The lines of a text for a diff; a final newline starts no line of its own. -/
def splitLines (data : List UInt8) : List Line :=
  if data = [] then []
  else
    let lines := splitAfter data
    if lines.getLast? = some [] then lines.dropLast else lines

/-- `strings.HasSuffix(l, "\n")`. -/
def endsInNewline (l : Line) : Bool :=
  l.getLast? = some newline

/-- The only newline of the line is its last byte. -/
def Terminated (l : Line) : Prop :=
  ∃ w, newline ∉ w ∧ l = w ++ [newline]

theorem Terminated.endsInNewline {l : Line} (h : Terminated l) : endsInNewline l = true := by
  obtain ⟨w, -, rfl⟩ := h
  simp [Text.endsInNewline]

theorem Terminated.ne_nil {l : Line} (h : Terminated l) : l ≠ [] := by
  obtain ⟨w, -, rfl⟩ := h
  simp

theorem Terminated.cons {l : Line} (h : Terminated l) {c : UInt8} (hc : c ≠ newline) :
    Terminated (c :: l) := by
  obtain ⟨w, hw, rfl⟩ := h
  exact ⟨c :: w, by simp [hw, hc.symm], rfl⟩

theorem terminated_newline : Terminated [newline] :=
  ⟨[], by simp, rfl⟩

theorem endsInNewline_of_notMem {l : Line} (h : newline ∉ l) : endsInNewline l = false := by
  rw [endsInNewline, decide_eq_false_iff_not]
  exact fun hlast => h (List.mem_of_getLast? hlast)

/-! ## The pieces -/

theorem splitAfter_ne_nil (s : List UInt8) : splitAfter s ≠ [] := by
  cases s with
  | nil => simp [splitAfter]
  | cons c cs =>
      rw [splitAfter]
      split
      · simp
      · split <;> simp

theorem splitAfter_flatten (s : List UInt8) : (splitAfter s).flatten = s := by
  induction s with
  | nil => rfl
  | cons c cs ih =>
      rw [splitAfter]
      split
      · simp [ih]
      · split
        next h => exact absurd h (splitAfter_ne_nil cs)
        next l ls h =>
          rw [h] at ih
          simpa using ih

theorem splitAfter_spec (s : List UInt8) :
    ∃ ls last, splitAfter s = ls ++ [last] ∧ (∀ l ∈ ls, Terminated l) ∧ newline ∉ last := by
  induction s with
  | nil => exact ⟨[], [], rfl, by simp, by simp⟩
  | cons c cs ih =>
      obtain ⟨ls, last, heq, hls, hlast⟩ := ih
      rw [splitAfter, heq]
      split
      next hc =>
        refine ⟨[c] :: ls, last, rfl, ?_, hlast⟩
        rintro l (_ | ⟨_, hl⟩)
        · rw [hc]
          exact terminated_newline
        · exact hls l hl
      next hc =>
        cases ls with
        | nil => exact ⟨[], c :: last, rfl, by simp, by simp [hlast, Ne.symm hc]⟩
        | cons l ls =>
            refine ⟨(c :: l) :: ls, last, rfl, ?_, hlast⟩
            rintro l' (_ | ⟨_, hl'⟩)
            · exact (hls l (by simp)).cons hc
            · exact hls l' (List.mem_cons_of_mem l hl')

theorem splitAfter_of_notMem {s : List UInt8} (h : newline ∉ s) : splitAfter s = [s] := by
  induction s with
  | nil => rfl
  | cons c cs ih =>
      rw [List.mem_cons, not_or] at h
      rw [splitAfter, if_neg (Ne.symm h.1), ih h.2]

theorem splitAfter_terminated_append {l : Line} (h : Terminated l) (s : List UInt8) :
    splitAfter (l ++ s) = l :: splitAfter s := by
  obtain ⟨w, hw, rfl⟩ := h
  induction w with
  | nil => simp [splitAfter]
  | cons c w ih =>
      rw [List.mem_cons, not_or] at hw
      have hrest := ih hw.2
      rw [List.cons_append, List.cons_append, splitAfter, if_neg (Ne.symm hw.1), hrest]

theorem splitAfter_flatten_append {ls : List Line} {last : List UInt8}
    (hls : ∀ l ∈ ls, Terminated l) (hlast : newline ∉ last) :
    splitAfter (ls.flatten ++ last) = ls ++ [last] := by
  induction ls with
  | nil => exact splitAfter_of_notMem hlast
  | cons l ls ih =>
      rw [List.flatten_cons, List.append_assoc,
        splitAfter_terminated_append (hls l (by simp)),
        ih fun l' hl' => hls l' (by simp [hl'])]
      rfl

end Text

end Nipa
