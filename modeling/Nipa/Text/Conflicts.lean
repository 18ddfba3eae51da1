import Mathlib.Data.List.Infix
import Nipa.Text.Merge

/-!
# Conflict markers in the editor

The desktop splits a file with conflict markers into the regions to pick from
and puts them together again.  Its strings are lists of code units, and `unit`
gives the code unit of a byte of the markers; with `id` it is the file's bytes
that are split.
-/

namespace Nipa

namespace Text

inductive BlockPick where
  | ours
  | theirs
  | oursTheirs
  | theirsOurs

inductive Segment (χ : Type) where
  | same (text : List χ)
  | conflict (ours theirs : List χ)

section Strings

variable {χ : Type} [DecidableEq χ] (unit : UInt8 → χ)

def startMarker : List χ :=
  mergeStart.map unit

def midMarker : List χ :=
  mergeMid.map unit

def endMarker : List χ :=
  mergeEnd.map unit

/-- The pieces of a string cut after every newline, without an empty last one. -/
def piecesAfter : List χ → List (List χ)
  | [] => []
  | c :: cs =>
      if c = unit newline then [c] :: piecesAfter cs
      else
        match piecesAfter cs with
        | [] => [[c]]
        | l :: ls => (c :: l) :: ls

/-- `text.split(/(?<=\n)/)`; the empty string has one empty piece. -/
def splitLookbehind (text : List χ) : List (List χ) :=
  if text = [] then [[]] else piecesAfter unit text

/-- The segment of the text collected so far, if there is any. -/
def sameSegment (same : List χ) : List (Segment χ) :=
  if same = [] then [] else [.same same]

/-- The lines before and after the first one that equals `marker`:
`lines.indexOf(marker, i)`. -/
def cutAt (marker : List χ) : List (List χ) → Option (List (List χ) × List (List χ))
  | [] => none
  | l :: ls =>
      if l = marker then some ([], ls)
      else (cutAt marker ls).map fun cut => (l :: cut.1, cut.2)

theorem length_lt_of_cutAt {marker : List χ} {ls before after : List (List χ)}
    (h : cutAt marker ls = some (before, after)) : after.length < ls.length := by
  induction ls generalizing before with
  | nil => exact absurd h (by simp [cutAt])
  | cons l ls ih =>
      rw [cutAt] at h
      split at h
      · obtain ⟨rfl, rfl⟩ := Prod.mk.inj (Option.some.inj h)
        simp
      · obtain ⟨cut, hcut, heq⟩ := Option.map_eq_some_iff.mp h
        obtain ⟨-, rfl⟩ := Prod.mk.inj heq
        have := ih hcut
        simp only [List.length_cons]
        omega

/-- Both sections of a region and the lines after it, from the line after its
start marker on. -/
def cutRegion (rest : List (List χ)) :
    Option (List (List χ) × List (List χ) × List (List χ)) := do
  let (ours, rest') ← cutAt (midMarker unit) rest
  let (theirs, rest'') ← cutAt (endMarker unit) rest'
  some (ours, theirs, rest'')

theorem length_lt_of_cutRegion {rest ours theirs rest' : List (List χ)}
    (h : cutRegion unit rest = some (ours, theirs, rest')) : rest'.length < rest.length := by
  obtain ⟨⟨ours', after⟩, hmid, h⟩ := Option.bind_eq_some_iff.mp h
  obtain ⟨⟨theirs', after'⟩, hend, h⟩ := Option.bind_eq_some_iff.mp h
  obtain ⟨-, -, rfl⟩ : ours' = ours ∧ theirs' = theirs ∧ after' = rest' := by simpa using h
  exact (length_lt_of_cutAt hend).trans (length_lt_of_cutAt hmid)

/-- The segments of the lines that are left, after the text `same`.  A region
without its middle or end marker is text, and so is all that follows. -/
def parseLines (same : List χ) : List (List χ) → List (Segment χ)
  | [] => sameSegment same
  | l :: rest =>
      if l ≠ startMarker unit then parseLines (same ++ l) rest
      else
        match _hcut : cutRegion unit rest with
        | none => sameSegment (same ++ (l :: rest).flatten)
        | some (ours, theirs, rest') =>
            sameSegment same ++ .conflict ours.flatten theirs.flatten :: parseLines [] rest'
  termination_by lines => lines.length
  decreasing_by
    · simp
    · have hlt := length_lt_of_cutRegion unit _hcut
      simp only [List.length_cons]
      omega

def parseConflicts (text : List χ) : List (Segment χ) :=
  parseLines unit [] (splitLookbehind unit text)

/-- Whether a start or an end marker begins a line of the text. -/
def hasMarkers (text : List χ) : Bool :=
  [startMarker unit, endMarker unit].any fun m =>
    m.isPrefixOf text || decide (unit newline :: m <:+: text)

def withNewline (s : List χ) : List χ :=
  if s = [] ∨ s.getLast? = some (unit newline) then s else s ++ [unit newline]

def pickText (ours theirs : List χ) : BlockPick → List χ
  | .ours => ours
  | .theirs => theirs
  | .oursTheirs => withNewline unit ours ++ theirs
  | .theirsOurs => withNewline unit theirs ++ ours

/-- Put the segments together with the picks for the conflicts, which stay as
they are where there is no pick. -/
def compose : List (Segment χ) → List (Option BlockPick) → List χ
  | [], _ => []
  | .same text :: segments, picks => text ++ compose segments picks
  | .conflict ours theirs :: segments, picks =>
      (match picks.head?.join with
        | some pick => pickText unit ours theirs pick
        | none => startMarker unit ++ ours ++ midMarker unit ++ theirs ++ endMarker unit) ++
      compose segments picks.tail

end Strings

/-- Whether a start or an end marker begins a line of the file, on the client. -/
def clientHasMarkers (data : List UInt8) : Bool :=
  [mergeStart, mergeEnd].any fun m =>
    m.isPrefixOf data || decide (newline :: m <:+: data)

end Text

end Nipa
