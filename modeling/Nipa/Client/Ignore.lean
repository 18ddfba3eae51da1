import Nipa.Push.Paths
import Nipa.Support.Regexp

/-!
# Ignore rules

The lines of the two ignore files are compiled to rules.  A rule is a regular
expression that is written segment by segment; later rules win, and what lies
below an ignored directory is ignored.

A segment is translated byte by byte, and a byte is written as the character with
its number.
-/

namespace Nipa

open Support

namespace Ignore

/-! ## Patterns as regular expressions -/

/-- `[^/]` -/
def notSlash : Regexp :=
  .set fun c => c ≠ '/'

def slash : Regexp :=
  .set fun c => c = '/'

/-- `.` -/
def anyChar : Regexp :=
  .set fun c => c ≠ '\n'

/-- `(?:[^/]+/)*` -/
def directories : Regexp :=
  .star (.seq (.plus notSlash) slash)

/-- `string(segment[i])`: a byte as the character with its number. -/
def byteChar (b : UInt8) : Char :=
  Char.ofNat b.toNat

/-- The expression of a segment; a star that follows a star is skipped. -/
def segmentRegexp : Bool → List UInt8 → Regexp
  | _, [] => .empty
  | true, _ :: bs => segmentRegexp false bs
  | false, b :: bs =>
      if byteChar b = '*' then
        .seq (.star notSlash) (segmentRegexp (bs.head?.map byteChar = some '*') bs)
      else if byteChar b = '?' then .seq notSlash (segmentRegexp false bs)
      else .seq (.set fun c => c = byteChar b) (segmentRegexp false bs)

def doubleStar : Str := "**".toList

/-- The expression of the segments after `prev`, up to the end of the text. -/
def segmentsRegexp : Option Str → List Str → Regexp
  | _, [] => .stop
  | prev, segment :: segments =>
      if segment = doubleStar then
        let spans :=
          if prev = none ∧ segments = [] then .star anyChar
          else if prev = none then directories
          else if segments = [] then .seq slash (.star anyChar)
          else .seq slash directories
        .seq spans (segmentsRegexp (some segment) segments)
      else
        let rest := .seq (segmentRegexp false (utf8 segment))
          (segmentsRegexp (some segment) segments)
        if prev ≠ none ∧ prev ≠ some doubleStar then .seq slash rest else rest

def patternRegexp (pattern : Str) (anchored : Bool) : Regexp :=
  .seq (if anchored then .start else .alt .start slash)
    (segmentsRegexp none (pattern.splitOn '/'))

/-! ## Rules -/

structure Rule where
  re : Regexp
  negate : Bool
  dirOnly : Bool

/-- What a line of an ignore file asks for. -/
structure Pattern where
  text : Str
  anchored : Bool
  negate : Bool
  dirOnly : Bool
  deriving DecidableEq

def Pattern.rule (p : Pattern) : Rule :=
  ⟨patternRegexp p.text p.anchored, p.negate, p.dirOnly⟩

/-- `strings.TrimSuffix(s, "/")` -/
def trimSlashAfter (s : Str) : Str :=
  if s.getLast? = some '/' then s.dropLast else s

/-- `strings.TrimPrefix(s, "/")` -/
def trimSlashBefore (s : Str) : Str :=
  if s.head? = some '/' then s.tail else s

/-- The line behind the mark of a negation. -/
def unmarked (line : Str) : Str :=
  if line.head? = some '!' then trimSpace line.tail else line

/-- Read a line; blank lines and comments ask for nothing. -/
def readLine (line : Str) : Option Pattern :=
  let line := trimSpace line
  if line = [] ∨ line.head? = some '#' then none
  else
    let negate := line.head? = some '!'
    let line := unmarked line
    let dirOnly := line.getLast? = some '/'
    let line := trimSlashAfter line
    if line = [] then none
    else
      let anchored := '/' ∈ line
      let line := trimSlashBefore line
      if line = [] then none else some ⟨line, anchored, negate, dirOnly⟩

def compile (contents : Str) : List Rule :=
  (contents.splitOn '\n').filterMap fun line => (readLine line).map Pattern.rule

/-- The rules of the versioned file come before those of the clone; a file that
is missing has none. -/
def new (versioned clone : Option Str) : List Rule :=
  (versioned.elim [] compile) ++ (clone.elim [] compile)

/-! ## Matching -/

/-- The last rule that matches decides. -/
def matchRules (rules : List Rule) (path : Str) (isDir : Bool) : Bool :=
  rules.foldl (fun ignored r =>
    if r.dirOnly && !isDir then ignored
    else if r.re.matchString path then !r.negate
    else ignored) false

/-- Whether a path is ignored; an ignored directory ignores all below it. -/
def ignores (rules : List Rule) (path : Str) (isDir : Bool) : Bool :=
  if rules = [] ∨ path = [] ∨ path = ".".toList then false
  else
    let segments := path.splitOn '/'
    ((List.range' 1 (segments.length - 1)).any fun i =>
      matchRules rules (pathOf (segments.take i)) true) || matchRules rules path isDir

end Ignore

end Nipa
