import Nipa.Support.Cutting
import Nipa.TreeHash

/-!
# Content-defined chunking

The splitter fills a buffer from a reader, looks for a boundary with a rolling
hash over the buffered bytes and hands out the bytes before it.  The reader
yields a stream of bytes in reads of any sizes.
-/

namespace Nipa

namespace Chunker

/-! ## Configuration -/

structure Config where
  min : Int64
  avg : Int64
  max : Int64
  deriving DecidableEq

def defaultConfig : Config :=
  ⟨(16 : Int64) <<< 10, (64 : Int64) <<< 10, (1 : Int64) <<< 18⟩

/-- The configuration with its missing sizes filled in. -/
def Config.filled (c : Config) : Config :=
  let c := if c.avg = 0 then defaultConfig else c
  let c := if c.min = 0 then { c with min := c.avg / 4 } else c
  if c.max = 0 then { c with max := c.avg * 4 } else c

/-- A configuration that passed the checks. -/
structure SaneConfig extends Config where
  min_pos : 0 < min
  min_lt_avg : min < avg
  avg_lt_max : avg < max
  avg_pow : avg &&& (avg - 1) = 0
  min_size : 16 ≤ min

def Config.sanitized (c : Config) : Except String SaneConfig :=
  let c := c.filled
  if hpos : c.min ≤ 0 ∨ c.avg ≤ 0 ∨ c.max ≤ 0 then
    .error "chunker: chunk sizes must be positive"
  else if hlt : c.min ≥ c.avg ∨ c.avg ≥ c.max then
    .error "chunker: requires min < avg < max"
  else if hpow : c.avg &&& (c.avg - 1) ≠ 0 then
    .error "chunker: avg must be a power of two"
  else if hsize : c.min < 16 then
    .error "chunker: min size too small"
  else .ok ⟨c, by
    rw [not_or, not_or, Int64.not_le] at hpos
    exact hpos.1, by
    rw [not_or, ge_iff_le, Int64.not_le] at hlt
    exact hlt.1, by
    rw [not_or, ge_iff_le, ge_iff_le, Int64.not_le, Int64.not_le] at hlt
    exact hlt.2, not_not.mp hpow, Int64.not_lt.mp hsize⟩

theorem SaneConfig.sizes (c : SaneConfig) : 0 < c.min.toNatClampNeg ∧
    c.min.toNatClampNeg < c.avg.toNatClampNeg ∧ c.avg.toNatClampNeg < c.max.toNatClampNeg := by
  have hpos := Int64.lt_iff_toInt_lt.mp c.min_pos
  have hlt := Int64.lt_iff_toInt_lt.mp c.min_lt_avg
  have hlt' := Int64.lt_iff_toInt_lt.mp c.avg_lt_max
  rw [Int64.toInt_zero] at hpos
  simp only [Int64.toNatClampNeg]
  omega

/-! ## The rolling hash -/

def splitMix64 (z : UInt64) : UInt64 :=
  let z := (z ^^^ (z >>> 30)) * 0xbf58476d1ce4e5b9
  let z := (z ^^^ (z >>> 27)) * 0x94d049bb133111eb
  z ^^^ (z >>> 31)

/-- The table of the rolling hash: the seed grows by a constant with every
entry. -/
def gear (b : UInt8) : UInt64 :=
  splitMix64 (0x4d595df4d0f33173 + (b.toUInt64 + 1) * 0x9e3779b97f4a7c15)

def roll (fp : UInt64) (b : UInt8) : UInt64 :=
  (fp <<< 1) + gear b

/-- Look for a boundary in the bytes from index `i` on: the index behind the
first one where the masked hash is zero, or the hash behind all of them. -/
def findBoundary (mask : UInt64) : ℕ → UInt64 → List UInt8 → ℕ ⊕ UInt64
  | _, fp, [] => .inr fp
  | i, fp, b :: bs =>
      let fp := roll fp b
      if fp &&& mask = 0 then .inl (i + 1) else findBoundary mask (i + 1) fp bs

/-- The length of the first chunk of the buffered bytes. -/
def cut (cfg : SaneConfig) (data : List UInt8) : ℕ :=
  let n := data.length
  let minSize := cfg.min.toNatClampNeg
  if n ≤ minSize then n
  else
    let avg := min cfg.avg.toNatClampNeg n
    let hard := min cfg.max.toNatClampNeg n
    let maskS := (cfg.avg - 1).toUInt64
    let maskL := (cfg.avg.toUInt64 >>> 1) - 1
    let fp := (data.take minSize).foldl roll 0
    match findBoundary maskS minSize fp ((data.take avg).drop minSize) with
    | .inl k => k
    | .inr fp =>
        match findBoundary maskL avg fp ((data.take hard).drop avg) with
        | .inl k => k
        | .inr _ => hard

/-! ## Reading -/

/-- A reader of a stream.  Its `calls`-th read returns at most `sizes calls`
bytes; the end of the stream comes with the last bytes, where `early` says so,
or after them. -/
structure Reader where
  rest : List UInt8
  sizes : ℕ → ℕ
  early : ℕ → Bool
  calls : ℕ

/-- What a read returned, and the reader after it. -/
structure ReadResult where
  data : List UInt8
  eof : Bool
  r : Reader

/-- `r.Read(p)` for a `p` of length `cap`. -/
def Reader.read (r : Reader) (cap : ℕ) : ReadResult :=
  let n := min (r.sizes r.calls) cap
  let data := r.rest.take n
  let rest := r.rest.drop n
  { data, eof := rest = [] && (data = [] || r.early r.calls),
    r := { r with rest, calls := r.calls + 1 } }

/-- Read until the buffer is full or the stream has ended.  A read of no bytes
counts as the end. -/
def fill (cap : ℕ) (buf : List UInt8) (r : Reader) : ReadResult :=
  if _hlt : buf.length < cap then
    let p := r.read (cap - buf.length)
    if p.eof then ⟨buf ++ p.data, true, p.r⟩
    else if _hempty : p.data = [] then ⟨buf, true, p.r⟩
    else fill cap (buf ++ p.data) p.r
  else ⟨buf, false, r⟩
  termination_by cap - buf.length
  decreasing_by
    have hpos : 0 < (r.read (cap - buf.length)).data.length :=
      List.length_pos_of_ne_nil _hempty
    rw [List.length_append]
    omega

/-- The state of a splitter; `eof` is set where `s.err` is `io.EOF`. -/
structure Splitter where
  r : Reader
  cfg : SaneConfig
  buf : List UInt8
  eof : Bool

def newSplitter (r : Reader) (cfg : Config) : Except String Splitter := do
  let s ← cfg.sanitized
  return ⟨r, s, [], false⟩

structure Chunk (H : Type) where
  hash : H
  data : List UInt8

section Next

variable {H : Type} [HashScheme H]

/-- The next chunk, or none at the end of the stream. -/
def Splitter.next (s : Splitter) : Option (Chunk H) × Splitter :=
  if s.buf = [] ∧ s.eof then (none, s)
  else
    let p := fill s.cfg.max.toNatClampNeg s.buf s.r
    let s := { s with buf := p.data, r := p.r, eof := s.eof || p.eof }
    if s.buf = [] then (none, s)
    else
      let k := cut s.cfg s.buf
      (some ⟨HashScheme.sum (s.buf.take k), s.buf.take k⟩, { s with buf := s.buf.drop k })

end Next

/-! ## Every chunk takes bytes -/

theorem Reader.read_append (r : Reader) (cap : ℕ) :
    (r.read cap).data ++ (r.read cap).r.rest = r.rest :=
  List.take_append_drop _ _

theorem fill_append (cap : ℕ) (buf : List UInt8) (r : Reader) :
    (fill cap buf r).data ++ (fill cap buf r).r.rest = buf ++ r.rest := by
  fun_induction fill cap buf r with
  | case1 buf r hlt p heof => rw [List.append_assoc, r.read_append]
  | case2 buf r hlt p heof hempty =>
      have hread := r.read_append (cap - buf.length)
      rw [hempty, List.nil_append] at hread
      rw [hread]
  | case3 buf r hlt p heof hempty ih => rw [ih, List.append_assoc, r.read_append]
  | case4 => rfl

theorem findBoundary_bounds {mask : UInt64} {i k : ℕ} {fp : UInt64} {bs : List UInt8}
    (h : findBoundary mask i fp bs = .inl k) : i < k ∧ k ≤ i + bs.length := by
  induction bs generalizing i fp with
  | nil => exact absurd h (by simp [findBoundary])
  | cons b bs ih =>
      simp only [findBoundary] at h
      rw [List.length_cons]
      split at h
      · obtain rfl := Sum.inl.inj h
        omega
      · have hrest := ih h
        omega

theorem cut_bounds (cfg : SaneConfig) (data : List UInt8) :
    (data.length ≤ cfg.min.toNatClampNeg → cut cfg data = data.length) ∧
    (cfg.min.toNatClampNeg < data.length → cfg.min.toNatClampNeg < cut cfg data ∧
      cut cfg data ≤ data.length ∧ cut cfg data ≤ cfg.max.toNatClampNeg) := by
  obtain ⟨-, hlt, hlt'⟩ := cfg.sizes
  refine ⟨fun h => if_pos h, fun h => ?_⟩
  rw [cut, if_neg (by omega)]
  simp only
  split
  next k hk =>
    have hbounds := findBoundary_bounds hk
    rw [List.length_drop, List.length_take] at hbounds
    omega
  next =>
    split
    next k hk =>
      have hbounds := findBoundary_bounds hk
      rw [List.length_drop, List.length_take] at hbounds
      omega
    next => omega

theorem cut_pos (cfg : SaneConfig) {data : List UInt8} (h : data ≠ []) : 0 < cut cfg data := by
  have hpos := List.length_pos_of_ne_nil h
  obtain ⟨hshort, hlong⟩ := cut_bounds cfg data
  by_cases hle : data.length ≤ cfg.min.toNatClampNeg
  · rw [hshort hle]
    exact hpos
  · have := hlong (by omega)
    omega

section Scan

variable {H : Type} [HashScheme H]

/-- The bytes that were not handed out yet. -/
def Splitter.content (s : Splitter) : List UInt8 :=
  s.buf ++ s.r.rest

theorem Splitter.next_content {s s' : Splitter} {c : Chunk H}
    (h : s.next = (some c, s')) : c.data ++ s'.content = s.content ∧ c.data ≠ [] := by
  rw [next] at h
  split at h
  · exact absurd (congrArg Prod.fst h) (by simp)
  · simp only at h
    split at h
    · exact absurd (congrArg Prod.fst h) (by simp)
    next hne =>
      obtain ⟨hc, rfl⟩ := Prod.mk.inj h
      obtain rfl := Option.some.inj hc
      have hfill := fill_append s.cfg.max.toNatClampNeg s.buf s.r
      have hpos := cut_pos s.cfg hne
      refine ⟨?_, fun hnil => ?_⟩
      · rw [content, content, ← hfill, ← List.append_assoc, List.take_append_drop]
      · have hlength := congrArg List.length hnil
        rw [List.length_take, List.length_nil] at hlength
        have := List.length_pos_of_ne_nil hne
        omega

/-- `Scan` with a callback that collects the chunks. -/
def scanFrom (s : Splitter) : List (Chunk H) :=
  match _hnext : (s.next : Option (Chunk H) × Splitter) with
  | (none, _) => []
  | (some c, s') => c :: scanFrom s'
  termination_by s.content.length
  decreasing_by
    obtain ⟨hcontent, hne⟩ := Splitter.next_content _hnext
    have hpos := List.length_pos_of_ne_nil hne
    rw [← hcontent, List.length_append]
    omega

/-- Cut the stream of a reader into chunks. -/
def scan (r : Reader) (cfg : Config) : Except String (List (Chunk H)) := do
  let s ← newSplitter r cfg
  return scanFrom s

end Scan

end Chunker

end Nipa
