import Nipa.Chunker.Splitter

/-!
# The boundaries of the chunks

However the reader splits the stream into reads, the buffer holds as much of
what is left as fits, so the next boundary is a function of the rest of the
stream alone.  The chunks are the pieces that cutting the stream with this
function gives.
-/

namespace Nipa

namespace Chunker

open Support

/-- Every read returns at least one byte before the end of the stream. -/
def Reader.Flowing (r : Reader) : Prop :=
  ∀ k, 0 < r.sizes k

/-- Where a chunk ends in what is left of the stream. -/
def cutter (cfg : SaneConfig) : Cutter UInt8 where
  size xs := cut cfg (xs.take cfg.max.toNatClampNeg)
  pos {xs} h := by
    have hmax := cfg.sizes
    refine cut_pos cfg fun hnil => ?_
    have hlength := congrArg List.length hnil
    rw [List.length_take, List.length_nil] at hlength
    have := List.length_pos_of_ne_nil h
    omega
  le xs := by
    obtain ⟨hshort, hlong⟩ := cut_bounds cfg (xs.take cfg.max.toNatClampNeg)
    rw [List.length_take] at hshort hlong
    by_cases hle : min cfg.max.toNatClampNeg xs.length ≤ cfg.min.toNatClampNeg
    · rw [hshort hle]
      exact Nat.min_le_right _ _
    · have := hlong (by omega)
      omega

/-! ## Filling the buffer -/

theorem Reader.read_spec {r : Reader} (h : r.Flowing) {cap : ℕ} (hcap : 0 < cap) :
    (r.read cap).r.Flowing ∧ (r.read cap).data.length ≤ cap ∧
      ((r.read cap).eof = true → (r.read cap).r.rest = []) ∧
      ((r.read cap).data = [] → (r.read cap).eof = true) := by
  refine ⟨h, ?_, fun heof => ?_, fun hempty => ?_⟩
  · exact (List.length_take_le _ _).trans (Nat.min_le_right _ _)
  · exact of_decide_eq_true (Bool.and_eq_true_iff.mp heof).1
  · have hpos := h r.calls
    have hrest : r.rest = [] := by
      have hlength := congrArg List.length hempty
      simp only [read, List.length_take, List.length_nil] at hlength
      exact List.length_eq_zero_iff.mp (by omega)
    simp [read, hrest]

theorem fill_spec {cap : ℕ} {buf : List UInt8} {r : Reader} (h : r.Flowing)
    (hle : buf.length ≤ cap) :
    (fill cap buf r).r.Flowing ∧ (fill cap buf r).data = (buf ++ r.rest).take cap ∧
      ((fill cap buf r).eof = true → (fill cap buf r).r.rest = []) := by
  fun_induction fill cap buf r with
  | case1 buf r hlt p heof =>
      obtain ⟨hflow, hlength, hend, -⟩ := Reader.read_spec h (show 0 < cap - buf.length by omega)
      refine ⟨hflow, ?_, fun _ => hend heof⟩
      have hread := r.read_append (cap - buf.length)
      rw [hend heof, List.append_nil] at hread
      rw [← hread, List.take_of_length_le]
      rw [List.length_append]
      omega
  | case2 buf r hlt p heof hempty =>
      obtain ⟨-, -, -, hend⟩ := Reader.read_spec h (show 0 < cap - buf.length by omega)
      exact absurd (hend hempty) heof
  | case3 buf r hlt p heof hempty ih =>
      obtain ⟨hflow, hlength, -, -⟩ := Reader.read_spec h (show 0 < cap - buf.length by omega)
      have hfit : (buf ++ p.data).length ≤ cap := by
        have : p.data.length ≤ cap - buf.length := hlength
        rw [List.length_append]
        omega
      obtain ⟨hflow', hdata, hend⟩ := ih hflow hfit
      refine ⟨hflow', ?_, hend⟩
      rw [hdata, List.append_assoc, r.read_append]
  | case4 buf r hlt =>
      refine ⟨h, ?_, fun heof => absurd heof (by simp)⟩
      have hfull : buf.length = cap := by omega
      rw [← hfull, List.take_left]

/-! ## The chunks -/

/-- A splitter between two chunks. -/
structure Splitter.Ready (s : Splitter) : Prop where
  flowing : s.r.Flowing
  fits : s.buf.length ≤ s.cfg.max.toNatClampNeg
  ended : s.eof = true → s.r.rest = []

section Chunks

variable {H : Type} [HashScheme H]

/-- A chunk with its hash. -/
def hashed (data : List UInt8) : Chunk H :=
  ⟨HashScheme.sum data, data⟩

theorem Splitter.Ready.next_nil {s : Splitter} (h : s.Ready) (hnil : s.content = []) :
    (s.next : Option (Chunk H) × Splitter).1 = none := by
  obtain ⟨hbuf, hrest⟩ := List.append_eq_nil_iff.mp hnil
  obtain ⟨-, hdata, -⟩ := fill_spec h.flowing h.fits
  rw [hbuf, hrest, List.append_nil, List.take_nil] at hdata
  rw [next]
  split
  · rfl
  · rw [← hbuf] at hdata
    simp only [hdata]
    rw [if_pos (by simpa using hbuf)]

theorem Splitter.Ready.next_eq {s : Splitter} (h : s.Ready) (hne : s.content ≠ []) :
    ∃ s', (s.next : Option (Chunk H) × Splitter) =
        (some (hashed (s.content.take ((cutter s.cfg).size s.content))), s') ∧
      s'.content = s.content.drop ((cutter s.cfg).size s.content) ∧ s'.Ready ∧
      s'.cfg = s.cfg := by
  obtain ⟨hflow, hdata, hend⟩ := fill_spec h.flowing h.fits
  have happend := fill_append s.cfg.max.toNatClampNeg s.buf s.r
  have hsize : (cutter s.cfg).size s.content =
      cut s.cfg (s.content.take s.cfg.max.toNatClampNeg) := rfl
  obtain ⟨hpos, hlt, hlt'⟩ := s.cfg.sizes
  have hbuffered : s.content.take s.cfg.max.toNatClampNeg ≠ [] := by
    rw [Ne, List.take_eq_nil_iff]
    exact fun h => h.elim (by omega) hne
  have hle : (cutter s.cfg).size s.content ≤
      (s.content.take s.cfg.max.toNatClampNeg).length := by
    rw [hsize]
    obtain ⟨hshort, hlong⟩ := cut_bounds s.cfg (s.content.take s.cfg.max.toNatClampNeg)
    by_cases hmin : (s.content.take s.cfg.max.toNatClampNeg).length ≤ s.cfg.min.toNatClampNeg
    · exact (hshort hmin).le
    · exact (hlong (by omega)).2.1
  have hstart : ¬(s.buf = [] ∧ s.eof = true) := by
    rintro ⟨hbuf, heof⟩
    exact hne (by rw [content, hbuf, h.ended heof]; rfl)
  rw [next, if_neg hstart]
  simp only
  rw [show (fill s.cfg.max.toNatClampNeg s.buf s.r).data =
    s.content.take s.cfg.max.toNatClampNeg from hdata, if_neg hbuffered, ← hsize,
    List.take_take, Nat.min_eq_left (hle.trans (List.length_take_le _ _))]
  refine ⟨_, rfl, ?_, ⟨hflow, ?_, fun heof => ?_⟩, rfl⟩
  · rw [hdata] at happend
    calc (s.content.take s.cfg.max.toNatClampNeg).drop ((cutter s.cfg).size s.content) ++
          (fill s.cfg.max.toNatClampNeg s.buf s.r).r.rest
        = (s.content.take s.cfg.max.toNatClampNeg ++
            (fill s.cfg.max.toNatClampNeg s.buf s.r).r.rest).drop
              ((cutter s.cfg).size s.content) := (List.drop_append_of_le_length hle).symm
      _ = s.content.drop ((cutter s.cfg).size s.content) := congrArg _ happend
  · rw [List.length_drop]
    exact (Nat.sub_le _ _).trans (List.length_take_le _ _)
  · rcases Bool.or_eq_true_iff.mp heof with heof | heof
    · have hrest := h.ended heof
      rw [hdata, hrest, List.append_nil, List.take_of_length_le h.fits] at happend
      exact List.append_right_eq_self.mp happend
    · exact hend heof

theorem Splitter.Ready.scanFrom_eq {s : Splitter} (h : s.Ready) :
    (scanFrom s : List (Chunk H)) = ((cutter s.cfg).pieces s.content).map hashed := by
  fun_induction @scanFrom H _ s with
  | case1 s s' hnext =>
      by_cases hnil : s.content = []
      · rw [hnil, Cutter.pieces_nil, List.map_nil]
      · obtain ⟨s'', heq, -⟩ := h.next_eq (H := H) hnil
        rw [hnext] at heq
        exact absurd (congrArg Prod.fst heq) (by simp)
  | case2 s c s' hnext ih =>
      by_cases hnil : s.content = []
      · have hnone := h.next_nil (H := H) hnil
        rw [hnext] at hnone
        exact absurd hnone (by simp)
      · obtain ⟨s'', heq, hcontent, hready, hcfg⟩ := h.next_eq (H := H) hnil
        rw [hnext] at heq
        obtain ⟨hc, rfl⟩ := Prod.mk.inj heq
        obtain rfl := Option.some.inj hc
        rw [ih hready, (cutter s.cfg).pieces_eq hnil, hcontent, hcfg, List.map_cons]

theorem scan_eq {r : Reader} (h : r.Flowing) {cfg : Config} {c : SaneConfig}
    (hcfg : cfg.sanitized = .ok c) :
    (scan r cfg : Except String (List (Chunk H))) =
      .ok (((cutter c).pieces r.rest).map hashed) := by
  have hready : (⟨r, c, [], false⟩ : Splitter).Ready :=
    ⟨h, Nat.zero_le _, fun heof => absurd heof (by simp)⟩
  have hscan := hready.scanFrom_eq (H := H)
  rw [scan, newSplitter, hcfg]
  exact congrArg Except.ok hscan

theorem flatMap_hashed (ps : List (List UInt8)) :
    (ps.map (hashed : List UInt8 → Chunk H)).flatMap Chunk.data = ps.flatten := by
  rw [List.flatMap_map]
  exact List.flatMap_id'

theorem cutter_bounds (c : SaneConfig) {xs : List UInt8} :
    (cutter c).size xs ≤ c.max.toNatClampNeg ∧
      ((cutter c).size xs < xs.length → c.min.toNatClampNeg < (cutter c).size xs) := by
  obtain ⟨-, hlt, hlt'⟩ := c.sizes
  obtain ⟨hshort, hlong⟩ := cut_bounds c (xs.take c.max.toNatClampNeg)
  have hlength := List.length_take (l := xs) (i := c.max.toNatClampNeg)
  have hsize : (cutter c).size xs = cut c (xs.take c.max.toNatClampNeg) := rfl
  rw [hsize]
  by_cases hmin : (xs.take c.max.toNatClampNeg).length ≤ c.min.toNatClampNeg
  · have := hshort hmin
    omega
  · have := hlong (by omega)
    omega

/-- Where every read before the end of the stream returns a byte, the chunks make
up the stream and do not depend on the reads; all but the last are longer than
the minimum, none is longer than the maximum; and those after a boundary are the
chunks of the rest of the stream alone. -/
theorem chunks_of_stream {r : Reader} (h : r.Flowing) {cfg : Config} {c : SaneConfig}
    (hcfg : cfg.sanitized = .ok c) :
    ∃ cs : List (Chunk H), scan r cfg = .ok cs ∧
      cs.flatMap Chunk.data = r.rest ∧
      (∀ r' : Reader, r'.Flowing → r'.rest = r.rest → scan r' cfg = .ok cs) ∧
      (∀ pre ch post, cs = pre ++ ch :: post → ch.hash = HashScheme.sum ch.data ∧
        ch.data.length ≤ c.max.toNatClampNeg ∧
        (post ≠ [] → c.min.toNatClampNeg < ch.data.length)) ∧
      (∀ pre post, cs = pre ++ post → ∀ r' : Reader, r'.Flowing →
        r'.rest = post.flatMap Chunk.data → scan r' cfg = .ok post) := by
  refine ⟨_, scan_eq h hcfg, ?_, ?_, ?_, ?_⟩
  · rw [flatMap_hashed, Cutter.pieces_flatten]
  · intro r' h' hrest
    rw [scan_eq h' hcfg, hrest]
  · intro pre ch post hsplit
    obtain ⟨ps, qs, hpieces, rfl, hqs⟩ := List.map_eq_append_iff.mp hsplit
    obtain ⟨p, qs', rfl, rfl, rfl⟩ := List.map_eq_cons_iff.mp hqs
    have hlength := (cutter c).length_piece hpieces
    obtain ⟨hmax, hmin⟩ := @cutter_bounds c (p ++ qs'.flatten)
    refine ⟨rfl, hlength.le.trans hmax, fun hpost => ?_⟩
    have hrest : qs'.flatten ≠ [] := by
      cases qs' with
      | nil => exact absurd rfl hpost
      | cons q qs' =>
          have hnext : (cutter c).pieces r.rest = (ps ++ [p]) ++ q :: qs' := by
            rw [hpieces, List.append_assoc]
            rfl
          exact ((cutter c).piece_eq hnext).1
    have hpos := List.length_pos_of_ne_nil hrest
    rw [← hlength, List.length_append] at hmin
    exact hmin (by omega)
  · intro pre post hsplit r' h' hrest
    obtain ⟨ps, qs, hpieces, rfl, rfl⟩ := List.map_eq_append_iff.mp hsplit
    rw [flatMap_hashed] at hrest
    rw [scan_eq h' hcfg, hrest, (cutter c).pieces_append hpieces]

end Chunks

/-! ## Reads of no bytes -/

def saneDefault : SaneConfig :=
  ⟨defaultConfig, by decide, by decide, by decide, by decide, by decide⟩

/-- A hundred bytes are more than one chunk of at most 64, read byte by byte. -/
theorem chunks_of_stream_bytewise :
    ∃ cs : List (Chunk IdealHash), 2 ≤ cs.length ∧
      scan ⟨List.replicate 100 7, fun _ => 1, fun _ => false, 0⟩ ⟨16, 32, 64⟩ = .ok cs ∧
      cs.flatMap Chunk.data = List.replicate 100 7 := by
  obtain ⟨cs, hscan, hdata, -, hsizes, -⟩ := @chunks_of_stream IdealHash _
    ⟨List.replicate 100 7, fun _ => 1, fun _ => false, 0⟩ (fun _ => Nat.one_pos) ⟨16, 32, 64⟩
    ⟨⟨16, 32, 64⟩, by decide, by decide, by decide, by decide, by decide⟩ rfl
  refine ⟨cs, ?_, hscan, hdata⟩
  rcases cs with _ | ⟨c, _ | _⟩
  · cases hdata
  · -- a single chunk would be too long
    have hmax : c.data.length ≤ 64 := (hsizes [] c [] rfl).2.1
    rw [List.flatMap_singleton] at hdata
    rw [hdata] at hmax
    exact absurd hmax (by decide)
  · simp

/-- A read of no bytes before the only byte of a stream ends the chunks; read
without it, the byte is a chunk. -/
theorem empty_read_loses_stream :
    scan ⟨[1], fun k => k, fun _ => false, 0⟩ defaultConfig =
      (.ok [] : Except String (List (Chunk IdealHash))) ∧
    ∃ cs : List (Chunk IdealHash), scan ⟨[1], fun _ => 1, fun _ => false, 0⟩ defaultConfig =
      .ok cs ∧ cs.flatMap Chunk.data = [1] := by
  have hflow : (⟨[1], fun _ => 1, fun _ => false, 0⟩ : Reader).Flowing := fun _ => Nat.one_pos
  refine ⟨?_, _, scan_eq hflow (show defaultConfig.sanitized = .ok saneDefault from rfl), ?_⟩
  case refine_2 => rw [flatMap_hashed, Cutter.pieces_flatten]
  have hfill : fill saneDefault.max.toNatClampNeg [] ⟨[1], fun k => k, fun _ => false, 0⟩ =
      ⟨[], true, ⟨[1], fun k => k, fun _ => false, 1⟩⟩ := by
    rw [fill]
    rfl
  have hnext : (⟨⟨[1], fun k => k, fun _ => false, 0⟩, saneDefault, [], false⟩ : Splitter).next =
      ((none : Option (Chunk IdealHash)),
        (⟨⟨[1], fun k => k, fun _ => false, 1⟩, saneDefault, [], true⟩ : Splitter)) := by
    rw [Splitter.next, if_neg (by simp), hfill]
    rfl
  have hscan : scanFrom ⟨⟨[1], fun k => k, fun _ => false, 0⟩, saneDefault, [], false⟩ =
      ([] : List (Chunk IdealHash)) := by
    rw [scanFrom, hnext]
  exact congrArg Except.ok hscan

end Chunker

end Nipa
