import Nipa.Support.Strings

/-!
# Base64 in the URL alphabet

Three bytes are written as four digits of six bits, without padding.  Reading
skips line breaks and does not look at the unused bits of a last digit, so several
texts can stand for the same bytes; the text of some bytes is read back as them.
-/

namespace Nipa.Support.Base64

/-- The digit for six bits. -/
def digit (n : ℕ) : Char :=
  if n < 26 then Char.ofNat (65 + n)
  else if n < 52 then Char.ofNat (71 + n)
  else if n < 62 then Char.ofNat (n - 4)
  else if n = 62 then '-'
  else '_'

def digitValue (c : Char) : Option ℕ :=
  if 'A' ≤ c ∧ c ≤ 'Z' then some (c.toNat - 65)
  else if 'a' ≤ c ∧ c ≤ 'z' then some (c.toNat - 71)
  else if '0' ≤ c ∧ c ≤ '9' then some (c.toNat + 4)
  else if c = '-' then some 62
  else if c = '_' then some 63
  else none

/-- The six-bit groups of some bytes. -/
def sextets : List UInt8 → List ℕ
  | [] => []
  | [a] => [a.toNat / 4, a.toNat % 4 * 16]
  | [a, b] => [a.toNat / 4, a.toNat % 4 * 16 + b.toNat / 16, b.toNat % 16 * 4]
  | a :: b :: c :: rest =>
      a.toNat / 4 :: (a.toNat % 4 * 16 + b.toNat / 16) ::
        (b.toNat % 16 * 4 + c.toNat / 64) :: c.toNat % 64 :: sextets rest

/-- The bytes of some six-bit groups; one group alone is no byte. -/
def bytesOf : List ℕ → Option (List UInt8)
  | [] => some []
  | [_] => none
  | [x, y] => some [UInt8.ofNat (x * 4 + y / 16)]
  | [x, y, z] => some [UInt8.ofNat (x * 4 + y / 16), UInt8.ofNat (y % 16 * 16 + z / 4)]
  | x :: y :: z :: w :: rest =>
      (bytesOf rest).map fun l =>
        UInt8.ofNat (x * 4 + y / 16) :: UInt8.ofNat (y % 16 * 16 + z / 4) ::
          UInt8.ofNat (z % 4 * 64 + w) :: l

def encode (l : List UInt8) : Str :=
  (sextets l).map digit

def isLineBreak (c : Char) : Bool :=
  c = '\n' || c = '\r'

def decode (s : Str) : Option (List UInt8) :=
  ((s.filter fun c => !isLineBreak c).mapM digitValue).bind bytesOf

/-! ## Reading back -/

theorem sextets_lt (l : List UInt8) : ∀ n ∈ sextets l, n < 64 := by
  induction l using sextets.induct with
  | case1 => simp [sextets]
  | case2 a =>
      have ha := a.toNat_lt
      simp only [sextets, List.mem_cons, List.not_mem_nil, or_false, forall_eq_or_imp,
        forall_eq]
      omega
  | case3 a b =>
      have ha := a.toNat_lt
      have hb := b.toNat_lt
      simp only [sextets, List.mem_cons, List.not_mem_nil, or_false, forall_eq_or_imp,
        forall_eq]
      omega
  | case4 a b c rest ih =>
      have ha := a.toNat_lt
      have hb := b.toNat_lt
      have hc := c.toNat_lt
      simp only [sextets, List.mem_cons, forall_eq_or_imp]
      exact ⟨by omega, by omega, by omega, by omega, ih⟩

theorem ofNat_eq {a : UInt8} {n : ℕ} (h : n = a.toNat) : UInt8.ofNat n = a := by
  rw [h, UInt8.ofNat_toNat]

theorem bytesOf_sextets (l : List UInt8) : bytesOf (sextets l) = some l := by
  induction l using sextets.induct with
  | case1 => rfl
  | case2 a =>
      have ha := a.toNat_lt
      simp only [sextets, bytesOf]
      rw [ofNat_eq (a := a) (by omega)]
  | case3 a b =>
      have ha := a.toNat_lt
      have hb := b.toNat_lt
      simp only [sextets, bytesOf]
      rw [ofNat_eq (a := a) (by omega), ofNat_eq (a := b) (by omega)]
  | case4 a b c rest ih =>
      have ha := a.toNat_lt
      have hb := b.toNat_lt
      have hc := c.toNat_lt
      simp only [sextets, bytesOf, ih, Option.map_some]
      rw [ofNat_eq (a := a) (by omega), ofNat_eq (a := b) (by omega),
        ofNat_eq (a := c) (by omega)]

theorem digitValue_digit : ∀ n < 64, digitValue (digit n) = some n := by
  decide

theorem digit_ne : ∀ n < 64, isLineBreak (digit n) = false ∧ digit n ≠ '.' := by
  decide

theorem encode_mem {l : List UInt8} {c : Char} (hc : c ∈ encode l) :
    isLineBreak c = false ∧ c ≠ '.' := by
  obtain ⟨n, hn, rfl⟩ := List.mem_map.mp hc
  exact digit_ne n (sextets_lt l n hn)

theorem mapM_digitValue {ns : List ℕ} (h : ∀ n ∈ ns, n < 64) :
    (ns.map digit).mapM digitValue = some ns := by
  induction ns with
  | nil => rfl
  | cons n ns ih =>
      rw [List.map_cons, List.mapM_cons, digitValue_digit n (h n (by simp)),
        ih fun m hm => h m (List.mem_cons_of_mem _ hm)]
      rfl

theorem decode_encode (l : List UInt8) : decode (encode l) = some l := by
  have hfilter : (encode l).filter (fun c => !isLineBreak c) = encode l := by
    rw [List.filter_eq_self]
    intro c hc
    rw [(encode_mem hc).1]
    rfl
  rw [decode, hfilter, encode, mapM_digitValue (sextets_lt l), Option.bind_some,
    bytesOf_sextets]

theorem encode_injective : Function.Injective encode := by
  intro l l' h
  have hdecode := congrArg decode h
  rw [decode_encode, decode_encode] at hdecode
  exact Option.some.inj hdecode

/-! ## Lengths -/

theorem length_sextets (l : List UInt8) : (sextets l).length = (4 * l.length + 2) / 3 := by
  induction l using sextets.induct with
  | case1 => rfl
  | case2 a => simp [sextets]
  | case3 a b => simp [sextets]
  | case4 a b c rest ih =>
      simp only [sextets, List.length_cons, ih]
      omega

theorem length_utf8_digit : ∀ n < 64, (String.utf8EncodeChar (digit n)).length = 1 := by
  decide

theorem length_utf8_encode (l : List UInt8) :
    (utf8 (encode l)).length = (4 * l.length + 2) / 3 := by
  rw [← length_sextets, utf8, encode, List.flatMap_map, List.length_flatMap]
  have hone : (sextets l).map (fun n => (String.utf8EncodeChar (digit n)).length) =
      (sextets l).map fun _ => 1 := by
    refine List.map_congr_left fun n hn => ?_
    exact length_utf8_digit n (sextets_lt l n hn)
  rw [hone]
  simp

end Nipa.Support.Base64
