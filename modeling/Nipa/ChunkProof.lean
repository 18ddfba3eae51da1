import Nipa.Domain
import Nipa.Support.Base64

/-!
# Proofs of possession

The server challenges a project to show that it holds a chunk: a challenge is an
expiry time and random bytes, signed together with the project and the chunk hash,
and the answer is the hash of the challenge followed by the chunk's content.  What
is signed, and what is hashed, can be taken apart in one way only.
-/

namespace Nipa

open Support

/-! ## Cutting at a separator -/

/-- The text before and after the first separator. -/
def cut (sep : Char) : Str → Option (Str × Str)
  | [] => none
  | c :: cs => if c = sep then some ([], cs) else (cut sep cs).map fun e => (c :: e.1, e.2)

theorem cut_eq_some {sep : Char} {s a b : Str} (h : cut sep s = some (a, b)) :
    s = a ++ sep :: b := by
  induction s generalizing a with
  | nil => simp [cut] at h
  | cons c cs ih =>
      rw [cut] at h
      split at h
      next hc =>
        obtain ⟨rfl, rfl⟩ := Prod.mk.inj (Option.some.inj h)
        rw [hc, List.nil_append]
      next =>
        obtain ⟨⟨a', b'⟩, hcut, heq⟩ := Option.map_eq_some_iff.mp h
        obtain ⟨rfl, rfl⟩ := Prod.mk.inj heq
        rw [ih hcut, List.cons_append]

theorem cut_append {sep : Char} {a : Str} (b : Str) (h : sep ∉ a) :
    cut sep (a ++ sep :: b) = some (a, b) := by
  induction a with
  | nil => simp [cut]
  | cons c cs ih =>
      rw [List.mem_cons, not_or] at h
      rw [List.cons_append, cut, if_neg (Ne.symm h.1), ih h.2, Option.map_some]

/-! ## Fixed-width numbers -/

/-- Big-endian encoding of a 64-bit number. -/
def be64 (n : ℕ) : List UInt8 :=
  [UInt8.ofNat (n / 2 ^ 56), UInt8.ofNat (n / 2 ^ 48), UInt8.ofNat (n / 2 ^ 40),
    UInt8.ofNat (n / 2 ^ 32), UInt8.ofNat (n / 2 ^ 24), UInt8.ofNat (n / 2 ^ 16),
    UInt8.ofNat (n / 2 ^ 8), UInt8.ofNat n]

/-- The number in the first eight bytes. -/
def readBE64 (l : List UInt8) : ℕ :=
  (l.take 8).foldl (fun n b => n * 256 + b.toNat) 0

theorem readBE64_be64 {n : ℕ} (hn : n < 2 ^ 64) (rest : List UInt8) :
    readBE64 (be64 n ++ rest) = n := by
  simp only [readBE64, be64, List.cons_append, List.nil_append, List.take_succ_cons,
    List.take_zero, List.foldl_cons, List.foldl_nil, UInt8.toNat_ofNat']
  omega

theorem be64_inj {m n : ℕ} (hm : m < 2 ^ 64) (hn : n < 2 ^ 64) (h : be64 m = be64 n) : m = n := by
  have hread := congrArg (fun l => readBE64 (l ++ [])) h
  rwa [readBE64_be64 hm, readBE64_be64 hn] at hread

/-! ## Challenges -/

/-- The message authentication code under the server's signing key, in the two textual
forms it is used in.  It has a fixed width, so its text delimits itself. -/
structure Signer where
  tag : List UInt8 → Str
  hexTag : List UInt8 → Str
  tag_ne_nil : ∀ m, tag m ≠ []
  tag_delimited : ∀ {m m' : List UInt8} {r r' : List UInt8},
    utf8 (tag m) ++ r = utf8 (tag m') ++ r' → tag m = tag m' ∧ r = r'

/-- No two messages have the same code. -/
def Signer.CollisionFree (σ : Signer) : Prop :=
  Function.Injective σ.tag

def nonceBytes : ℕ := 16

def macDomain : Str := "nipa-chunk-proof:v1".toList

def expiryBytes : ℕ := 8

section Challenges

variable {H : Type} [HashScheme H]

/-- What is signed for a challenge. -/
def challengeMessage (projectID : ID) (hash : H) (encoded : Str) : List UInt8 :=
  utf8 macDomain ++ (be64 projectID ++ (HashScheme.bytes hash ++ utf8 encoded))

def sign (σ : Signer) (projectID : ID) (hash : H) (encoded : Str) : Str :=
  σ.tag (challengeMessage projectID hash encoded)

/-- A time in seconds, as it is written into a challenge. -/
def expiryField (expires : Int64) : List UInt8 :=
  be64 expires.toUInt64.toNat

/-- The signed part of a challenge. -/
def encodedPayload (expires : Int64) (nonce : List UInt8) : Str :=
  Base64.encode (expiryField expires ++ nonce)

def newChallenge (σ : Signer) (projectID : ID) (hash : H) (expires : Int64)
    (nonce : List UInt8) : Str :=
  let encoded := encodedPayload expires nonce
  encoded ++ '.' :: sign σ projectID hash encoded

def verifyChallenge (σ : Signer) (projectID : ID) (hash : H) (challenge : Str)
    (now : Int64) : Bool :=
  match cut '.' challenge with
  | none => false
  | some (encoded, sig) =>
      encoded ≠ [] && sig ≠ [] && sig = sign σ projectID hash encoded &&
        match Base64.decode encoded with
        | none => false
        | some payload =>
            payload.length = expiryBytes + nonceBytes &&
              !(decide (now > (UInt64.ofNat (readBE64 payload)).toInt64))

/-- The answer to a challenge. -/
def proof (H : Type) [HashScheme H] (challenge : Str) (data : List UInt8) : Str :=
  hashString (HashScheme.sum (utf8 challenge ++ data) : H)

/-! ## What a challenge binds -/

theorem challengeMessage_inj {p p' : ID} {h h' : H} {e e' : Str} (hp : p < 2 ^ 64)
    (hp' : p' < 2 ^ 64) (heq : challengeMessage p h e = challengeMessage p' h' e') :
    p = p' ∧ h = h' ∧ e = e' := by
  have hrest := List.append_cancel_left heq
  obtain ⟨hid, hrest⟩ := List.append_inj hrest
    (rfl : (be64 p).length = (be64 p').length)
  obtain ⟨rfl, htext⟩ := HashScheme.bytes_delimited hrest
  exact ⟨be64_inj hp hp' hid, rfl, utf8_injective htext⟩

/-- An accepted challenge is some text with its signature for the project and the
hash. -/
theorem verifyChallenge_ok {σ : Signer} {p : ID} {h : H} {challenge : Str} {now : Int64}
    (hv : verifyChallenge σ p h challenge now = true) :
    ∃ encoded payload, cut '.' challenge = some (encoded, sign σ p h encoded) ∧
      Base64.decode encoded = some payload ∧
      now ≤ (UInt64.ofNat (readBE64 payload)).toInt64 := by
  rw [verifyChallenge] at hv
  split at hv
  · simp at hv
  next encoded sig hcut =>
    simp only [Bool.and_eq_true, decide_eq_true_eq] at hv
    obtain ⟨⟨-, hsig⟩, hpayload⟩ := hv
    split at hpayload
    · simp at hpayload
    next payload hdecode =>
      simp only [Bool.and_eq_true, Bool.not_eq_true', decide_eq_false_iff_not] at hpayload
      refine ⟨encoded, payload, ?_, hdecode, ?_⟩
      · rw [← hsig]
        exact hcut
      · exact Int64.not_lt.mp hpayload.2

theorem encodedPayload_inj {expires expires' : Int64} {nonce nonce' : List UInt8}
    (h : encodedPayload expires nonce = encodedPayload expires' nonce') :
    expires = expires' ∧ nonce = nonce' := by
  have hbytes := Base64.encode_injective h
  obtain ⟨hfield, hnonce⟩ := List.append_inj hbytes
    (rfl : (expiryField expires).length = (expiryField expires').length)
  have hnum := be64_inj expires.toUInt64.toNat_lt expires'.toUInt64.toNat_lt hfield
  exact ⟨by simpa using congrArg UInt64.toInt64 (UInt64.toNat_inj.mp hnum), hnonce⟩

theorem cut_newChallenge (σ : Signer) (p : ID) (h : H) (expires : Int64) (nonce : List UInt8) :
    cut '.' (newChallenge σ p h expires nonce) =
      some (encodedPayload expires nonce, sign σ p h (encodedPayload expires nonce)) := by
  refine cut_append _ ?_
  intro hdot
  exact (Base64.encode_mem hdot).2 rfl

theorem readExpiry {expires : Int64} {nonce payload : List UInt8}
    (h : Base64.decode (encodedPayload expires nonce) = some payload) :
    (UInt64.ofNat (readBE64 payload)).toInt64 = expires := by
  rw [encodedPayload, Base64.decode_encode] at h
  rw [← Option.some.inj h, expiryField, readBE64_be64 expires.toUInt64.toNat_lt,
    UInt64.ofNat_toNat, Int64.toInt64_toUInt64]

/-- A challenge is accepted for the project and the hash it was made for, until it
expires. -/
theorem verifyChallenge_newChallenge {σ : Signer} (hσ : σ.CollisionFree) {p p' : ID} {h h' : H}
    {expires now : Int64} {nonce : List UInt8} (hp : p < 2 ^ 64) (hp' : p' < 2 ^ 64)
    (hv : verifyChallenge σ p' h' (newChallenge σ p h expires nonce) now = true) :
    p' = p ∧ h' = h ∧ now ≤ expires := by
  obtain ⟨encoded, payload, hcut, hdecode, hnow⟩ := verifyChallenge_ok hv
  rw [cut_newChallenge] at hcut
  obtain ⟨rfl, hsig⟩ := Prod.mk.inj (Option.some.inj hcut)
  obtain ⟨rfl, rfl, -⟩ := challengeMessage_inj hp hp' (hσ hsig)
  rw [readExpiry hdecode] at hnow
  exact ⟨rfl, rfl, hnow⟩

/-! ## What an answer binds -/

theorem hexByte_injective : Function.Injective hexByte := by
  intro a b h
  have hdigit : ∀ m < 16, ∀ n < 16, Nat.digitChar m = Nat.digitChar n → m = n := by decide
  have ha := a.toNat_lt
  have hb := b.toNat_lt
  obtain ⟨hhigh, hlow⟩ := List.cons.inj h
  have hq := hdigit _ (by omega) _ (by omega) hhigh
  have hr := hdigit _ (by omega) _ (by omega) (List.singleton_inj.mp hlow)
  exact UInt8.toNat_inj.mp (by omega)

theorem hashString_injective : Function.Injective (hashString : H → Str) := by
  intro h h' heq
  have hbytes : ∀ l l' : List UInt8, l.flatMap hexByte = l'.flatMap hexByte → l = l' := by
    intro l
    induction l with
    | nil =>
        intro l' hl
        rcases l' with _ | ⟨b, l'⟩
        · rfl
        · simp [hexByte] at hl
    | cons a l ih =>
        intro l' hl
        rcases l' with _ | ⟨b, l'⟩
        · simp [hexByte] at hl
        · rw [List.flatMap_cons, List.flatMap_cons] at hl
          obtain ⟨hab, hrest⟩ := List.append_inj hl
            (rfl : (hexByte a).length = (hexByte b).length)
          rw [hexByte_injective hab, ih l' hrest]
  have happ : HashScheme.bytes h ++ [] = HashScheme.bytes h' ++ [] := by
    rw [hbytes _ _ heq]
  exact (HashScheme.bytes_delimited happ).1

theorem proof_inj (hcf : CollisionFree H) {σ : Signer} (hσ : σ.CollisionFree) {p p' : ID}
    {h h' : H} {expires expires' : Int64} {nonce nonce' data data' : List UInt8}
    (hp : p < 2 ^ 64) (hp' : p' < 2 ^ 64) (hnonce : nonce.length = nonceBytes)
    (hnonce' : nonce'.length = nonceBytes)
    (heq : proof H (newChallenge σ p h expires nonce) data =
      proof H (newChallenge σ p' h' expires' nonce') data') :
    p = p' ∧ h = h' ∧ expires = expires' ∧ nonce = nonce' ∧ data = data' := by
  have hbytes := hcf (hashString_injective heq)
  have hutf : ∀ (s t : Str), utf8 (s ++ '.' :: t) = utf8 s ++ (utf8 ['.'] ++ utf8 t) := by
    intro s t
    rw [utf8, List.flatMap_append, List.flatMap_cons]
    simp [utf8]
  simp only [newChallenge, hutf, List.append_assoc] at hbytes
  -- the signed texts have the same width
  have hlen : (utf8 (encodedPayload expires nonce)).length =
      (utf8 (encodedPayload expires' nonce')).length := by
    rw [encodedPayload, encodedPayload, Base64.length_utf8_encode, Base64.length_utf8_encode,
      List.length_append, List.length_append, hnonce, hnonce']
    rfl
  obtain ⟨henc, hrest⟩ := List.append_inj hbytes hlen
  obtain ⟨hsig, rfl⟩ := σ.tag_delimited (List.append_cancel_left hrest)
  obtain ⟨rfl, rfl, hencoded⟩ := challengeMessage_inj hp hp' (hσ hsig)
  obtain ⟨rfl, rfl⟩ := encodedPayload_inj hencoded
  exact ⟨rfl, rfl, rfl, rfl, rfl⟩

end Challenges

end Nipa
