/-
  RootkeyCrypto.Core.Share — `share.rs`: one item shared by a link. The content is sealed
  under a key drawn for it, which the text of the blob does not contain; the expiry is the
  associated data.

  A key is typed as `RKS1`, then groups of five letters of Crockford's base32 that hold the
  key and a checksum of it. A blob is four lines: a header, the nonce, the expiry in decimal,
  the ciphertext. `hash` is BLAKE3 without a key, `B` the base64 of the two byte strings.

  `sealShare_ok` and `openShare_ok` say what sealing makes and when opening succeeds.
-/

import RootkeyCrypto.Core.Crockford
import RootkeyCrypto.Core.Recovery
import RootkeyCrypto.Core.Wrapping

namespace RootkeyCrypto

open Lib

def shareHeader : String := "rootkey-share-v1"
def keyPrefix : String := "RKS1"
def keyChecksumDomain : String := "rootkey-share-key-checksum-v1"
def keyChecksumLen : Nat := 5

/-! ## Keys -/

structure ShareKey (β : Type) where
  bytes : Arr β 32
  deriving DecidableEq

section Keys

variable (hash : List UInt8 → Arr UInt8 32)

def checksum (key : List UInt8) : Arr UInt8 keyChecksumLen :=
  ⟨(hash (asBytes keyChecksumDomain ++ key)).toList.take keyChecksumLen, by
    rw [List.length_take, (hash _).length]
    rfl⟩

/-- `I` and `L` are read as `1`, `O` as `0`. -/
def normalizeLetter (c : Char) : Char := if c = 'I' ∨ c = 'L' then '1' else if c = 'O' then '0' else c

/-- The letters of the key and its checksum. -/
def ShareKey.encoded (key : ShareKey UInt8) : String :=
  crockfordEncode (key.bytes.toList ++ (checksum hash key.bytes.toList).toList)

def ShareKey.encode (key : ShareKey UInt8) : String :=
  String.ofList (keyPrefix.toList ++ (key.encoded hash).toList.zipIdx.flatMap fun x =>
    if x.2 % 5 = 0 then ['-', x.1] else [x.1])

def ShareKey.parse (input : String) : Except CryptoError (ShareKey UInt8) :=
  let stripped := input.toList.filter fun c => !isWhitespace c && c != '-'
  let upper := stripped.map Char.toUpper
  match upper.dropPrefix? keyPrefix.toList with
  | none => .error (.invalidArgument "invalid share key")
  | some body =>
    let normalized := String.ofList (body.map normalizeLetter)
    match crockfordDecode normalized with
    | none => .error (.invalidArgument "invalid share key")
    | some decoded =>
      if h : decoded.length = 32 + keyChecksumLen then
        let keyBytes : Arr UInt8 32 := ⟨decoded.take 32, by rw [List.length_take, h]; rfl⟩
        let expected := decoded.drop 32
        let actual := checksum hash keyBytes.toList
        if expected = actual.toList then .ok { bytes := keyBytes }
        else .error (.invalidArgument "invalid share key")
      else .error (.invalidArgument "invalid share key")

end Keys

/-! ## Blobs -/

@[ext] structure ShareBlob (β : Type) where
  nonce : Arr UInt8 24
  ciphertext : List β
  expiresAt : UInt64
  deriving DecidableEq

/-- `BASE64URL_NOPAD`, on a nonce and on a ciphertext. -/
structure Base64 (β : Type) where
  nonce : Codec UInt8
  ciphertext : Codec β

structure Base64.Ideal {β : Type} (B : Base64 β) : Prop where
  nonce : B.nonce.Ideal
  ciphertext : B.ciphertext.Ideal

section Text

variable {β : Type} (B : Base64 β)

def ShareBlob.encodeText (blob : ShareBlob β) : String :=
  shareHeader ++ "\n" ++ B.nonce.encode blob.nonce.toList ++ "\n" ++ blob.expiresAt.toNat.repr ++ "\n" ++
    B.ciphertext.encode blob.ciphertext ++ "\n"

/-- The three fields, once their lines are there. -/
def ShareBlob.parseFields (nonceB64 expStr ctB64 : String) : Except CryptoError (ShareBlob β) :=
  match B.nonce.decode nonceB64 with
  | none => .error (.invalidArgument "share blob: nonce decode")
  | some nonceVec =>
    match Arr.ofList? 24 nonceVec with
    | none => .error (.invalidArgument "share blob: nonce length")
    | some nonce =>
      match parseU64 (String.ofList (trim expStr.toList)) with
      | none => .error (.invalidArgument "share blob: exp parse")
      | some expiresAt =>
        match B.ciphertext.decode ctB64 with
        | none => .error (.invalidArgument "share blob: ct decode")
        | some ct => .ok { nonce := nonce, ciphertext := ct, expiresAt := expiresAt }

def ShareBlob.parseText (text : String) : Except CryptoError (ShareBlob β) :=
  match lines text with
  | [] => .error (.invalidArgument "share blob: missing header")
  | magic :: rest =>
    if asBytes magic ≠ asBytes shareHeader then .error (.unsupportedVersion 0)
    else
      match rest with
      | [] => .error (.invalidArgument "share blob: missing nonce")
      | [_] => .error (.invalidArgument "share blob: missing exp")
      | [_, _] => .error (.invalidArgument "share blob: missing ct")
      | nonceB64 :: expStr :: ctB64 :: _ => ShareBlob.parseFields B nonceB64 expStr ctB64

end Text

/-! ## Sealing and opening -/

section Sealing

variable {β : Type} (S : Suite β)

def ShareKey.random : Draw (ShareKey β) := do
  let raw ← randomKey S
  pure { bytes := raw }

def sealShare (plaintext : List β) (expiresAt : UInt64) : Draw (ShareKey β × ShareBlob β) := do
  if plaintext.isEmpty then Draws.throw (.invalidArgument "share plaintext empty")
  else
    let key ← ShareKey.random S
    let nonce ← randomBytes S 24
    match S.xChaCha20.encrypt key.bytes nonce (aadForShare expiresAt) plaintext with
    | some ciphertext => pure (key, { nonce := nonce, ciphertext := ciphertext, expiresAt := expiresAt })
    | none => Draws.throw .encryptFailed

def openShare (blob : ShareBlob β) (key : ShareKey β) (nowUnix : UInt64) : Except CryptoError (List β) :=
  if nowUnix > blob.expiresAt then .error .decryptFailed
  else
    match S.xChaCha20.decrypt key.bytes blob.nonce (aadForShare blob.expiresAt) blob.ciphertext with
    | some plaintext => .ok plaintext
    | none => .error .decryptFailed

variable {S}

theorem sealShare_ok {p : List β} {e : UInt64} {key : ShareKey β} {blob : ShareBlob β} {n n' : Nat} :
    sealShare S p e n = .ok ((key, blob), n') ↔ p ≠ [] ∧ S.osKey n = some key.bytes ∧
      S.osBytes (n + 1) 24 = some blob.nonce ∧ blob.expiresAt = e ∧
      S.xChaCha20.encrypt key.bytes blob.nonce (aadForShare e) p = some blob.ciphertext ∧ n' = n + 2 := by
  unfold sealShare
  by_cases hp : p = []
  · rw [hp]
    simp only [List.isEmpty_nil, if_true, Draws.throw_ok]
    exact ⟨False.elim, fun h => h.1 rfl⟩
  · have hemp : p.isEmpty = false := by
      rw [List.isEmpty_eq_false_iff]
      exact hp
    simp only [hemp, Bool.false_eq_true, if_false, ShareKey.random, Draws.bind_ok, Draws.pure_ok, randomKey_ok, randomBytes_ok]
    constructor
    · intro h
      obtain ⟨k, _, ⟨raw, _, ⟨hraw, rfl⟩, rfl, rfl⟩, nonce, _, ⟨hn, rfl⟩, h⟩ := h
      cases hc : S.xChaCha20.encrypt raw nonce (aadForShare e) p with
      | none =>
        rw [hc] at h
        exact (Draws.throw_ok.mp h).elim
      | some c =>
        rw [hc] at h
        obtain ⟨hkb, rfl⟩ := Draws.pure_ok.mp h
        cases hkb
        exact ⟨hp, hraw, hn, rfl, hc, rfl⟩
    · intro h
      obtain ⟨-, hk, hn, rfl, hc, rfl⟩ := h
      refine ⟨key, n + 1, ⟨key.bytes, n + 1, ⟨hk, rfl⟩, rfl, rfl⟩, blob.nonce, n + 2, ⟨hn, rfl⟩, ?_⟩
      rw [hc]
      exact Draws.pure_ok.mpr ⟨rfl, rfl⟩

theorem openShare_ok {blob : ShareBlob β} {key : ShareKey β} {now : UInt64} {p : List β} :
    openShare S blob key now = .ok p ↔ now ≤ blob.expiresAt ∧
      S.xChaCha20.decrypt key.bytes blob.nonce (aadForShare blob.expiresAt) blob.ciphertext = some p := by
  unfold openShare
  by_cases hnow : now > blob.expiresAt
  · rw [if_pos hnow]
    constructor
    · intro h
      cases h
    · intro h
      exact absurd hnow (UInt64.not_lt.mpr h.1)
  · rw [if_neg hnow]
    cases S.xChaCha20.decrypt key.bytes blob.nonce (aadForShare blob.expiresAt) blob.ciphertext with
    | none =>
      constructor
      · intro h
        cases h
      · intro h
        cases h.2
    | some m =>
      rw [Except.ok.injEq, Option.some.injEq]
      exact ⟨fun h => ⟨UInt64.not_lt.mp hnow, h⟩, fun h => h.2⟩

/-- After the expiry nothing opens. -/
theorem openShare_expired {blob : ShareBlob β} {key : ShareKey β} {now : UInt64} (h : blob.expiresAt < now) :
    openShare S blob key now = .error .decryptFailed := by
  unfold openShare
  exact if_pos h

end Sealing

end RootkeyCrypto
