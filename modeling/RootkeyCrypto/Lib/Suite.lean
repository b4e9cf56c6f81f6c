/-
  RootkeyCrypto.Lib.Suite — the cryptographic packages a program is built on, as a
  parameter, and what is assumed of them.

  A byte string that may hold a secret has bytes in a type `β`; `lit` puts an ordinary
  byte into it, `typed` a string that a user keeps on paper, which may be a secret as a
  whole. With `β = UInt8` a suite is the packages themselves, and both are the bytes as
  they are. Ids, salts, nonces and associated data are never secret and stay `UInt8`.

  `osBytes` and `osKey` are the OS RNG: what a draw at each position of the tape returns,
  for bytes the program publishes and for 32 bytes it uses as a key; `none` is a failed
  draw.

  `Ideal` is the usual idealisation: a cipher opens exactly what it sealed, under the
  same key, nonce and associated data; the derivations are injective; no key is drawn
  twice. 32 real bytes cannot satisfy it (an injective derivation has more inputs than
  that), so `β` is left open: `Lib.Symbolic` is a suite that does satisfy it.
-/

import RootkeyCrypto.Lib.Draws

namespace RootkeyCrypto.Lib

/-- A fixed-size array, `[u8; n]`. -/
@[ext] structure Arr (β : Type) (n : Nat) where
  toList : List β
  length : toList.length = n
  deriving DecidableEq

namespace Arr

variable {β γ : Type} {n : Nat}

theorem toList_inj {a b : Arr β n} : a.toList = b.toList ↔ a = b :=
  ⟨Arr.ext, fun h => by rw [h]⟩

/-- The array of a list of the right length. -/
def ofList? (n : Nat) (l : List β) : Option (Arr β n) :=
  if h : l.length = n then some ⟨l, h⟩ else none

@[simp] theorem ofList?_toList (a : Arr β n) : ofList? n a.toList = some a := by
  simp [ofList?, a.length]

theorem ofList?_eq_some {l : List β} {a : Arr β n} : ofList? n l = some a ↔ l = a.toList := by
  unfold ofList?
  split
  · simp [Arr.ext_iff]
  · rename_i h
    refine ⟨fun h' => (by cases h'), fun h' => ?_⟩
    rw [h'] at h
    exact absurd a.length h

def map (f : β → γ) (a : Arr β n) : Arr γ n := ⟨a.toList.map f, by simp [a.length]⟩

def replicate (n : Nat) (b : β) : Arr β n := ⟨List.replicate n b, by simp⟩

def ofFn (n : Nat) (f : Nat → β) : Arr β n := ⟨(List.range n).map f, by simp⟩

end Arr

/-- An authenticated cipher with 32-byte keys and `n`-byte nonces. -/
structure Aead (β : Type) (n : Nat) where
  encrypt : Arr β 32 → Arr UInt8 n → List UInt8 → List β → Option (List β)
  decrypt : Arr β 32 → Arr UInt8 n → List UInt8 → List β → Option (List β)

/-- Decryption succeeds exactly on outputs of encryption under the same key, nonce and
    associated data, and no two encryptions share an output. -/
structure Aead.Ideal {β : Type} {n : Nat} (A : Aead β n) : Prop where
  opens : ∀ {k nn a m c}, A.encrypt k nn a m = some c → A.decrypt k nn a c = some m
  only : ∀ {k nn a m c}, A.decrypt k nn a c = some m → A.encrypt k nn a m = some c
  inj : ∀ {k nn a m k' nn' a' m' c}, A.encrypt k nn a m = some c → A.encrypt k' nn' a' m' = some c →
    k = k' ∧ nn = nn' ∧ a = a' ∧ m = m'

/-- The packages: RNG, normalization, key derivation, ciphers, sealed boxes. -/
structure Suite (β : Type) where
  lit : UInt8 → β
  /-- The bytes of a string that a user has to keep. -/
  typed : List UInt8 → List β
  /-- `getrandom`, for bytes that are published: position, size. -/
  osBytes : Nat → (n : Nat) → Option (Arr UInt8 n)
  /-- `getrandom`, for a key. -/
  osKey : Nat → Option (Arr β 32)
  /-- Unicode NFKD. -/
  nfkd : String → String
  /-- Argon2id: memory, time, lanes, salt, password; `none` for what it does not take. -/
  argon2id : UInt32 → UInt32 → UInt32 → Arr UInt8 32 → List UInt8 → Option (Arr β 32)
  /-- BLAKE3 `derive_key`: context, material. -/
  blake3 : String → List β → Arr β 32
  aesGcmSiv : Aead β 12
  xChaCha20 : Aead β 24
  /-- The X25519 public key of a secret. -/
  x25519 : Arr β 32 → Arr β 32
  /-- libsodium's sealed box: tape position (the ephemeral key), recipient, message;
      `none` for a low-order recipient. -/
  boxSeal : Nat → Arr β 32 → List β → Option (List β)
  /-- Open a sealed box with the recipient's secret. -/
  boxOpen : Arr β 32 → List β → Option (List β)

/-- What is assumed of the packages. -/
structure Suite.Ideal {β : Type} (S : Suite β) : Prop where
  aes : S.aesGcmSiv.Ideal
  xchacha : S.xChaCha20.Ideal
  lit_inj : Function.Injective S.lit
  typed_inj : Function.Injective S.typed
  /-- Normalization deletes nothing. -/
  nfkd_empty : ∀ {s t}, S.nfkd s = S.nfkd t → s = "" → t = ""
  argon_inj : ∀ {m t p s w m' t' p' s' w' k}, S.argon2id m t p s w = some k →
    S.argon2id m' t' p' s' w' = some k → m = m' ∧ t = t' ∧ p = p' ∧ s = s' ∧ w = w'
  /-- Whether Argon2id takes its parameters does not depend on the password. -/
  argon_takes : ∀ {m t p s w k} (w' : List UInt8), S.argon2id m t p s w = some k →
    ∃ k', S.argon2id m t p s w' = some k'
  blake_inj : ∀ {c x c' x'}, S.blake3 c x = S.blake3 c' x' → c = c' ∧ x = x'
  /-- No key is drawn twice. -/
  key_fresh : ∀ {i j k}, S.osKey i = some k → S.osKey j = some k → i = j

/-- A sealed box opens with its recipient's secret and no other. -/
structure Suite.IdealBox {β : Type} (S : Suite β) : Prop where
  opens : ∀ {i sk m c}, S.boxSeal i (S.x25519 sk) m = some c → S.boxOpen sk c = some m
  only : ∀ {i pk m c sk m'}, S.boxSeal i pk m = some c → S.boxOpen sk c = some m' → pk = S.x25519 sk ∧ m' = m

end RootkeyCrypto.Lib
