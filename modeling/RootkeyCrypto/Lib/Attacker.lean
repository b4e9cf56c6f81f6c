/-
  RootkeyCrypto.Lib.Attacker — what an attacker can compute from what he knows, with the
  packages of a suite and nothing else (a Dolev-Yao attacker).

  `Derives S Known Guess m`: from the byte strings of `Known` the attacker computes `m` by
  finitely many steps: taking strings apart and putting them together, Argon2id on a byte
  string he guesses, BLAKE3 derivation, encryption and decryption with a key he has,
  public keys, sealing to anyone, opening boxes with a secret he has.

  A set of strings closed under these steps and containing what he knows contains all he
  derives (`Derives.closed`). A secrecy proof is a closed set without the secret.
-/

import RootkeyCrypto.Lib.Suite

namespace RootkeyCrypto.Lib

variable {β : Type}

inductive Derives (S : Suite β) (Known : List β → Prop) (Guess : List UInt8 → Prop) : List β → Prop where
  | known {m} (h : Known m) : Derives S Known Guess m
  | lit (b : UInt8) : Derives S Known Guess [S.lit b]
  | nil : Derives S Known Guess []
  | append {x y} (hx : Derives S Known Guess x) (hy : Derives S Known Guess y) : Derives S Known Guess (x ++ y)
  | slice {x y z} (h : Derives S Known Guess (x ++ y ++ z)) : Derives S Known Guess y
  | argon {m t p s w k} (hw : Guess w) (h : S.argon2id m t p s w = some k) : Derives S Known Guess k.toList
  | blake {m} (c : String) (hm : Derives S Known Guess m) : Derives S Known Guess (S.blake3 c m).toList
  | aesEncrypt {k : Arr β 32} {n a m c} (hk : Derives S Known Guess k.toList) (hm : Derives S Known Guess m)
      (h : S.aesGcmSiv.encrypt k n a m = some c) : Derives S Known Guess c
  | aesDecrypt {k : Arr β 32} {n a m c} (hk : Derives S Known Guess k.toList) (hc : Derives S Known Guess c)
      (h : S.aesGcmSiv.decrypt k n a c = some m) : Derives S Known Guess m
  | xchachaEncrypt {k : Arr β 32} {n a m c} (hk : Derives S Known Guess k.toList) (hm : Derives S Known Guess m)
      (h : S.xChaCha20.encrypt k n a m = some c) : Derives S Known Guess c
  | xchachaDecrypt {k : Arr β 32} {n a m c} (hk : Derives S Known Guess k.toList) (hc : Derives S Known Guess c)
      (h : S.xChaCha20.decrypt k n a c = some m) : Derives S Known Guess m
  | publicKey {sk : Arr β 32} (hk : Derives S Known Guess sk.toList) : Derives S Known Guess (S.x25519 sk).toList
  | boxSeal {pos} {pk : Arr β 32} {m c} (hp : Derives S Known Guess pk.toList) (hm : Derives S Known Guess m)
      (h : S.boxSeal pos pk m = some c) : Derives S Known Guess c
  | boxOpen {sk : Arr β 32} {m c} (hk : Derives S Known Guess sk.toList) (hc : Derives S Known Guess c)
      (h : S.boxOpen sk c = some m) : Derives S Known Guess m

/-- Closed under every step of the attacker. -/
structure Closed (S : Suite β) (Guess : List UInt8 → Prop) (P : List β → Prop) : Prop where
  lit : ∀ b, P [S.lit b]
  nil : P []
  append : ∀ {x y}, P x → P y → P (x ++ y)
  slice : ∀ {x y z}, P (x ++ y ++ z) → P y
  argon : ∀ {m t p s w k}, Guess w → S.argon2id m t p s w = some k → P k.toList
  blake : ∀ {m} c, P m → P (S.blake3 c m).toList
  aesEncrypt : ∀ {k : Arr β 32} {n a m c}, P k.toList → P m → S.aesGcmSiv.encrypt k n a m = some c → P c
  aesDecrypt : ∀ {k : Arr β 32} {n a m c}, P k.toList → P c → S.aesGcmSiv.decrypt k n a c = some m → P m
  xchachaEncrypt : ∀ {k : Arr β 32} {n a m c}, P k.toList → P m → S.xChaCha20.encrypt k n a m = some c → P c
  xchachaDecrypt : ∀ {k : Arr β 32} {n a m c}, P k.toList → P c → S.xChaCha20.decrypt k n a c = some m → P m
  publicKey : ∀ {sk : Arr β 32}, P sk.toList → P (S.x25519 sk).toList
  boxSeal : ∀ {pos} {pk : Arr β 32} {m c}, P pk.toList → P m → S.boxSeal pos pk m = some c → P c
  boxOpen : ∀ {sk : Arr β 32} {m c}, P sk.toList → P c → S.boxOpen sk c = some m → P m

/-- Everything derived stays in a closed set. -/
theorem Derives.closed {S : Suite β} {Known : List β → Prop} {Guess : List UInt8 → Prop} {P : List β → Prop}
    (hP : Closed S Guess P) (hK : ∀ m, Known m → P m) {m : List β} (h : Derives S Known Guess m) : P m := by
  induction h with
  | known h => exact hK _ h
  | lit b => exact hP.lit b
  | nil => exact hP.nil
  | append _ _ hx hy => exact hP.append hx hy
  | slice _ h => exact hP.slice h
  | argon hw h => exact hP.argon hw h
  | blake c _ hm => exact hP.blake c hm
  | aesEncrypt _ _ h hk hm => exact hP.aesEncrypt hk hm h
  | aesDecrypt _ _ h hk hc => exact hP.aesDecrypt hk hc h
  | xchachaEncrypt _ _ h hk hm => exact hP.xchachaEncrypt hk hm h
  | xchachaDecrypt _ _ h hk hc => exact hP.xchachaDecrypt hk hc h
  | publicKey _ hk => exact hP.publicKey hk
  | boxSeal _ _ h hp hm => exact hP.boxSeal hp hm h
  | boxOpen _ _ h hk hc => exact hP.boxOpen hk hc h

end RootkeyCrypto.Lib
