/-
  RootkeyCrypto.Core.Kdf — errors, keys, random draws and password derivation
  (`error.rs`, `keys.rs`, `random.rs`, `kdf.rs`).

  The five key newtypes wrap one 32-byte key and convert freely inside the crate; they
  are names of `SymmetricKey` here. `random::bytes` is two functions: `randomBytes` for
  what the program publishes (ids, salts, nonces, the letters of a recovery key) and
  `randomKey` for key bytes. A failed draw is `rngFailed`.
-/

import RootkeyCrypto.Lib.Bits
import RootkeyCrypto.Lib.Suite

namespace RootkeyCrypto

open Lib

inductive CryptoError where
  | invalidArgument (msg : String)
  | kdfFailed
  | encryptFailed
  | decryptFailed
  | rngFailed
  | serializationFailed
  | unsupportedVersion (v : UInt16)
  | schemaTooOld (v : UInt16)
  | signatureInvalid
  deriving DecidableEq, Repr

/-- The crate's fallible computations that use the RNG. -/
abbrev Draw (α : Type) : Type := Draws CryptoError α

/-- A 16-byte account, vault or item id. -/
abbrev Id : Type := Arr UInt8 16

abbrev SymmetricKey (β : Type) : Type := Arr β 32
abbrev MasterUnlockKey (β : Type) : Type := SymmetricKey β
abbrev AccountRootKey (β : Type) : Type := SymmetricKey β
abbrev KeyEncryptionKey (β : Type) : Type := SymmetricKey β
abbrev VaultMasterKey (β : Type) : Type := SymmetricKey β
abbrev ItemKekKey (β : Type) : Type := SymmetricKey β

variable {β : Type} (S : Suite β)

/-- `SymmetricKey::try_from_slice`. -/
def tryFromSlice (slice : List β) : Except CryptoError (SymmetricKey β) :=
  match Arr.ofList? 32 slice with
  | some key => .ok key
  | none => .error (.invalidArgument "symmetric key must be 32 bytes")

@[simp] theorem tryFromSlice_toList (k : SymmetricKey β) : tryFromSlice k.toList = .ok k := by
  simp [tryFromSlice]

theorem tryFromSlice_ok {slice : List β} {k : SymmetricKey β} :
    tryFromSlice slice = .ok k ↔ slice = k.toList := by
  unfold tryFromSlice
  split
  · rename_i key h
    rw [Arr.ofList?_eq_some] at h
    rw [h, Arr.toList_inj]
    exact ⟨fun e => (by cases e; rfl), fun e => by rw [e]⟩
  · rename_i h
    refine ⟨fun e => (by cases e), fun e => ?_⟩
    rw [e, Arr.ofList?_toList] at h
    cases h

/-! ## Random draws -/

/-- `random::bytes::<n>()`, for published bytes. -/
def randomBytes (n : Nat) : Draw (Arr UInt8 n) := fun pos =>
  match S.osBytes pos n with
  | some b => .ok (b, pos + 1)
  | none => .error .rngFailed

/-- `random::bytes::<32>()`, for a key: `SymmetricKey::random`, `generate` of each newtype. -/
def randomKey : Draw (SymmetricKey β) := fun pos =>
  match S.osKey pos with
  | some k => .ok (k, pos + 1)
  | none => .error .rngFailed

theorem randomBytes_ok {n pos pos' : Nat} {b : Arr UInt8 n} :
    randomBytes S n pos = .ok (b, pos') ↔ S.osBytes pos n = some b ∧ pos' = pos + 1 := by
  unfold randomBytes
  cases S.osBytes pos n <;> simp [eq_comm]

theorem randomKey_ok {pos pos' : Nat} {k : SymmetricKey β} :
    randomKey S pos = .ok (k, pos') ↔ S.osKey pos = some k ∧ pos' = pos + 1 := by
  unfold randomKey
  cases S.osKey pos <;> simp [eq_comm]

/-- The key was drawn on this stretch of the tape. -/
def Drawn (S : Suite β) (n n' : Nat) (k : SymmetricKey β) : Prop := ∃ i, n ≤ i ∧ i < n' ∧ S.osKey i = some k

theorem Drawn.widen {S : Suite β} {n n' m m' : Nat} {k : SymmetricKey β} (h : Drawn S n n' k) (hm : m ≤ n)
    (hm' : n' ≤ m') : Drawn S m m' k := by
  obtain ⟨i, h1, h2, h3⟩ := h
  exact ⟨i, by omega, by omega, h3⟩

/-- A key replaced is one drawn since. -/
def Replaced (S : Suite β) (n n' : Nat) (turned : Bool) (k k' : SymmetricKey β) : Prop :=
  if turned then Drawn S n n' k' else k' = k

theorem Replaced.trans {S : Suite β} {n n' n'' : Nat} {x y : Bool} {k k' k'' : SymmetricKey β} (hn : n ≤ n') (hn' : n' ≤ n'')
    (h : Replaced S n n' x k k') (h' : Replaced S n' n'' y k' k'') : Replaced S n n'' (x || y) k k'' := by
  cases y with
  | true =>
    rw [Bool.or_true]
    exact Drawn.widen h' hn (Nat.le_refl _)
  | false =>
    rw [Bool.or_false]
    cases (show k'' = k' from h')
    cases x with
    | true => exact Drawn.widen h (Nat.le_refl _) hn'
    | false => exact h

/-- A key drawn before is not the one that replaced it. -/
theorem Replaced.ne {S : Suite β} (hS : S.Ideal) {n n' : Nat} {k k' : SymmetricKey β} (hk : Drawn S 0 n k)
    (h : Replaced S n n' true k k') : k ≠ k' := by
  rintro rfl
  obtain ⟨i, -, hi, hk⟩ := hk
  obtain ⟨j, hj, -, hk'⟩ := h
  have := hS.key_fresh hk hk'
  omega

theorem Replaced.drawn {S : Suite β} {n n' : Nat} {turned : Bool} {k k' : SymmetricKey β} (hn : n ≤ n') (hk : Drawn S 0 n k)
    (h : Replaced S n n' turned k k') : Drawn S 0 n' k' := by
  cases turned with
  | true => exact Drawn.widen h (Nat.zero_le _) (Nat.le_refl _)
  | false =>
    cases (show k' = k from h)
    exact hk.widen (Nat.le_refl _) hn

/-! ## Versions -/

/-- The range check each reader makes on a record's version. -/
def checkVersion (newest oldest version : UInt16) : Except CryptoError Unit :=
  if version > newest then .error (.unsupportedVersion version)
  else if version < oldest then .error (.schemaTooOld version)
  else .ok ()

/-! ## Bytes -/

/-- `as_bytes` of a string, and the bytes of a `b"..."` literal. -/
def asBytes (s : String) : List UInt8 := s.toList.flatMap String.utf8EncodeChar

theorem asBytes_inj {s t : String} : asBytes s = asBytes t ↔ s = t := by
  refine ⟨fun h => ?_, fun h => by rw [h]⟩
  have hs : ∀ u : String, u.toByteArray = (asBytes u).toByteArray := by
    intro u
    rw [← String.utf8Encode_toList]
    rfl
  rw [← String.toByteArray_inj, hs, hs, h]

/-- `to_be_bytes` of a `u32`. -/
def be32 (x : UInt32) : List UInt8 :=
  [(x >>> 24).toUInt8, (x >>> 16).toUInt8, (x >>> 8).toUInt8, x.toUInt8]

@[simp] theorem be32_length (x : UInt32) : (be32 x).length = 4 := rfl

theorem be32_eq (x : UInt32) : be32 x = beBytes 4 x.toNat := by
  simp only [be32, beBytes, List.cons.injEq, and_true, ← UInt8.toNat_inj, UInt8.toNat_ofNat', UInt32.toNat_toUInt8,
    UInt32.toNat_shiftRight]
  exact ⟨rfl, rfl, rfl, rfl⟩

theorem be32_inj {x y : UInt32} : be32 x = be32 y ↔ x = y := by
  refine ⟨fun h => ?_, fun h => by rw [h]⟩
  rw [be32_eq, be32_eq] at h
  exact UInt32.toNat_inj.mp (beBytes_inj x.toNat_lt y.toNat_lt h)

/-! ## KDF parameters -/

def defaultMemoryKib : UInt32 := 128 * 1024
def defaultTimeCost : UInt32 := 3
def defaultParallelism : UInt32 := 4
def minMemoryKib : UInt32 := 19 * 1024
def minTimeCost : UInt32 := 2
def minParallelism : UInt32 := 1

inductive KdfAlgorithm where
  | argon2id
  deriving DecidableEq, Repr

structure KdfParams where
  algorithm : KdfAlgorithm
  memoryKib : UInt32
  timeCost : UInt32
  parallelism : UInt32
  salt : Arr UInt8 32
  deriving DecidableEq

namespace KdfParams

/-- Default parameters and a fresh salt. -/
def generateDefault : Draw KdfParams := do
  let salt ← randomBytes S 32
  pure { algorithm := .argon2id, memoryKib := defaultMemoryKib, timeCost := defaultTimeCost,
         parallelism := defaultParallelism, salt := salt }

def validate (p : KdfParams) : Except CryptoError Unit :=
  if p.memoryKib < minMemoryKib ∨ p.timeCost < minTimeCost ∨ p.parallelism < minParallelism then
    .error (.invalidArgument "kdf params below client minimum")
  else if p.salt.toList.all (· == 0) then .error (.invalidArgument "kdf salt all-zero")
  else .ok ()

/-- The canonical bytes: algorithm, the three numbers, the salt. -/
def aadBytes (p : KdfParams) : List UInt8 :=
  (match p.algorithm with | .argon2id => 1) ::
    (be32 p.memoryKib ++ be32 p.timeCost ++ be32 p.parallelism ++ p.salt.toList)

@[simp] theorem aadBytes_length (p : KdfParams) : p.aadBytes.length = 45 := by
  simp [aadBytes, p.salt.length]

theorem aadBytes_inj {p q : KdfParams} : p.aadBytes = q.aadBytes ↔ p = q := by
  refine ⟨fun h => ?_, fun h => by rw [h]⟩
  obtain ⟨⟨⟩, m, t, l, s⟩ := p
  obtain ⟨⟨⟩, m', t', l', s'⟩ := q
  simp only [aadBytes, List.cons.injEq, true_and] at h
  obtain ⟨h, hs⟩ := List.append_inj h (by simp)
  obtain ⟨h, hl⟩ := List.append_inj h (by simp)
  obtain ⟨hm, ht⟩ := List.append_inj h (by simp)
  rw [be32_inj] at hm ht hl
  rw [Arr.toList_inj] at hs
  rw [hm, ht, hl, hs]

theorem generateDefault_ok {pos pos' : Nat} {p : KdfParams} :
    generateDefault S pos = .ok (p, pos') ↔ S.osBytes pos 32 = some p.salt ∧ pos' = pos + 1 ∧
      p.memoryKib = defaultMemoryKib ∧ p.timeCost = defaultTimeCost ∧ p.parallelism = defaultParallelism := by
  simp only [generateDefault, Draws.bind_ok, Draws.pure_ok, randomBytes_ok]
  constructor
  · rintro ⟨salt, m, ⟨h, rfl⟩, rfl, rfl⟩
    exact ⟨h, rfl, rfl, rfl, rfl⟩
  · rintro ⟨h, rfl, hm, ht, hp⟩
    obtain ⟨⟨⟩, m, t, l, s⟩ := p
    simp only at hm ht hp
    subst hm ht hp
    exact ⟨s, _, ⟨h, rfl⟩, rfl, rfl⟩

end KdfParams

/-- Master password and parameters to the master unlock key. -/
def deriveMuk (password : String) (params : KdfParams) : Except CryptoError (MasterUnlockKey β) := do
  if password = "" then .error (.invalidArgument "password is empty")
  else
    params.validate
    match params.algorithm with
    | .argon2id =>
      match S.argon2id params.memoryKib params.timeCost params.parallelism params.salt
          (asBytes (S.nfkd password)) with
      | some key => pure key
      | none => .error .kdfFailed

variable {S}

theorem deriveMuk_ok {pw : String} {p : KdfParams} {k : MasterUnlockKey β} :
    deriveMuk S pw p = .ok k ↔ pw ≠ "" ∧ p.validate = .ok () ∧
      S.argon2id p.memoryKib p.timeCost p.parallelism p.salt (asBytes (S.nfkd pw)) = some k := by
  obtain ⟨⟨⟩, m, t, l, s⟩ := p
  unfold deriveMuk
  split
  · rename_i h
    exact ⟨fun h' => (by cases h'), fun h' => absurd h h'.1⟩
  · rename_i h
    simp only [except_bind_ok]
    constructor
    · rintro ⟨⟨⟩, hv, hk⟩
      refine ⟨h, hv, ?_⟩
      split at hk
      · rename_i key hkey
        cases hk
        exact hkey
      · cases hk
    · rintro ⟨_, hv, hk⟩
      refine ⟨(), hv, ?_⟩
      rw [hk]
      rfl

/-- Equal keys come from equal parameters and passwords that normalize alike. -/
theorem deriveMuk_inj (hS : S.Ideal) {pw pw' : String} {p p' : KdfParams} {k : MasterUnlockKey β}
    (h : deriveMuk S pw p = .ok k) (h' : deriveMuk S pw' p' = .ok k) : p = p' ∧ S.nfkd pw = S.nfkd pw' := by
  obtain ⟨-, -, h⟩ := deriveMuk_ok.mp h
  obtain ⟨-, -, h'⟩ := deriveMuk_ok.mp h'
  obtain ⟨hm, ht, hp, hs, hw⟩ := hS.argon_inj h h'
  obtain ⟨⟨⟩, m, t, l, s⟩ := p
  obtain ⟨⟨⟩, m', t', l', s'⟩ := p'
  simp only at hm ht hp hs
  exact ⟨by rw [hm, ht, hp, hs], asBytes_inj.mp hw⟩

/-- Passwords that normalize alike derive the same key. -/
theorem deriveMuk_congr (hS : S.Ideal) {pw pw' : String} {p : KdfParams} {k : MasterUnlockKey β}
    (hn : S.nfkd pw' = S.nfkd pw) (h : deriveMuk S pw p = .ok k) : deriveMuk S pw' p = .ok k := by
  obtain ⟨h0, hv, hk⟩ := deriveMuk_ok.mp h
  exact deriveMuk_ok.mpr ⟨fun e => h0 (hS.nfkd_empty hn e), hv, by rw [hn]; exact hk⟩

/-- Where one password derives a key, so does every other that is not empty. -/
theorem deriveMuk_takes (hS : S.Ideal) {pw pw' : String} {p : KdfParams} {k : MasterUnlockKey β}
    (h : deriveMuk S pw p = .ok k) (h0 : pw' ≠ "") : ∃ k', deriveMuk S pw' p = .ok k' := by
  obtain ⟨-, hv, hk⟩ := deriveMuk_ok.mp h
  obtain ⟨k', hk'⟩ := hS.argon_takes (asBytes (S.nfkd pw')) hk
  exact ⟨k', deriveMuk_ok.mpr ⟨h0, hv, hk'⟩⟩

end RootkeyCrypto
