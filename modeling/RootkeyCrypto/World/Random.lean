/-
  RootkeyCrypto.World.Random — what is drawn, and that nothing drawn is used twice.

  A `Run` is any sequence of the crate's calls that draw, on whatever arguments: keysets,
  handles, entries, shared keys and passwords may come from anywhere. It lists what each
  call takes and what came of it: the ids, salts, nonces, keys and recovery letters of its
  result, and the ephemeral key of each sealed box. Calls that unlock draw nothing.

  Everything in a run was drawn at a position of its own, so no call and no loop takes one
  draw for two things. With an RNG that does not repeat a nonce, all nonces of a run are
  distinct, and so are its keys (`draws_distinct`): no key meets a nonce twice.

  A recovery key has all the entropy of its 25 letters: each key is shown for the same
  number of sequences of bytes (`recovery_keys_even`).
-/

import RootkeyCrypto.Account.TypedKey
import RootkeyCrypto.Core.Takings
import RootkeyCrypto.Lib.Symbolic

namespace RootkeyCrypto.Random

open Lib

/-- A call that draws, and what it takes. -/
inductive Call {β : Type} (S : Suite β) (n n' : Nat) : List (Taking β) → Prop
  -- One vault.
  | createVaultKeys {pw r} (h : createVaultKeys S pw n = .ok (r, n')) :
      Call S n n' [.bytes 16 r.encrypted.accountId, .bytes 16 r.encrypted.vaultId, r.encrypted.kdf.taking,
        .key r.unlocked.kek, .key r.unlocked.vmk, .key r.unlocked.ikek, r.encrypted.wrappedKek.taking,
        r.encrypted.wrappedVmk.taking, r.encrypted.wrappedIkek.taking]
  | changeMasterPassword {old new ks next} (h : changeMasterPassword S old new ks n = .ok (next, n')) :
      Call S n n' [next.kdf.taking, next.wrappedKek.taking]
  | rotateVaultKey {v ks seed ks' v' seed'} (h : rotateVaultKey S v ks seed n = .ok ((ks', v', seed'), n')) :
      Call S n n' ([.key v'.vmk, ks'.wrappedVmk.taking, ks'.wrappedIkek.taking] ++
        seed'.toList.map WrappedKey.taking)
  | rotateIkek {v ks ks' v'} (h : rotateIkek S v ks n = .ok ((ks', v'), n')) :
      Call S n n' [.key v'.ikek, ks'.wrappedIkek.taking]
  | enableBiometricUnlock {v r} (h : enableBiometricUnlock S v n = .ok (r, n')) :
      Call S n n' [.key r.wrapperKey, r.envelope.wrappedKek.taking]
  | wrapSigningSeed {v seed x} (h : wrapSigningSeed S v seed n = .ok (x, n')) : Call S n n' [x.taking]
  -- Items and backups.
  | encryptItem {p id v e k} (h : encryptItem S p id v n = .ok (e, n')) (hk : S.osKey n = some k) :
      Call S n n' [.key k, e.wrappedItemKey.taking, e.blob.taking]
  | rewrapItemKey {v v' e id e'} (h : rewrapItemKey S v v' e id n = .ok (e', n')) : Call S n n' [e'.wrappedItemKey.taking]
  | sealWithPassword {pw p b} (h : sealWithPassword S pw p n = .ok (b, n')) : Call S n n' [b.kdf.taking, b.blob.taking]
  -- One account.
  | createAccount {pw r} (h : createAccount S pw n = .ok (r, n')) :
      Call S n n' [.bytes 16 r.encrypted.accountId, r.encrypted.kdf.taking, .key r.unlocked.ark,
        r.encrypted.wrappedArk.taking]
  | changeAccountPassword {old new ks next} (h : changeAccountPassword S old new ks n = .ok (next, n')) :
      Call S n n' [next.kdf.taking, next.wrappedArk.taking]
  | resetPasswordWithRecoveryKey {rk new ks next} (h : resetPasswordWithRecoveryKey S rk new ks n = .ok (next, n')) :
      Call S n n' [next.kdf.taking, next.wrappedArk.taking]
  | setupRecoveryKey {a shown raw x} (h : setupRecoveryKey S a n = .ok ((shown, x), n'))
      (hraw : normalizeRecoveryKey shown = .ok raw) : Call S n n' (raw.toList.map .letter ++ [x.taking])
  | enableAccountBiometric {a r} (h : enableAccountBiometric S a n = .ok (r, n')) :
      Call S n n' [.key r.wrapperKey, r.envelope.wrappedArk.taking]
  | rotateAccountRootKey {pw ks next a} (h : rotateAccountRootKey S pw ks n = .ok ((next, a), n')) :
      Call S n n' (.key a.ark :: (next.vaults.flatMap (fun e => [e.wrappedKek.taking]) ++
        [next.kdf.taking, next.wrappedArk.taking]))
  | rekeyAccount {old new ks slots r} (h : rekeyAccount S old new ks slots n = .ok (r, n')) :
      Call S n n' ([.key r.unlocked.ark, r.encrypted.kdf.taking, r.encrypted.wrappedArk.taking] ++
        r.vaults.flatMap RekeyedVault.takings)
  -- Vaults of an account.
  | createVaultUnderAccount {a r} (h : createVaultUnderAccount S a n = .ok (r, n')) :
      Call S n n' (.bytes 16 r.entry.vaultId :: .key r.unlocked.kek :: .key r.unlocked.vmk :: .key r.unlocked.ikek ::
        r.nonces)
  | attachSharedVaultUnderAccount {a id k r} (h : attachSharedVaultUnderAccount S a id k n = .ok (r, n')) :
      Call S n n' (.key r.unlocked.kek :: r.nonces)
  | reattachVaultUnderAccount {a v r} (h : reattachVaultUnderAccount S a v n = .ok (r, n')) :
      Call S n n' (.key r.unlocked.kek :: r.nonces)
  | rotateSharedVaultKeys {v k s v'} (h : rotateSharedVaultKeys S v k n = .ok ((s, v'), n')) :
      Call S n n' [s.wrappedVmk.taking, s.wrappedIkek.taking]
  -- Identities, shared keys and shares.
  | keyPairGenerate {r} (h : SharedIdentityKeyPair.generate S n = .ok (r, n')) : Call S n n' [.key r.secret]
  | identityGenerate {r} (h : Identity.generate S n = .ok (r, n')) :
      Call S n n' [.key r.x25519.secret, .key r.ed25519.seed]
  | wrapWithVault {identity : Identity S} {v x} (h : wrapWithVault identity v n = .ok (x, n')) :
      Call S n n' [x.envelope.taking]
  | encryptSharedItem {p k v e} (h : encryptSharedItem S p k v n = .ok (e, n')) : Call S n n' [e.blob.taking]
  | createSharedVault {pks key wraps} (h : createSharedVault S pks n = .ok ((key, wraps), n')) :
      Call S n n' (.key key :: List.zipWith (SealedSharedKey.taking key) pks wraps)
  | sealBytesFor {pk m c} (h : sealBytesFor S pk m n = .ok (c, n')) : Call S n n' [.box pk m c.tail]
  | wrapForRecipient {key pk x} (h : wrapForRecipient S key pk n = .ok (x, n')) : Call S n n' [x.taking key pk]
  | sealShare {p e key blob} (h : sealShare S p e n = .ok ((key, blob), n')) :
      Call S n n' [.key key.bytes, .bytes 24 blob.nonce]

/-- Calls one after the other. -/
inductive Run {β : Type} (S : Suite β) : Nat → List (Taking β) → Prop
  | init (n : Nat) : Run S n []
  | call {pos n n' l l'} (h : Run S pos l) (hn : pos ≤ n) (hc : Call S n n' l') : Run S n' (l ++ l')

variable {β : Type} {S : Suite β} {n n' : Nat} {l : List (Taking β)}

theorem call_takes (h : Call S n n' l) : Takes S n n' l := by
  cases h with
  | createVaultKeys h => exact createVaultKeys_takes h
  | changeMasterPassword h => exact changeMasterPassword_takes h
  | rotateVaultKey h => exact rotateVaultKey_takes h
  | rotateIkek h => exact rotateIkek_takes h
  | enableBiometricUnlock h => exact enableBiometricUnlock_takes h
  | wrapSigningSeed h => exact wrapSigningSeed_takes h
  | encryptItem h hk => exact encryptItem_takes h hk
  | rewrapItemKey h => exact rewrapItemKey_takes h
  | sealWithPassword h => exact sealWithPassword_takes h
  | createAccount h => exact createAccount_takes h
  | changeAccountPassword h => exact changeAccountPassword_takes h
  | resetPasswordWithRecoveryKey h => exact resetPasswordWithRecoveryKey_takes h
  | setupRecoveryKey h hraw => exact (setupRecoveryKey_takes h hraw).2
  | enableAccountBiometric h => exact enableAccountBiometric_takes h
  | rotateAccountRootKey h => exact rotateAccountRootKey_takes h
  | rekeyAccount h => exact rekeyAccount_takes h
  | createVaultUnderAccount h => exact createVaultUnderAccount_takes h
  | attachSharedVaultUnderAccount h => exact wrapUnderAccount_takes h
  | reattachVaultUnderAccount h => exact wrapUnderAccount_takes h
  | rotateSharedVaultKeys h => exact rotateSharedVaultKeys_takes h
  | keyPairGenerate h => exact keyPairGenerate_takes h
  | identityGenerate h => exact identityGenerate_takes h
  | wrapWithVault h => exact wrapWithVault_takes h
  | encryptSharedItem h => exact encryptSharedItem_takes h
  | createSharedVault h => exact createSharedVault_takes h
  | sealBytesFor h => exact sealBytesFor_takes h
  | wrapForRecipient h => exact wrapForRecipient_takes h
  | sealShare h => exact sealShare_takes h

/-- Everything in a run has a draw of its own. -/
theorem run_takes (h : Run S n l) : Takes S 0 n l := by
  induction h with
  | init n => exact .nil (Nat.zero_le n)
  | call _ hn hc ih => exact ih.append ((call_takes hc).widen hn (Nat.le_refl _))

/-! ## Nonces -/

/-- The nonce of a ciphertext; both ciphers' nonces have sizes that nothing else drawn has. -/
def nonceOf : Taking β → Option (List UInt8)
  | .bytes n b => if n = 12 ∨ n = 24 then some b.toList else none
  | _ => none

/-- The RNG does not repeat a nonce. -/
def FreshNonces (S : Suite β) : Prop :=
  ∀ {i j n} {b : Arr UInt8 n}, n = 12 ∨ n = 24 → S.osBytes i n = some b → S.osBytes j n = some b → i = j

theorem same_nonce (hf : FreshNonces S) {i j : Nat} {s t : Taking β} {b : List UInt8} (hs : Gives S i s)
    (ht : Gives S j t) (hb : nonceOf s = some b) (hb' : nonceOf t = some b) : i = j := by
  cases s with
  | bytes n x =>
    cases t with
    | bytes n' y =>
      simp only [nonceOf, Option.ite_none_right_eq_some, Option.some.injEq] at hb hb'
      obtain rfl : n = n' := by rw [← x.length, ← y.length, hb.2, hb'.2]
      obtain rfl : x = y := Arr.toList_inj.mp (hb.2.trans hb'.2.symm)
      exact hf hb.1 hs ht
    | _ => cases hb'
  | _ => cases hb

theorem same_key (hS : S.Ideal) {i j : Nat} {s t : Taking β} {k : SymmetricKey β} (hs : Gives S i s) (ht : Gives S j t)
    (hk : keyOf s = some k) (hk' : keyOf t = some k) : i = j := by
  cases s with
  | key x =>
    cases t with
    | key y =>
      cases hk
      cases hk'
      exact hS.key_fresh hs ht
    | _ => cases hk'
  | _ => cases hk

/-- What draws at different positions differ in occurs once. -/
theorem taken_nodup {γ : Type} {f : Taking β → Option γ}
    (hf : ∀ i j s t x, Gives S i s → Gives S j t → f s = some x → f t = some x → i = j) (h : Takes S n n' l) :
    (l.filterMap f).Nodup := by
  refine List.pairwise_filterMap.mpr (h.apart.imp fun hst x hx y hy hxy => ?_)
  obtain ⟨i, j, hlt, hs, ht⟩ := hst
  have := hf i j _ _ x hs ht hx (hxy ▸ hy)
  omega

/-- In every run, all nonces are distinct, and all keys drawn. -/
theorem draws_distinct (hS : S.Ideal) (hf : FreshNonces S) (h : Run S n l) :
    (∃ is : List Nat, is.Pairwise (· < ·) ∧ List.Forall₂ (Gives S) is l) ∧
      (l.filterMap nonceOf).Nodup ∧ (l.filterMap keyOf).Nodup := by
  obtain ⟨is, his, -, hall⟩ := (run_takes h).positions
  exact ⟨⟨is, his, hall⟩, taken_nodup (fun _ _ _ _ _ => same_nonce hf) (run_takes h),
    taken_nodup (fun _ _ _ _ _ => same_key hS) (run_takes h)⟩

/-- What is published at each of the first positions differs. -/
def fresh : Oracle :=
  { demo with osBytes := fun pos n => if pos < 256 then some (.replicate n (UInt8.ofNat pos)) else none }

theorem fresh_nonces : FreshNonces fresh.suite := by
  intro i j n b hn hi hj
  change (if i < 256 then some (Arr.replicate n (UInt8.ofNat i)) else none) = some b at hi
  change (if j < 256 then some (Arr.replicate n (UInt8.ofNat j)) else none) = some b at hj
  rw [Option.ite_none_right_eq_some, Option.some.injEq] at hi hj
  have he : List.replicate n (UInt8.ofNat i) = List.replicate n (UInt8.ofNat j) :=
    Arr.toList_inj.mpr (hi.2.trans hj.2.symm)
  have hb : UInt8.ofNat i = UInt8.ofNat j := (List.replicate_inj.mp he).2.resolve_left (by omega)
  have hmod := congrArg UInt8.toNat hb
  rw [UInt8.toNat_ofNat', UInt8.toNat_ofNat'] at hmod
  omega

/-- A vault, an item of it, another password, then another IKEK and another VMK. -/
def freshVault : VaultKeySet Term × Nat := okVal (createVaultKeys fresh.suite "a" 0) (by decide +kernel)

def freshItem : EncryptedItemBlob Term × Nat :=
  okVal (encryptItem fresh.suite [.data 0] (.replicate 16 1) freshVault.1.unlocked freshVault.2) (by decide +kernel)

def freshPassword : EncryptedKeySet Term × Nat :=
  okVal (changeMasterPassword fresh.suite "a" "b" freshVault.1.encrypted freshItem.2) (by decide +kernel)

def freshIkek : (EncryptedKeySet Term × UnlockedVault Term) × Nat :=
  okVal (rotateIkek fresh.suite freshVault.1.unlocked freshPassword.1 freshPassword.2) (by decide +kernel)

def freshVmk : (EncryptedKeySet Term × UnlockedVault Term × Option (WrappedKey Term)) × Nat :=
  okVal (rotateVaultKey fresh.suite freshIkek.1.2 freshIkek.1.1 none freshIkek.2) (by decide +kernel)

/-- Five calls take nine nonces and six keys. -/
theorem draws_distinct_calls : ∃ l : List (Taking Term), Run fresh.suite freshVmk.2 l ∧
    (l.filterMap nonceOf).length = 9 ∧ (l.filterMap nonceOf).Nodup ∧
    (l.filterMap keyOf).length = 6 ∧ (l.filterMap keyOf).Nodup := by
  have hvault : createVaultKeys fresh.suite "a" 0 = .ok (freshVault.1, freshVault.2) := okVal_eq _
  have hitem : encryptItem fresh.suite [.data 0] (.replicate 16 1) freshVault.1.unlocked freshVault.2 =
      .ok (freshItem.1, freshItem.2) := okVal_eq _
  have hpassword : changeMasterPassword fresh.suite "a" "b" freshVault.1.encrypted freshItem.2 =
      .ok (freshPassword.1, freshPassword.2) := okVal_eq _
  have hikek : rotateIkek fresh.suite freshVault.1.unlocked freshPassword.1 freshPassword.2 =
      .ok ((freshIkek.1.1, freshIkek.1.2), freshIkek.2) := okVal_eq _
  have hvmk : rotateVaultKey fresh.suite freshIkek.1.2 freshIkek.1.1 none freshIkek.2 =
      .ok ((freshVmk.1.1, freshVmk.1.2.1, none), freshVmk.2) := okVal_eq _
  obtain ⟨-, -, k, hk, -⟩ := encryptItem_ok hitem
  have hstored := ((Run.init 0).call (Nat.le_refl _) (.createVaultKeys hvault)).call (Nat.le_refl _) (.encryptItem hitem hk)
  have hchanged := (hstored.call (Nat.le_refl _) (.changeMasterPassword hpassword)).call (Nat.le_refl _) (.rotateIkek hikek)
  have hrun := hchanged.call (Nat.le_refl _) (.rotateVaultKey hvmk)
  obtain ⟨-, hnonces, hkeys⟩ := draws_distinct fresh.suite_ideal fresh_nonces hrun
  exact ⟨_, hrun, rfl, hnonces, rfl, hkeys⟩

/-! ## Recovery keys -/

/-- One byte, as a number. -/
def byteEquiv : Arr UInt8 1 ≃ Fin 256 where
  toFun b := (b.toList.headD 0).toFin
  invFun x := ⟨[UInt8.ofFin x], rfl⟩
  left_inv b := by
    obtain ⟨l, hl⟩ := b
    obtain ⟨x, rfl⟩ := List.length_eq_one_iff.mp hl
    rfl
  right_inv _ := rfl

/-- `letterOf`, of a number. -/
def letterAt (x : Fin 256) : Char := recoveryAlphabet.getD (UInt8.ofFin x &&& 0x1F).toNat '0'

theorem letterAt_card : ∀ c ∈ recoveryAlphabet, (Finset.univ.filter fun x => letterAt x = c).card = 8 :=
  forall_of_all (by decide +kernel)

theorem letter_card {c : Char} (h : c ∈ recoveryAlphabet) : Nat.card {b : Arr UInt8 1 // letterOf b = c} = 8 := by
  have he : {b : Arr UInt8 1 // letterOf b = c} ≃ {x // letterAt x = c} := byteEquiv.subtypeEquiv fun b => Iff.rfl
  rw [Nat.card_congr he, Nat.card_eq_fintype_card, Fintype.card_subtype]
  exact letterAt_card c h

/-- The key shown is read off one byte a letter, and as many sequences of bytes show each key. -/
theorem recovery_keys_even {a : UnlockedAccount β} {shown raw : String} {w : WrappedKey β}
    (h : setupRecoveryKey S a n = .ok ((shown, w), n')) (hraw : normalizeRecoveryKey shown = .ok raw) :
    (∃ bs : List (Arr UInt8 1), bs.length = 25 ∧ bs.map letterOf = raw.toList ∧
      Taken (fun p b => S.osBytes p 1 = some b) n n' bs) ∧
      ∀ cs : List Char, cs.length = 25 → (∀ c ∈ cs, c ∈ recoveryAlphabet) →
        Nat.card {bs : List (Arr UInt8 1) // bs.map letterOf = cs} = 8 ^ 25 := by
  obtain ⟨hlen, ht⟩ := setupRecoveryKey_takes h hraw
  have hletters : Takes S n n' (raw.toList.map .letter) := ht.sublist (List.sublist_append_left _ _)
  obtain ⟨bs, hbs, htaken⟩ := hletters.of_map.read
  refine ⟨⟨bs, ?_, hbs, htaken⟩, fun cs hcs hall => ?_⟩
  · rw [← List.length_map (f := letterOf), hbs, hlen]
    rfl
  · rw [card_lists fun c hc => letter_card (hall c hc), hcs]

/-- A recovery key was drawn with 25 bytes. -/
theorem recovery_keys_even_drawn : ∃ raw, normalizeRecoveryKey TypedKey.demoRecovery.1.1 = .ok raw ∧
    ∃ bs : List (Arr UInt8 1), bs.length = 25 ∧ bs.map letterOf = raw.toList := by
  have h : setupRecoveryKey demo.suite demoAccount.1.unlocked demoAccount.2 =
      .ok ((TypedKey.demoRecovery.1.1, TypedKey.demoRecovery.1.2), TypedKey.demoRecovery.2) := okVal_eq _
  obtain ⟨raw, hraw, -⟩ := setupRecoveryKey_ok h
  obtain ⟨⟨bs, hlen, hbs, -⟩, -⟩ := recovery_keys_even h hraw
  exact ⟨raw, hraw, bs, hlen, hbs⟩

end RootkeyCrypto.Random
