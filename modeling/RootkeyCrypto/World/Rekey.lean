/-
  RootkeyCrypto.World.Rekey — after `rekey_account`, what was known before opens nothing new.

  The attacker knows the whole world before the call: every key that was ever wrapped,
  every handle, root key and wrapper key, every item, and every password but the new one,
  the old one and the old recovery key among them. After it he sees the new keyset, the
  new slots and every item encrypted under a new handle, and draws keys of his own.

  `rekey_cuts_off`: he derives neither the new root key nor a new KEK, VMK or IKEK, nor a
  content that is encrypted under new handles only. The call takes nothing below the new
  password from the old account: root key, KEKs, VMKs and IKEKs are drawn, each is wrapped
  under the one above it, the topmost under the new password's key, and the recovery
  wrapping is gone. A root key rotation, which keeps the KEKs, has no such theorem.
-/

import RootkeyCrypto.World.Calls
import RootkeyCrypto.Core.Secrecy

namespace RootkeyCrypto.Rekey

open Lib Worlds

/-- Items encrypted under some handles, one after the other. -/
inductive Encrypts {β : Type} (S : Suite β) (vs : List (UnlockedVault β)) :
    Nat → Nat → List (List β × EncryptedItemBlob β) → Prop
  | nil {n} : Encrypts S vs n n []
  | cons {n m n' n'' p id v e rest} (hv : v ∈ vs) (hm : n ≤ m) (h : encryptItem S p id v m = .ok (e, n'))
      (hrest : Encrypts S vs n' n'' rest) : Encrypts S vs n n'' ((p, e) :: rest)

/-- Secret are the keys drawn from the re-key on, the contents in `secret`, and the new
    password. -/
def cut (o : Oracle) (n N : Nat) (new : String) (secret : Nat → Prop) : Secrets where
  key i := n ≤ i ∧ i < N
  data := secret
  word _ := False
  guess p := p ≠ asBytes (o.nfkd new)

/-- What the attacker has to begin with. -/
inductive Known (o : Oracle) (n N : Nat) (w : World Term) (current : AccountKeySet Term) (slots : List (VaultKeySlot Term))
    (r : RekeyedAccount Term) (items : List (List Term × EncryptedItemBlob Term)) : List Term → Prop
  /-- Keys drawn before the re-key, and his own. -/
  | drawn {i k} (hi : i < n ∨ N ≤ i) (hk : o.suite.osKey i = some k) : Known o n N w current slots r items k.toList
  /-- Every recovery key. -/
  | typed (l : List UInt8) : Known o n N w current slots r items (o.suite.typed l)
  | wrapped {x} (hx : x ∈ w.all.wrapped) : Known o n N w current slots r items x.out.ciphertext
  | unwrapped {x} (hx : x ∈ w.all.wrapped) : Known o n N w current slots r items x.plain.toList
  | kek {v} (hv : w.Vault v) : Known o n N w current slots r items v.kek.toList
  | vmk {v} (hv : w.Vault v) : Known o n N w current slots r items v.vmk.toList
  | ikek {v} (hv : w.Vault v) : Known o n N w current slots r items v.ikek.toList
  | ark {a} (ha : a ∈ w.all.accounts) : Known o n N w current slots r items a.ark.toList
  | key {k} (hk : k ∈ w.all.keys) : Known o n N w current slots r items k.toList
  | payload {x} (hx : x ∈ w.all.payloads) : Known o n N w current slots r items x.out.ciphertext
  | content {x} (hx : x ∈ w.all.payloads) : Known o n N w current slots r items x.plain
  -- The account that was re-keyed.
  | currentArk : Known o n N w current slots r items current.wrappedArk.ciphertext
  | currentRecovery {x} (hx : x ∈ current.wrappedArkRecovery) : Known o n N w current slots r items x.ciphertext
  | currentEntry {e} (he : e ∈ current.vaults) : Known o n N w current slots r items e.wrappedKek.ciphertext
  | oldSlotVmk {s} (hs : s ∈ slots) : Known o n N w current slots r items s.wrappedVmk.ciphertext
  | oldSlotIkek {s} (hs : s ∈ slots) : Known o n N w current slots r items s.wrappedIkek.ciphertext
  -- What the re-key made, and the items after it.
  | newArk : Known o n N w current slots r items r.encrypted.wrappedArk.ciphertext
  | newRecovery {x} (hx : x ∈ r.encrypted.wrappedArkRecovery) : Known o n N w current slots r items x.ciphertext
  | newEntry {e} (he : e ∈ r.encrypted.vaults) : Known o n N w current slots r items e.wrappedKek.ciphertext
  | newSlotVmk {x} (hx : x ∈ r.vaults) : Known o n N w current slots r items x.slot.wrappedVmk.ciphertext
  | newSlotIkek {x} (hx : x ∈ r.vaults) : Known o n N w current slots r items x.slot.wrappedIkek.ciphertext
  | itemKey {x} (hx : x ∈ items) : Known o n N w current slots r items x.2.wrappedItemKey.ciphertext
  | item {x} (hx : x ∈ items) : Known o n N w current slots r items x.2.blob.ciphertext

variable {o : Oracle}

theorem Encrypts.le {vs : List (UnlockedVault Term)} {n n' : Nat} {items : List (List Term × EncryptedItemBlob Term)}
    (h : Encrypts o.suite vs n n' items) : n ≤ n' := by
  induction h with
  | nil => exact Nat.le_refl _
  | cons _ hm he _ ih =>
    have := (encryptItem_ok he).2.1
    omega

/-- Under secret IKEKs, what is stored of an item may be published. -/
theorem Encrypts.safe {σ : Secrets} {vs : List (UnlockedVault Term)} {n n' : Nat}
    {items : List (List Term × EncryptedItemBlob Term)} (h : Encrypts o.suite vs n n' items)
    (hvs : ∀ v ∈ vs, ¬ SafeKey σ v.ikek) (hσ : ∀ i, n ≤ i → i < n' → σ.key i) :
    ∀ x ∈ items, AllSafe σ x.2.wrappedItemKey.ciphertext ∧ AllSafe σ x.2.blob.ciphertext := by
  induction h with
  | nil => exact fun x hx => (by cases hx)
  | cons hv hm he hrest ih =>
    obtain ⟨-, hlt, k, hk, hw, hb⟩ := encryptItem_ok he
    have hle := hrest.le
    have hsecret : ¬ SafeKey σ k := by
      rw [osKey_safe hk, not_not]
      exact hσ _ hm (by omega)
    refine List.forall_mem_cons.mpr ⟨⟨?_, ?_⟩, ih fun i hi hi' => hσ i (by omega) hi'⟩
    · exact (wraps_safe hw).mpr fun h => absurd h (hvs _ hv)
    · exact (seals_safe hb).mpr fun h => absurd h hsecret

/-- Publishable bytes are a source of keys up to the re-key. -/
theorem cut_source (n N : Nat) (new : String) (secret : Nat → Prop) :
    Source o.suite (Safe (cut o n N new secret)) (Safe (cut o n N new secret)) n where
  env _ h := h
  lit _ := trivial
  drawn i k hi hk := (osKey_safe hk).mpr fun h => absurd h.1 (by omega)
  blake c m hm := (allSafe_blake o c m).mpr hm

/-- A piece of the old world may be published. -/
theorem has_safe {σ : Secrets} {w : World Term} (hw : Sound o.suite w.all) (ho : Only (Safe σ) w.all) {x : WrappedKey Term}
    (hx : w.Has x) : AllSafe σ x.ciphertext := by
  obtain ⟨r, hr, rfl⟩ := hx
  exact (wraps_safe (hw.wraps r hr)).mpr fun _ => ho.wrapped r hr

/-- The new keys are secret: all were drawn by the call. -/
theorem rekeyed_secret {σ : Secrets} {ks : AccountKeySet Term} {a new : UnlockedAccount Term} {n n' : Nat}
    {s : VaultKeySlot Term} {r : RekeyedVault Term} (h : Rekeyed o.suite ks a new n n' s r)
    (hσ : ∀ i, n ≤ i → i < n' → σ.key i) : ¬ SafeKey σ r.new.kek ∧ ¬ SafeKey σ r.new.vmk ∧ ¬ SafeKey σ r.new.ikek :=
  ⟨drawn_secret h.fresh.1 hσ, drawn_secret h.fresh.2.1 hσ, drawn_secret h.fresh.2.2 hσ⟩

/-- Everything the attacker begins with may be published. -/
theorem known_safe {w : World Term} {n n' N : Nat} {old new : String} {current : AccountKeySet Term}
    {slots : List (VaultKeySlot Term)} {r : RekeyedAccount Term} {items : List (List Term × EncryptedItemBlob Term)}
    {secret : Nat → Prop} (hw : Reach o.suite (Safe (cut o n N new secret)) w) (hn : w.pos ≤ n)
    (hcur : w.HasAccount current) (hslots : ∀ s ∈ slots, w.HasSlot s)
    (h : rekeyAccount o.suite old new current slots n = .ok (r, n'))
    (hitems : Encrypts o.suite (r.vaults.map (·.new)) n' N items) :
    ∀ m, Known o n N w current slots r items m → AllSafe (cut o n N new secret) m := by
  have hsound := reach_sound o.suite_ideal hw
  have honly := reach_only o.suite_ideal hw (cut_source n N new secret) hn
  obtain ⟨a, muk, -, hida, hark, hmuk, hwark, henc, hall, hlt⟩ := rekeyAccount_ok h
  have hle := hitems.le
  have hmuk' : ¬ SafeKey (cut o n N new secret) muk := by
    rw [deriveMuk_safe hmuk]
    exact fun h => h rfl
  have hark' : ¬ SafeKey (cut o n N new secret) r.unlocked.ark := by
    rw [osKey_safe hark, not_not]
    exact ⟨Nat.le_refl _, by omega⟩
  have hkeys : ∀ x ∈ r.vaults, Mounts o.suite r.unlocked x.entry x.slot x.new ∧
      ¬ SafeKey (cut o n N new secret) x.new.kek ∧ ¬ SafeKey (cut o n N new secret) x.new.vmk ∧
      ¬ SafeKey (cut o n N new secret) x.new.ikek := by
    intro x hx
    obtain ⟨s, -, hr⟩ := paired_right hall hx
    exact ⟨hr.mounts, rekeyed_secret hr fun i hi hi' => ⟨by omega, by omega⟩⟩
  have hit := hitems.safe (σ := cut o n N new secret)
    (fun v hv => by obtain ⟨x, hx, rfl⟩ := List.mem_map.mp hv; exact (hkeys x hx).2.2.2)
    fun i hi hi' => ⟨by omega, hi'⟩
  intro m hm
  cases hm with
  | drawn hi hk => exact (osKey_safe hk).mpr fun h => by obtain ⟨h1, h2⟩ := h; omega
  | typed l => exact (allSafe_typed o l).mpr fun _ => not_false
  | wrapped hx => exact has_safe hsound honly ⟨_, hx, rfl⟩
  | unwrapped hx => exact honly.wrapped _ hx
  | kek hv => exact (vault_bytes honly hv).kek
  | vmk hv => exact (vault_bytes honly hv).vmk
  | ikek hv => exact (vault_bytes honly hv).ikek
  | ark ha => exact honly.accounts _ ha
  | key hk => exact honly.keys _ hk
  | payload hx =>
    obtain ⟨k, a, hb⟩ := hsound.payloads _ hx
    exact (seals_safe hb).mpr fun _ => honly.payloads _ hx
  | content hx => exact honly.payloads _ hx
  | currentArk => exact has_safe hsound honly hcur.1
  | currentRecovery hx => exact has_safe hsound honly (hcur.2.1 _ hx)
  | currentEntry he => exact has_safe hsound honly (hcur.2.2 _ he)
  | oldSlotVmk hs => exact has_safe hsound honly (hslots _ hs).1
  | oldSlotIkek hs => exact has_safe hsound honly (hslots _ hs).2
  | newArk => exact (wraps_safe hwark).mpr fun h => absurd h hmuk'
  | newRecovery hx =>
    rw [henc] at hx
    cases hx
  | newEntry he =>
    rw [henc] at he
    obtain ⟨x, hx, rfl⟩ := List.mem_map.mp he
    exact (wraps_safe (hkeys x hx).1.kek).mpr fun h => absurd h hark'
  | newSlotVmk hx => exact (wraps_safe (hkeys _ hx).1.below.vmk).mpr fun h => absurd h (hkeys _ hx).2.1
  | newSlotIkek hx => exact (wraps_safe (hkeys _ hx).1.below.ikek).mpr fun h => absurd h (hkeys _ hx).2.2.1
  | itemKey hx => exact (hit _ hx).1
  | item hx => exact (hit _ hx).2

/-- After a re-key the old secrets reach neither the new keys nor what only they protect. -/
theorem rekey_cuts_off {w : World Term} {n n' N : Nat} {old new : String} {current : AccountKeySet Term}
    {slots : List (VaultKeySlot Term)} {r : RekeyedAccount Term} {items : List (List Term × EncryptedItemBlob Term)}
    {secret : Nat → Prop} (hw : Reach o.suite (Safe (cut o n N new secret)) w) (hn : w.pos ≤ n)
    (hcur : w.HasAccount current) (hslots : ∀ s ∈ slots, w.HasSlot s) (hne : o.nfkd new ≠ o.nfkd old)
    (h : rekeyAccount o.suite old new current slots n = .ok (r, n'))
    (hitems : Encrypts o.suite (r.vaults.map (·.new)) n' N items) :
    let Guess := fun p => p ≠ asBytes (o.nfkd new)
    let Reaches := Derives o.suite (Known o n N w current slots r items) Guess
    Guess (asBytes (o.nfkd old)) ∧ ¬ Reaches r.unlocked.ark.toList ∧
      (∀ x ∈ r.vaults, ¬ Reaches x.new.kek.toList ∧ ¬ Reaches x.new.vmk.toList ∧ ¬ Reaches x.new.ikek.toList) ∧
      ∀ x ∈ items, ∀ d, secret d → Term.data d ∈ x.1 → ¬ Reaches x.1 := by
  have hsafe : ∀ {m}, Derives o.suite (Known o n N w current slots r items) (fun p => p ≠ asBytes (o.nfkd new)) m →
      AllSafe (cut o n N new secret) m :=
    fun hm => hm.safe (fun _ hg => hg) (known_safe hw hn hcur hslots h hitems)
  obtain ⟨a, muk, -, -, hark, -, -, -, hall, hlt⟩ := rekeyAccount_ok h
  have hle := hitems.le
  refine ⟨fun he => hne (asBytes_inj.mp he).symm, fun hm => ?_, fun x hx => ?_, fun x _ d hd hmem hm => ?_⟩
  · exact (osKey_safe hark).mp (hsafe hm) ⟨Nat.le_refl _, by omega⟩
  · obtain ⟨s, -, hr⟩ := paired_right hall hx
    have hsecret := rekeyed_secret (σ := cut o n N new secret) hr fun i hi hi' => ⟨by omega, by omega⟩
    exact ⟨fun hm => hsecret.1 (hsafe hm), fun hm => hsecret.2.1 (hsafe hm), fun hm => hsecret.2.2 (hsafe hm)⟩
  · exact hsafe hm _ hmem hd

/-! ## A trace -/

def demoMuk : SymmetricKey Term := .ofFn 32 (.argon defaultMemoryKib defaultTimeCost defaultParallelism
  demoAccount.1.encrypted.kdf.salt.toList (asBytes "a"))

/-- An account with one vault. -/
def demoWorld : World Term :=
  ((⟨0, {}⟩ : World Term).add demoAccount.2
    { wrapped := [⟨.ark demoAccount.1.unlocked.accountId demoAccount.1.encrypted.kdf, demoMuk,
        demoAccount.1.unlocked.ark, demoAccount.1.encrypted.wrappedArk⟩]
      accounts := [demoAccount.1.unlocked] }).add demoMount.2
    { wrapped := mountRecs demoAccount.1.unlocked demoMount.1.entry demoMount.1.slot demoMount.1.unlocked
      born := [demoMount.1.unlocked] }

def demoRekey : RekeyedAccount Term × Nat :=
  okVal (rekeyAccount demo.suite "a" "b" demoKeyset [demoMount.1.slot] demoMount.2) (by decide +kernel)

/-- The new handle of the vault. -/
def demoNew : UnlockedVault Term := (demoRekey.1.vaults.map (·.new)).headD demoMount.1.unlocked

def demoAfter : EncryptedItemBlob Term × Nat :=
  okVal (encryptItem demo.suite [.data 0] (.replicate 16 1) demoNew demoRekey.2) (by decide +kernel)

/-- A content encrypted after the re-key stays out of reach. -/
theorem rekey_cuts_off_one_vault :
    ¬ Derives demo.suite (Known demo demoMount.2 demoAfter.2 demoWorld demoKeyset [demoMount.1.slot] demoRekey.1
      [([.data 0], demoAfter.1)]) (fun p => p ≠ asBytes "b") [.data 0] := by
  have hmuk : deriveMuk demo.suite "a" demoAccount.1.encrypted.kdf = .ok demoMuk := by decide +kernel
  have hrekey : rekeyAccount demo.suite "a" "b" demoKeyset [demoMount.1.slot] demoMount.2 =
      .ok (demoRekey.1, demoRekey.2) := okVal_eq _
  have hitem : encryptItem demo.suite [.data 0] (.replicate 16 1) demoNew demoRekey.2 = .ok (demoAfter.1, demoAfter.2) :=
    okVal_eq _
  have h0 : Reach demo.suite (Safe (cut demo demoMount.2 demoAfter.2 "b" (· = 0))) (⟨0, {}⟩ : World Term) := .init 0
  have hw : Reach demo.suite (Safe (cut demo demoMount.2 demoAfter.2 "b" (· = 0))) demoWorld :=
    (h0.call (Nat.le_refl _) (.createAccount demoAccount_created hmuk)).call (Nat.le_refl _)
      (.createVaultUnderAccount List.mem_cons_self demoMount_created)
  have hnew : demoNew ∈ demoRekey.1.vaults.map (·.new) := by decide +kernel
  have hcur : demoWorld.HasAccount demoKeyset :=
    ⟨⟨_, List.mem_append_right _ List.mem_cons_self, rfl⟩, fun x hx => (by cases hx),
      List.forall_mem_singleton.mpr ⟨_, List.mem_cons_self, rfl⟩⟩
  have hslots : ∀ s ∈ [demoMount.1.slot], demoWorld.HasSlot s :=
    List.forall_mem_singleton.mpr ⟨⟨_, List.mem_cons_of_mem _ List.mem_cons_self, rfl⟩,
      ⟨_, List.mem_cons_of_mem _ (List.mem_cons_of_mem _ List.mem_cons_self), rfl⟩⟩
  exact (rekey_cuts_off hw (Nat.le_refl _) hcur hslots (show "b" ≠ "a" by decide) hrekey
    (.cons hnew (Nat.le_refl _) hitem .nil)).2.2.2 _ List.mem_cons_self 0 rfl List.mem_cons_self

end RootkeyCrypto.Rekey
